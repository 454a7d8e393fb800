import Mathlib.Algebra.Order.Field.Power
import Mathlib.Data.Rat.Cast.Order
import Mathlib.Tactic.GCongr
import Mathlib.Tactic.Positivity
import Mathlib.Tactic.Ring
import Interchange.Proofs.DoubleRange

namespace Interchange.Number
open Float.Model (Format UnpackedFloat)
open Float.Model.UnpackedFloat

section Fields

theorem toNat_unpackMantissa (b : BitVec 64) :
    (@unpackMantissa .binary64 b).toNat = b.toNat % 4503599627370496 := by
  simp [unpackMantissa]

theorem toNat_unpackExponent (b : BitVec 64) :
    (@unpackExponent .binary64 b).toNat = b.toNat / 4503599627370496 % 2048 := by
  simp [unpackExponent, Nat.shiftRight_eq_div_pow]

theorem toNat_unpackSign (b : BitVec 64) :
    (@unpackSign .binary64 b).toNat = b.toNat / 9223372036854775808 := by
  have hb := b.isLt
  unfold unpackSign
  simp only [BitVec.toNat_cast, BitVec.extractLsb_toNat, Nat.shiftRight_eq_div_pow]
  omega

theorem toNat_packComponents (s : Sign) (e : BitVec 11) (m : BitVec 52) :
    (packComponents .binary64 s e m).toNat =
      s.toBitVec.toNat * 9223372036854775808 + e.toNat * 4503599627370496 + m.toNat := by
  have he := e.isLt
  have hm := m.isLt
  rw [packComponents, BitVec.toNat_append, BitVec.toNat_append,
    ← Nat.shiftLeft_add_eq_or_of_lt he, ← Nat.shiftLeft_add_eq_or_of_lt hm]
  simp only [Nat.shiftLeft_eq]
  omega

theorem isFinite_iff {x : Float} :
    x.isFinite = true ↔ x.toBits.toNat / 4503599627370496 % 2048 ≠ 2047 := by
  refine isFinite_unpack.trans (not_congr ?_)
  rw [← BitVec.toNat_inj, toNat_unpackExponent]
  rfl

theorem eq_of_toBits {x y : Float} (h : x.toBits.toNat = y.toBits.toNat) : x = y := by
  obtain ⟨⟨b, hb⟩⟩ := x
  obtain ⟨⟨c, hc⟩⟩ := y
  obtain rfl : b = c := UInt64.toNat_inj.mp h
  rfl

end Fields

def signOf : Bool → Sign
  | true => .negative
  | false => .positive

theorem toNat_signOf (negative : Bool) : (signOf negative).toBitVec.toNat * 9223372036854775808 =
    if negative then 9223372036854775808 else 0 := by
  cases negative <;> rfl

def Binary.signed (negative : Bool) (b : Binary) : UnpackedFloat :=
  if h : b.mantissa = 0 then .zero (signOf negative)
  else .finite (signOf negative) b.mantissa b.exponent (Nat.pos_of_ne_zero h)

theorem Binary.signed_of_eq_zero {b : Binary} (h : b.mantissa = 0) (negative : Bool) :
    b.signed negative = .zero (signOf negative) := dif_pos h

theorem Binary.signed_of_ne_zero {b : Binary} (h : b.mantissa ≠ 0) (negative : Bool) :
    b.signed negative = .finite (signOf negative) b.mantissa b.exponent (Nat.pos_of_ne_zero h) :=
  dif_neg h

theorem neg_signed (negative : Bool) (b : Binary) :
    neg (b.signed negative) = b.signed (!negative) := by
  by_cases h : b.mantissa = 0
  · rw [Binary.signed_of_eq_zero h, Binary.signed_of_eq_zero h]
    cases negative <;> rfl
  · rw [Binary.signed_of_ne_zero h, Binary.signed_of_ne_zero h]
    cases negative <;> rfl

theorem abs_signed (negative : Bool) (b : Binary) : abs (b.signed negative) = b.signed false := by
  by_cases h : b.mantissa = 0
  · rw [Binary.signed_of_eq_zero h, Binary.signed_of_eq_zero h]
    rfl
  · rw [Binary.signed_of_ne_zero h, Binary.signed_of_ne_zero h]
    rfl

theorem ofBitVec_unpackSign (x : Float) :
    Sign.ofBitVec (@unpackSign .binary64 x.toBits.toBitVec) = signOf (isNegative x) := by
  have hlt := x.toBits.toNat_lt
  have hsign : (@unpackSign .binary64 x.toBits.toBitVec).toNat =
    x.toBits.toNat / 9223372036854775808 := toNat_unpackSign _
  by_cases hneg : x.toBits.toNat / 9223372036854775808 = 1
  · have hone : @unpackSign .binary64 x.toBits.toBitVec = 1#1 :=
      BitVec.eq_of_toNat_eq (hsign.trans hneg)
    rw [isNegative, hneg, hone]
    rfl
  · have hzero : x.toBits.toNat / 9223372036854775808 = 0 := by omega
    have hnil : @unpackSign .binary64 x.toBits.toBitVec = 0#1 :=
      BitVec.eq_of_toNat_eq (hsign.trans hzero)
    rw [isNegative, hzero, hnil]
    rfl

theorem finite_congr {s : Sign} {m m' : ℕ} {e e' : ℤ} {hm : 0 < m} {hm' : 0 < m'} (h : m = m')
    (he : e = e') : UnpackedFloat.finite s m e hm = .finite s m' e' hm' := by
  subst h he
  rfl

theorem Binary.mantissa_ofBits (bits : UInt64) :
    (ofBits bits).mantissa = if bits.toNat / 4503599627370496 % 2048 = 0
      then bits.toNat % 4503599627370496
      else 4503599627370496 + bits.toNat % 4503599627370496 := by
  unfold ofBits
  dsimp only
  split_ifs <;> rfl

theorem Binary.exponent_ofBits (bits : UInt64) :
    (ofBits bits).exponent = if bits.toNat / 4503599627370496 % 2048 = 0 then (-1074 : ℤ)
      else ((bits.toNat / 4503599627370496 % 2048 : ℕ) : ℤ) - 1075 := by
  unfold ofBits
  dsimp only
  split_ifs <;> rfl

theorem unpack_of_isFinite {x : Float} (h : x.isFinite = true) :
    x.toModel.unpack = (Binary.ofBits x.toBits).signed (isNegative x) := by
  have hspecial : @unpackExponent .binary64 x.toBits.toBitVec ≠ -1#11 := isFinite_unpack.mp h
  have hexponent : (@unpackExponent .binary64 x.toBits.toBitVec).toNat =
    x.toBits.toNat / 4503599627370496 % 2048 := toNat_unpackExponent _
  have hmantissa : (@unpackMantissa .binary64 x.toBits.toBitVec).toNat =
    x.toBits.toNat % 4503599627370496 := toNat_unpackMantissa _
  have hm := Binary.mantissa_ofBits x.toBits
  have he := Binary.exponent_ofBits x.toBits
  have hbias : Format.binary64.exponentBias = 1023 := rfl
  change unpack .binary64 x.toBits.toBitVec = _
  unfold unpack
  dsimp only
  rw [if_neg hspecial, ofBitVec_unpackSign]
  by_cases hsub : @unpackExponent .binary64 x.toBits.toBitVec = 0#11
  · have hfield : x.toBits.toNat / 4503599627370496 % 2048 = 0 :=
      hexponent.symm.trans (congrArg BitVec.toNat hsub)
    rw [if_pos hfield, ← hmantissa] at hm
    rw [if_pos hfield] at he
    rw [if_pos hsub]
    by_cases hzero : @unpackMantissa .binary64 x.toBits.toBitVec = 0#52
    · rw [dif_pos hzero, Binary.signed_of_eq_zero (hm.trans (congrArg BitVec.toNat hzero))]
    · have hfraction : (Binary.ofBits x.toBits).mantissa ≠ 0 :=
        fun hn => hzero (BitVec.eq_of_toNat_eq (hm.symm.trans hn))
      rw [dif_neg hzero, Binary.signed_of_ne_zero hfraction]
      exact finite_congr hm.symm (by rw [hexponent, hfield, he, hbias]; rfl)
  · have hfield : x.toBits.toNat / 4503599627370496 % 2048 ≠ 0 :=
      fun hn => hsub (BitVec.eq_of_toNat_eq (hexponent.trans hn))
    rw [if_neg hfield] at hm he
    rw [if_neg hsub, Binary.signed_of_ne_zero (by omega)]
    refine finite_congr ?_ (by rw [hexponent, he, hbias]; rfl)
    rw [BitVec.toNat_append, ← Nat.shiftLeft_add_eq_or_of_lt (BitVec.isLt _), hm, hmantissa]
    rfl

/-- Packing a magnitude puts its sign before the other fields. -/
theorem pack_signed {x : Float} (h : x.isFinite = true) (negative : Bool) :
    pack .binary64 ((Binary.ofBits x.toBits).signed negative) =
      packComponents .binary64 (signOf negative)
        (BitVec.ofNat 11 (x.toBits.toNat / 4503599627370496 % 2048))
        (BitVec.ofNat 52 (x.toBits.toNat % 4503599627370496)) := by
  have hspecial := isFinite_iff.mp h
  have hsize : x.toBits.toNat / 4503599627370496 % 2048 < 2048 := Nat.mod_lt _ (by decide)
  have hfraction : x.toBits.toNat % 4503599627370496 < 4503599627370496 :=
    Nat.mod_lt _ (by decide)
  have hm := Binary.mantissa_ofBits x.toBits
  have he := Binary.exponent_ofBits x.toBits
  generalize x.toBits.toNat / 4503599627370496 % 2048 = field at *
  generalize x.toBits.toNat % 4503599627370496 = fraction at *
  by_cases hfield : field = 0
  · subst hfield
    rw [if_pos rfl] at hm he
    by_cases hzero : (Binary.ofBits x.toBits).mantissa = 0
    · rw [Binary.signed_of_eq_zero hzero, ← hm, hzero]
      rfl
    · have hlog : (Binary.ofBits x.toBits).mantissa.log2 < 52 := by
        rw [Nat.log2_lt hzero, hm]
        exact hfraction
      have hbits : (Binary.ofBits x.toBits).mantissa.log2 + 1 ≠ Format.binary64.mantissaBits :=
        fun hl => absurd (Nat.succ.inj hl) hlog.ne
      rw [Binary.signed_of_ne_zero hzero]
      unfold pack
      dsimp only
      rw [he, if_neg (by decide), if_neg hbits, hm]
  · rw [if_neg hfield] at hm he
    have hlog : (Binary.ofBits x.toBits).mantissa.log2 = 52 := by
      rw [hm, Nat.log2_eq_iff (by omega)]
      omega
    have hbiased : ((Binary.ofBits x.toBits).exponent + Format.binary64.exponentBias +
        (52 : ℕ)).toNat = field := by
      change (_ + 1023 + 52 : ℤ).toNat = _
      omega
    have hmod : BitVec.ofNat 52 (Binary.ofBits x.toBits).mantissa = BitVec.ofNat 52 fraction := by
      rw [hm, ← BitVec.toNat_inj, BitVec.toNat_ofNat, BitVec.toNat_ofNat]
      omega
    have hlt : ¬2 ^ Format.binary64.exponentBits ≤ field + 1 := by
      change ¬2048 ≤ field + 1
      omega
    rw [Binary.signed_of_ne_zero (by omega)]
    unfold pack
    dsimp only
    rw [hbiased, if_neg hlt, hlog, if_pos (show 52 + 1 = Format.binary64.mantissaBits from rfl),
      hmod]

theorem toNat_pack_signed {x : Float} (h : x.isFinite = true) (negative : Bool) :
    (pack .binary64 ((Binary.ofBits x.toBits).signed negative)).toNat =
      (if negative then 9223372036854775808 else 0) + x.toBits.toNat % 9223372036854775808 := by
  rw [pack_signed h, toNat_packComponents, toNat_signOf, Nat.add_assoc, Nat.add_left_cancel_iff,
    BitVec.toNat_ofNat, BitVec.toNat_ofNat]
  omega

theorem toBits_neg {x : Float} (h : x.isFinite = true) :
    (-x).toBits.toNat = (if isNegative x then 0 else 9223372036854775808) +
      x.toBits.toNat % 9223372036854775808 := by
  change (pack .binary64 (neg x.toModel.unpack)).toNat = _
  rw [unpack_of_isFinite h, neg_signed, toNat_pack_signed h]
  cases isNegative x <;> rfl

theorem toBits_abs {x : Float} (h : x.isFinite = true) :
    x.abs.toBits.toNat = x.toBits.toNat % 9223372036854775808 := by
  change (pack .binary64 (abs x.toModel.unpack)).toNat = _
  rw [unpack_of_isFinite h, abs_signed, toNat_pack_signed h, if_neg Bool.false_ne_true,
    Nat.zero_add]

section Magnitude

variable {x : Float} (h : x.isFinite = true)

include h

theorem isFinite_abs : x.abs.isFinite = true := by
  have hx := isFinite_iff.mp h
  rw [isFinite_iff, toBits_abs h]
  omega

theorem isNegative_abs : isNegative x.abs = false := by
  rw [isNegative, toBits_abs h, Nat.div_eq_of_lt (Nat.mod_lt _ (by decide))]
  rfl

theorem ofBits_abs : Binary.ofBits x.abs.toBits = Binary.ofBits x.toBits := by
  have hfield : x.abs.toBits.toNat / 4503599627370496 % 2048 =
      x.toBits.toNat / 4503599627370496 % 2048 := by
    rw [toBits_abs h]
    omega
  have hfraction : x.abs.toBits.toNat % 4503599627370496 = x.toBits.toNat % 4503599627370496 := by
    rw [toBits_abs h]
    omega
  unfold Binary.ofBits
  rw [hfield, hfraction]

theorem abs_of_not_negative (hn : isNegative x = false) : x.abs = x := by
  have hlt := x.toBits.toNat_lt
  have hsign : x.toBits.toNat / 9223372036854775808 ≠ 1 := by simpa [isNegative] using hn
  refine eq_of_toBits ?_
  rw [toBits_abs h]
  omega

theorem neg_abs_of_negative (hn : isNegative x = true) : -x.abs = x := by
  have hlt := x.toBits.toNat_lt
  have hsign : x.toBits.toNat / 9223372036854775808 = 1 := by simpa [isNegative] using hn
  refine eq_of_toBits ?_
  rw [toBits_neg (isFinite_abs h), isNegative_abs h, if_neg Bool.false_ne_true, toBits_abs h]
  omega

end Magnitude

/-- A double that is not finite is packed again from its sign or from nothing. -/
theorem toModel_of_not_isFinite {x : Float} (h : x.isFinite = false) :
    (∃ s, x = ⟨Float.Model.pack (.infinity s)⟩) ∨ x = ⟨Float.Model.pack .notANumber⟩ := by
  have hspecial : @unpackExponent .binary64 x.toBits.toBitVec = -1#11 := by
    by_contra hne
    rw [show x.isFinite = true from isFinite_unpack.mpr hne] at h
    cases h
  by_cases hmantissa : @unpackMantissa .binary64 x.toBits.toBitVec = 0#52
  · refine .inl ⟨.ofBitVec (@unpackSign .binary64 x.toBits.toBitVec), eq_of_toBits ?_⟩
    have hlt := x.toBits.toNat_lt
    have hfield := congrArg BitVec.toNat hspecial
    have hfraction := congrArg BitVec.toNat hmantissa
    have hsign := toNat_unpackSign x.toBits.toBitVec
    rw [toNat_unpackExponent] at hfield
    rw [toNat_unpackMantissa] at hfraction
    change x.toBits.toNat / _ % _ = 2047 at hfield
    change x.toBits.toNat % _ = 0 at hfraction
    change _ = x.toBits.toNat / _ at hsign
    have hkept : ∀ b : BitVec 1, (Sign.ofBitVec b).toBitVec = b := by decide
    refine Eq.trans ?_ (toNat_packComponents _ _ _).symm
    rw [hkept, hsign]
    change _ = _ + 2047 * 4503599627370496 + 0
    omega
  · exact .inr (eq_of_toBits
      (congrArg BitVec.toNat (x.toModel.valid.eq_packedNaN hspecial hmantissa)))

/-- Negating a double twice changes nothing, also where it is not finite. -/
theorem neg_neg_double (x : Float) : - -x = x := by
  cases hx : x.isFinite with
  | true =>
    have hlt := x.toBits.toNat_lt
    have hneg := toBits_neg hx
    have hsign : isNegative (-x) = !isNegative x := by
      rw [isNegative, hneg]
      cases isNegative x
      · rw [if_neg Bool.false_ne_true, Bool.not_false, beq_iff_eq]
        omega
      · rw [if_pos rfl, Bool.not_true, beq_eq_false_iff_ne]
        omega
    refine eq_of_toBits ?_
    rw [toBits_neg (isFinite_neg hx), hsign, hneg]
    cases hn : isNegative x
    · rw [isNegative, beq_eq_false_iff_ne] at hn
      rw [Bool.not_false, if_pos rfl, if_neg Bool.false_ne_true]
      omega
    · rw [isNegative, beq_iff_eq] at hn
      rw [Bool.not_true, if_neg Bool.false_ne_true, if_pos rfl]
      omega
  | false =>
    rcases toModel_of_not_isFinite hx with ⟨s, rfl⟩ | rfl
    · cases s <;> rfl
    · rfl

namespace Binary

def value (b : Binary) : ℚ := b.mantissa * 2 ^ b.exponent

theorem value_eq_div (b : Binary) : b.value = b.numerator / b.denominator := by
  rw [value, numerator, denominator, Nat.pow_eq, Nat.pow_eq]
  obtain ⟨n, h | h⟩ := b.exponent.eq_nat_or_neg
  · have hneg : (-(n : ℤ)).toNat = 0 := by omega
    rw [h, hneg, Int.toNat_natCast, zpow_natCast]
    push_cast
    rw [div_one]
  · have hzero : (-(n : ℤ)).toNat = 0 := by omega
    rw [h, hzero, neg_neg, Int.toNat_natCast, zpow_neg, zpow_natCast]
    push_cast
    rw [mul_one, div_eq_mul_inv]

/-- The form in which doubles hold a magnitude: the mantissa has 53 bits unless the exponent is the
least. -/
structure Canonical (b : Binary) : Prop where
  mantissa_lt : b.mantissa < 9007199254740992
  le_exponent : -1074 ≤ b.exponent
  normal : b.exponent ≠ -1074 → 4503599627370496 ≤ b.mantissa

theorem canonical_ofBits (bits : UInt64) : (ofBits bits).Canonical := by
  have hm := mantissa_ofBits bits
  have he := exponent_ofBits bits
  have hfraction : bits.toNat % 4503599627370496 < 4503599627370496 := Nat.mod_lt _ (by decide)
  generalize bits.toNat / 4503599627370496 % 2048 = field at hm he
  generalize bits.toNat % 4503599627370496 = fraction at hm hfraction
  by_cases hfield : field = 0
  · rw [if_pos hfield] at hm he
    exact ⟨by omega, by omega, fun h => absurd he h⟩
  · rw [if_neg hfield] at hm he
    exact ⟨by omega, by omega, fun _ => by omega⟩

variable {a b : Binary}

/-- A larger exponent outweighs the mantissa. -/
theorem value_lt_of_exponent_lt (ha : a.Canonical) (hb : b.Canonical)
    (h : a.exponent < b.exponent) : a.value < b.value := by
  have hnormal : 4503599627370496 ≤ b.mantissa := hb.normal (by have := ha.le_exponent; omega)
  have hpos : (0 : ℚ) < 2 ^ a.exponent := zpow_pos (by norm_num) _
  calc a.value < 9007199254740992 * 2 ^ a.exponent := by
        refine mul_lt_mul_of_pos_right ?_ hpos
        exact_mod_cast ha.mantissa_lt
    _ = 4503599627370496 * 2 ^ (a.exponent + 1) := by
        rw [zpow_add_one₀ (by norm_num)]
        ring
    _ ≤ b.mantissa * 2 ^ b.exponent := by
        gcongr
        · exact_mod_cast hnormal
        · norm_num
        · omega

theorem value_lt_iff_of_exponent_eq (h : a.exponent = b.exponent) :
    a.value < b.value ↔ a.mantissa < b.mantissa := by
  have hpos : (0 : ℚ) < 2 ^ b.exponent := zpow_pos (by norm_num) _
  rw [value, value, h, mul_lt_mul_iff_left₀ hpos, Nat.cast_lt]

/-- Canonical magnitudes compare by their exponents and then by their mantissas. -/
theorem lexicographic_eq_lt_iff (ha : a.Canonical) (hb : b.Canonical) :
    (compare a.exponent b.exponent).then (compare a.mantissa b.mantissa) = .lt ↔
      a.value < b.value := by
  rcases lt_trichotomy a.exponent b.exponent with h | h | h
  · rw [compare_lt_iff_lt.mpr h]
    exact iff_of_true rfl (value_lt_of_exponent_lt ha hb h)
  · rw [compare_eq_iff_eq.mpr h, value_lt_iff_of_exponent_eq h]
    exact compare_lt_iff_lt
  · rw [compare_gt_iff_gt.mpr h]
    exact iff_of_false Ordering.noConfusion (value_lt_of_exponent_lt hb ha h).not_gt

theorem lexicographic_isLE_iff (ha : a.Canonical) (hb : b.Canonical) :
    ((compare a.exponent b.exponent).then (compare a.mantissa b.mantissa)).isLE = true ↔
      a.value ≤ b.value := by
  rcases lt_trichotomy a.exponent b.exponent with h | h | h
  · rw [compare_lt_iff_lt.mpr h]
    exact iff_of_true rfl (value_lt_of_exponent_lt ha hb h).le
  · rw [compare_eq_iff_eq.mpr h, ← not_lt, value_lt_iff_of_exponent_eq h.symm, not_lt]
    exact Nat.isLE_compare
  · rw [compare_gt_iff_gt.mpr h]
    exact iff_of_false Bool.false_ne_true (value_lt_of_exponent_lt hb ha h).not_ge

theorem value_nonneg (b : Binary) : 0 ≤ b.value :=
  mul_nonneg (Nat.cast_nonneg _) (zpow_pos (by norm_num) _).le

theorem value_pos (h : b.mantissa ≠ 0) : 0 < b.value :=
  mul_pos (Nat.cast_pos.mpr (Nat.pos_of_ne_zero h)) (zpow_pos (by norm_num) _)

theorem value_of_mantissa_eq_zero (h : b.mantissa = 0) : b.value = 0 := by
  rw [value, h, Nat.cast_zero, zero_mul]

def signedValue (negative : Bool) (b : Binary) : ℚ := if negative then -b.value else b.value

/-- A number compares with a positive one as their values do. -/
theorem compare_signed (ha : a.Canonical) (hb : b.Canonical) (hne : b.mantissa ≠ 0)
    (negative : Bool) :
    ((a.signed negative).compare (b.signed false) = some .lt ↔
        a.signedValue negative < b.value) ∧
      (((b.signed false).compare (a.signed negative)).any (·.isLE) = true ↔
        b.value ≤ a.signedValue negative) := by
  have hpos := value_pos hne
  rw [signed_of_ne_zero hne]
  by_cases hzero : a.mantissa = 0
  · have hvalue : a.signedValue negative = 0 := by
      rw [signedValue, value_of_mantissa_eq_zero hzero, neg_zero, ite_self]
    rw [signed_of_eq_zero hzero, hvalue]
    exact ⟨iff_of_true rfl hpos, iff_of_false Bool.false_ne_true hpos.not_ge⟩
  · rw [signed_of_ne_zero hzero]
    cases negative with
    | true =>
      have hneg : a.signedValue true < b.value := (neg_neg_of_pos (value_pos hzero)).trans hpos
      exact ⟨iff_of_true rfl hneg, iff_of_false Bool.false_ne_true hneg.not_ge⟩
    | false =>
      refine ⟨?_, lexicographic_isLE_iff hb ha⟩
      exact Option.some_inj.trans (lexicographic_eq_lt_iff ha hb)

end Binary

def value? (x : Float) : Option ℚ :=
  if x.isFinite then some ((Binary.ofBits x.toBits).signedValue (isNegative x)) else none

theorem le_iff_unpack {x y : Float} :
    x ≤ y ↔ (x.toModel.unpack.compare y.toModel.unpack).any (·.isLE) = true := by
  change decide (x.toModel ≤ y.toModel) = true ↔ _
  rw [decide_eq_true_iff]
  exact Iff.rfl

theorem lt_iff_unpack {x y : Float} :
    x < y ↔ x.toModel.unpack.compare y.toModel.unpack = some .lt := by
  change decide (x.toModel < y.toModel) = true ↔ _
  rw [decide_eq_true_iff]
  change (_ == _) = true ↔ _
  rw [beq_iff_eq]

theorem unpack_of_positive {c : Float} {v : ℚ} (hc : value? c = some v) (hv : 0 < v) :
    c.toModel.unpack = (Binary.ofBits c.toBits).signed false ∧
      (Binary.ofBits c.toBits).mantissa ≠ 0 ∧ (Binary.ofBits c.toBits).value = v := by
  rw [value?] at hc
  split_ifs at hc with hfinite
  have hvalue := Option.some.inj hc
  have hneg : isNegative c = false := by
    refine Bool.eq_false_iff.mpr fun h => hv.not_ge ?_
    rw [← hvalue, Binary.signedValue, if_pos h]
    exact neg_nonpos.mpr (Binary.value_nonneg _)
  rw [Binary.signedValue, if_neg (Bool.eq_false_iff.mp hneg)] at hvalue
  refine ⟨by rw [unpack_of_isFinite hfinite, hneg], fun hzero => ?_, hvalue⟩
  rw [Binary.value_of_mantissa_eq_zero hzero] at hvalue
  exact hv.ne hvalue

/-- A double lies between two positive ones exactly when its value does; what is not finite does
not. -/
theorem between_iff {low high x : Float} {p q : ℚ} (hlow : value? low = some p) (hp : 0 < p)
    (hhigh : value? high = some q) (hq : 0 < q) :
    low ≤ x ∧ x < high ↔ ∃ v, value? x = some v ∧ p ≤ v ∧ v < q := by
  obtain ⟨hlow, hlowne, hlowv⟩ := unpack_of_positive hlow hp
  obtain ⟨hhigh, hhighne, hhighv⟩ := unpack_of_positive hhigh hq
  have hcanonical := Binary.canonical_ofBits
  rw [le_iff_unpack, lt_iff_unpack, hlow, hhigh, value?]
  by_cases hx : x.isFinite = true
  · rw [if_pos hx, unpack_of_isFinite hx,
      (Binary.compare_signed (hcanonical _) (hcanonical _) hlowne _).2,
      (Binary.compare_signed (hcanonical _) (hcanonical _) hhighne _).1, hlowv, hhighv]
    simp
  · have hinfinite : x.toModel.unpack.isFinite ≠ true := hx
    rw [if_neg hx, Binary.signed_of_ne_zero hlowne, Binary.signed_of_ne_zero hhighne]
    generalize x.toModel.unpack = u at hinfinite
    constructor
    · rintro ⟨hle, hlt⟩
      cases u with
      | zero | finite => exact absurd rfl hinfinite
      | notANumber => cases hlt
      | infinity s =>
        cases s with
        | positive => cases hlt
        | negative => cases hle
    · rintro ⟨v, hv, -⟩
      cases hv

end Interchange.Number
