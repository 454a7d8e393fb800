import Mathlib.Tactic.FieldSimp
import Mathlib.Tactic.Lift
import Mathlib.Tactic.Set
import Interchange.Number.Numeral
import Interchange.Proofs.DoubleRounding

namespace Interchange.Number
open Float.Model (Format UnpackedFloat totalExponent)
open Float.Model.UnpackedFloat

/-- A number given as positive and by its value, at whatever exponent. -/
def Holds (u : UnpackedFloat) (v : ℚ) : Prop :=
  ∃ m e h, u = .finite .positive m e h ∧ (m * 2 ^ e : ℚ) = v

section Operations

variable {b : Binary} {u u' : UnpackedFloat} {v v' : ℚ} {m : ℕ} {e : ℤ}

theorem splits_exact (m : ℕ) (e : ℤ) :
    Splits (m * 2 ^ e / 2 ^ e) (.ofMantissaAndAccuracy m .exact) := by
  rw [mul_div_cancel_right₀ _ (Binary.two_zpow_pos e).ne']
  exact splits_ofMantissaAndAccuracy (sub_self (m : ℚ))

theorem Binary.holds_signed (hb : b.mantissa ≠ 0) : Holds (b.signed false) b.value :=
  ⟨b.mantissa, b.exponent, Nat.pos_of_ne_zero hb, signed_of_ne_zero hb false, rfl⟩

theorem round_of_covers (hb : b.IsDouble) (hm : m ≠ 0) (hv : b.Covers (m * 2 ^ e)) :
    UnpackedFloat.round .binary64 .positive m e = b.signed false := by
  unfold UnpackedFloat.round decreaseExponent
  dsimp only
  rw [Nat.shiftLeft_eq]
  have hlog := log2_mul_two_pow (Nat.pos_of_ne_zero hm)
    (e - Format.binary64.targetExponent (totalExponent m e)).toNat
  have htarget := targetExponent_eq m e
  set k := (e - Format.binary64.targetExponent (totalExponent m e)).toNat
  have hvalue : ((m * 2 ^ k : ℕ) * 2 ^ (e - k) : ℚ) = m * 2 ^ e := by
    push_cast
    rw [mul_assoc, ← zpow_natCast, ← zpow_add₀ two_ne_zero, add_sub_cancel]
  rw [← hvalue] at hv
  refine roundWithAccuracy_of_covers hb hv (splits_exact _ _) ?_ false
  rw [targetExponent_eq, hlog]
  omega

/-- A product is rounded correctly if one of its factors has 53 bits. -/
theorem mul_of_covers (hb : b.IsDouble) (hm : 0 < m) (hwide : 4503599627370496 ≤ m)
    (hu : Holds u v) (hv : b.Covers (m * 2 ^ e * v)) :
    mul .binary64 (.finite .positive m e hm) u = b.signed false := by
  obtain ⟨m', e', hm', rfl, rfl⟩ := hu
  have hvalue : (m * 2 ^ e * (m' * 2 ^ e') : ℚ) = (m * m' : ℕ) * 2 ^ (e + e') := by
    push_cast
    rw [zpow_add₀ two_ne_zero]
    ring
  have hlog : 52 ≤ (m * m').log2 :=
    (Nat.le_log2 (Nat.mul_pos hm hm').ne').mpr (hwide.trans (Nat.le_mul_of_pos_right m hm'))
  rw [hvalue] at hv
  refine roundWithAccuracy_of_covers hb hv (splits_exact _ _) ?_ false
  rw [targetExponent_eq]
  omega

theorem div_of_covers (hb : b.IsDouble) (hu : Holds u v) (hu' : Holds u' v')
    (hv : b.Covers (v / v')) : div .binary64 u u' = b.signed false := by
  obtain ⟨m, e, hm, rfl, rfl⟩ := hu
  obtain ⟨m', e', hm', rfl, rfl⟩ := hu'
  unfold div divCore
  dsimp only
  set t := min (e - e')
    (Format.binary64.targetExponent (totalExponent m e - totalExponent m' e')) with ht
  set k := (e - e' - t).toNat with hk
  rw [Nat.shiftLeft_eq]
  have hden : (m' : ℚ) ≠ 0 := by exact_mod_cast hm'.ne'
  have hquotient : (m * 2 ^ e / (m' * 2 ^ e') / 2 ^ t : ℚ) = (m * 2 ^ k : ℕ) / m' := by
    have hsplit : e = k + t + e' := by omega
    push_cast
    rw [hsplit, zpow_add₀ two_ne_zero, zpow_add₀ two_ne_zero, zpow_natCast]
    field_simp
  have hrest : (m * 2 ^ e / (m' * 2 ^ e') / 2 ^ t : ℚ) - (m * 2 ^ k / m' : ℕ) =
      (m * 2 ^ k % m' : ℕ) / m' := by
    rw [hquotient, sub_eq_iff_eq_add, eq_comm, div_add' _ _ _ hden]
    congr 1
    exact_mod_cast Nat.mod_add_div' _ _
  have hsplits : Splits (m * 2 ^ e / (m' * 2 ^ e') / 2 ^ t)
      (.ofMantissaAndAccuracy (m * 2 ^ k / m') (accuracyOfFraction (m * 2 ^ k % m') m')) := by
    refine splits_ofMantissaAndAccuracy ?_
    rw [hrest]
    exact describes_accuracyOfFraction (Nat.mod_lt _ hm')
  refine roundWithAccuracy_of_covers hb hv hsplits ?_ false
  -- the quotient has at least as many bits as the difference of the sizes
  have hlow := (splits_exact m e).lt_totalExponent.2 hm.ne'
  have hhigh := (splits_exact m' e').lt_totalExponent.1
  have hsize : totalExponent m e - totalExponent m' e' - 1 < totalExponent (m * 2 ^ k / m') t := by
    refine (zpow_lt_zpow_iff_right₀ (one_lt_two (α := ℚ))).mp
      (lt_of_le_of_lt ?_ hsplits.lt_totalExponent.1)
    rw [sub_right_comm, zpow_sub₀ two_ne_zero]
    exact div_le_div₀ (by positivity) hlow (by positivity) hhigh.le
  have htarget (s : ℤ) : Format.binary64.targetExponent s = max (s - 53) (-1074) := rfl
  rw [htarget] at ht ⊢
  omega

end Operations

section Packed

variable {b : Binary}

def Binary.fields (b : Binary) : ℕ := (b.exponent + 1074).toNat * 4503599627370496 + b.mantissa

/-- The exponent field counts from one where the mantissa has its leading bit. -/
theorem Binary.fields_div (hb : b.IsDouble) : b.fields / 4503599627370496 =
    (b.exponent + 1074).toNat + if b.mantissa < 4503599627370496 then 0 else 1 := by
  have hlt := hb.mantissa_lt
  rw [fields]
  split_ifs <;> omega

theorem Binary.fields_lt (hb : b.IsDouble) (hmax : b.exponent ≤ 971) :
    b.fields < 9218868437227405312 := by
  have hlt := hb.mantissa_lt
  rw [fields]
  omega

theorem Binary.ofBits_fields (hb : b.IsDouble) (hmax : b.exponent ≤ 971) :
    ofBits (UInt64.ofNat b.fields) = b := by
  have hlt := hb.mantissa_lt
  have hmin := hb.le_exponent
  have hnormal := hb.normal
  have hnarrow := hb.narrow_iff
  have hdiv := fields_div hb
  have htoNat : (UInt64.ofNat b.fields).toNat = b.fields :=
    UInt64.toNat_ofNat_of_lt' ((fields_lt hb hmax).trans (by decide))
  have hmod : b.fields % 4503599627370496 = b.mantissa % 4503599627370496 :=
    Nat.mul_add_mod_self_right _ _ _
  unfold ofBits
  dsimp only
  rw [htoNat, hdiv, hmod]
  obtain ⟨m, e, narrow⟩ := b
  dsimp only at *
  by_cases hsub : m < 4503599627370496
  · have he : e = -1074 := by_contra fun he => absurd (hnormal he) hsub.not_ge
    have hwide : narrow = false := by
      by_contra h
      have := hnarrow.mp (Bool.eq_true_of_not_eq_false h)
      omega
    rw [if_pos hsub, if_pos (by omega), Nat.mod_eq_of_lt hsub, he, hwide]
  · rw [if_neg hsub, if_neg (by omega)]
    congr 1
    · omega
    · omega
    · rw [Bool.eq_iff_iff, hnarrow, Bool.and_eq_true, beq_iff_eq, decide_eq_true_iff]
      omega

/-- Every canonical magnitude up to the greatest exponent is that of a double. -/
theorem exists_double (hb : b.IsDouble) (hmax : b.exponent ≤ 971) :
    ∃ x : Float, x.isFinite = true ∧ isNegative x = false ∧ Binary.ofBits x.toBits = b := by
  have hlt := hb.mantissa_lt
  have hsmall := Binary.fields_lt hb hmax
  have htoNat : (UInt64.ofNat b.fields).toNat = b.fields :=
    UInt64.toNat_ofNat_of_lt' (hsmall.trans (by decide))
  have hspecial : @unpackExponent .binary64 (UInt64.ofNat b.fields).toBitVec ≠ -1#11 := fun h => by
    have hfield := congrArg BitVec.toNat h
    rw [toNat_unpackExponent] at hfield
    change (UInt64.ofNat b.fields).toNat / _ % _ = 2047 at hfield
    omega
  refine ⟨⟨⟨UInt64.ofNat b.fields, ⟨fun h => absurd h hspecial⟩⟩⟩, isFinite_unpack.mpr hspecial, ?_,
    Binary.ofBits_fields hb hmax⟩
  rw [isNegative, beq_eq_false_iff_ne]
  change (UInt64.ofNat b.fields).toNat / _ ≠ 1
  omega

theorem toModel_of_isFinite {x : Float} (h : x.isFinite = true) (hn : isNegative x = false) :
    x = ⟨Float.Model.pack ((Binary.ofBits x.toBits).signed false)⟩ := by
  have hlt := x.toBits.toNat_lt
  have hsign : x.toBits.toNat / 9223372036854775808 ≠ 1 := by simpa [isNegative] using hn
  refine eq_of_toBits (Eq.symm ?_)
  refine (toNat_pack_signed h false).trans ?_
  rw [if_neg Bool.false_ne_true]
  omega

/-- Packing keeps every magnitude that doubles reach. -/
theorem unpack_pack_signed (hb : b.IsDouble) (hmax : b.exponent ≤ 971) :
    (Float.Model.pack (b.signed false)).unpack = b.signed false := by
  obtain ⟨x, hx, hn, rfl⟩ := exists_double hb hmax
  have hunpack := unpack_of_isFinite hx
  rw [hn] at hunpack
  rw [← hunpack]
  conv_rhs => rw [toModel_of_isFinite hx hn]
  rw [hunpack]

end Packed

section Whole

variable {n : ℕ}

def Binary.whole (n : ℕ) : Binary :=
  ⟨n * 2 ^ (52 - n.log2), n.log2 - 52, decide (n * 2 ^ (52 - n.log2) = 4503599627370496)⟩

variable (hn : n ≠ 0) (hlt : n < 9007199254740992)
include hn hlt

theorem Binary.mantissa_whole :
    4503599627370496 ≤ (whole n).mantissa ∧ (whole n).mantissa < 9007199254740992 := by
  have hlog : n.log2 < 53 := (Nat.log2_lt hn).mpr hlt
  have hbits : (n * 2 ^ (52 - n.log2)).log2 = 52 := by
    rw [log2_mul_two_pow (Nat.pos_of_ne_zero hn)]
    omega
  exact (Nat.log2_eq_iff (Nat.mul_ne_zero hn (Nat.two_pow_pos _).ne')).mp hbits

theorem Binary.isDouble_whole : (whole n).IsDouble := by
  obtain ⟨hlow, hhigh⟩ := mantissa_whole hn hlt
  have hexponent : -1074 < (whole n).exponent := show (-1074 : ℤ) < n.log2 - 52 by omega
  exact ⟨⟨hhigh, hexponent.le, fun _ => hlow⟩,
    decide_eq_true_iff.trans (and_iff_left hexponent).symm⟩

theorem Binary.value_whole : (whole n).value = n := by
  have hlog : n.log2 < 53 := (Nat.log2_lt hn).mpr hlt
  have hexponent : (52 - n.log2 : ℕ) + ((n.log2 : ℤ) - 52) = 0 := by omega
  rw [value, whole]
  dsimp only
  push_cast
  rw [mul_assoc, ← zpow_natCast, ← zpow_add₀ two_ne_zero, hexponent, zpow_zero, mul_one]

theorem unpack_toFloat :
    n.toUInt64.toFloat.toModel.unpack = (Binary.whole n).signed false := by
  have hlog : n.log2 < 53 := (Nat.log2_lt hn).mpr hlt
  have htoNat : n.toUInt64.toNat = n := UInt64.toNat_ofNat_of_lt' (hlt.trans (by decide))
  have hround : UnpackedFloat.ofNat .binary64 n = (Binary.whole n).signed false := by
    unfold UnpackedFloat.ofNat UnpackedFloat.ofInt UnpackedFloat.normalize
    rw [compare_gt_iff_gt.mpr (Int.natCast_pos.mpr (Nat.pos_of_ne_zero hn))]
    refine round_of_covers (Binary.isDouble_whole hn hlt) hn ?_
    rw [zpow_zero, mul_one, Int.toNat_natCast, ← Binary.value_whole hn hlt]
    exact Binary.covers_value _
  change (Float.Model.pack (UnpackedFloat.ofNat .binary64 n.toUInt64.toNat)).unpack = _
  rw [htoNat, hround]
  exact unpack_pack_signed (Binary.isDouble_whole hn hlt) (show (n.log2 : ℤ) - 52 ≤ 971 by omega)

end Whole

/-- The powers of ten up to the twenty-second are doubles. -/
theorem exactlyRepresentablePowersOfTen_spec : ∀ e : Fin 23,
    (Float.exactlyRepresentablePowersOfTen[e]).isFinite = true ∧
      isNegative Float.exactlyRepresentablePowersOfTen[e] = false ∧
      (Binary.ofBits (Float.exactlyRepresentablePowersOfTen[e]).toBits).numerator =
        10 ^ e.val *
          (Binary.ofBits (Float.exactlyRepresentablePowersOfTen[e]).toBits).denominator := by
  decide +kernel

theorem holds_powerOfTen (e : Fin 23) :
    Holds (Float.exactlyRepresentablePowersOfTen[e]).toModel.unpack (10 ^ e.val) := by
  obtain ⟨hfinite, hsign, hnumerator⟩ := exactlyRepresentablePowersOfTen_spec e
  generalize Float.exactlyRepresentablePowersOfTen[e] = x at *
  have hden : ((Binary.ofBits x.toBits).denominator : ℚ) ≠ 0 := by
    exact_mod_cast (Binary.denominator_pos _).ne'
  have hvalue : (Binary.ofBits x.toBits).value = 10 ^ e.val := by
    rw [Binary.value_eq_div, hnumerator]
    push_cast
    rw [mul_div_cancel_right₀ _ hden]
  have hne : (Binary.ofBits x.toBits).mantissa ≠ 0 := fun h => by
    rw [Binary.value_of_mantissa_eq_zero h] at hvalue
    exact absurd hvalue.symm (by positivity)
  rw [unpack_of_isFinite hfinite, hsign, ← hvalue]
  exact Binary.holds_signed hne

theorem holds_natCast {n : ℕ} (hn : 0 < n) : Holds (.finite .positive n 0 hn) n :=
  ⟨_, _, _, rfl, by rw [zpow_zero, mul_one]⟩

section Scientific

variable {digits : ℕ} {power : ℤ} (hd : digits ≠ 0)
include hd

/-- A decimal is read as the magnitude that covers it, from its digits and a power of ten. -/
theorem ofScientific_of_covers {b : Binary} (hb : b.IsDouble)
    (hmin : -(2048 + digits.log2) ≤ power) (hmax : power ≤ 2048)
    (hv : b.Covers (digits * 10 ^ power)) :
    UnpackedFloat.ofScientific .binary64 digits power = b.signed false := by
  have hlimit : (2 : ℤ) ^ Format.binary64.exponentBits = 2048 := rfl
  unfold UnpackedFloat.ofScientific
  rw [hlimit, dif_neg hd, if_neg (not_lt.mpr hmax), if_neg (not_lt.mpr hmin)]
  by_cases hsign : 0 ≤ power
  · rw [if_pos hsign]
    lift power to ℕ using hsign
    have hwide : 4503599627370496 ≤ digits <<< 53 := by
      rw [Nat.shiftLeft_eq]
      have hpos := Nat.pos_of_ne_zero hd
      omega
    have hvalue : (digits * 10 ^ (power : ℤ) : ℚ) =
        (digits <<< 53 : ℕ) * 2 ^ (-53 : ℤ) * (10 ^ power : ℕ) := by
      rw [Nat.shiftLeft_eq, zpow_natCast]
      push_cast
      norm_num
      ring
    rw [hvalue] at hv
    exact mul_of_covers hb _ hwide (holds_natCast _) hv
  · rw [if_neg hsign]
    obtain ⟨k, rfl⟩ : ∃ k : ℕ, power = -k := ⟨(-power).toNat, by omega⟩
    refine div_of_covers hb (holds_natCast _) (holds_natCast _) ?_
    rw [neg_neg, Int.toNat_natCast]
    push_cast
    rwa [zpow_neg, zpow_natCast, ← div_eq_mul_inv] at hv

variable {x : Float} (hx : x.isFinite = true) (hsign : isNegative x = false)
include hx hsign

/-- The shortcut for few digits and small powers of ten is exact. -/
theorem ofScientific_fast (hlt : digits < 9007199254740992) (e : Fin 23) :
    ((Binary.ofBits x.toBits).Covers (digits * 10 ^ e.val) →
        digits.toUInt64.toFloat * Float.exactlyRepresentablePowersOfTen[e] = x) ∧
      ((Binary.ofBits x.toBits).Covers (digits / 10 ^ e.val) →
        digits.toUInt64.toFloat / Float.exactlyRepresentablePowersOfTen[e] = x) := by
  have hb := Binary.isDouble_ofBits x.toBits
  have hlow := (Binary.mantissa_whole hd hlt).1
  have hpower := holds_powerOfTen e
  have hdigits := unpack_toFloat hd hlt
  have hvalue := Binary.value_whole hd hlt
  have hne : (Binary.whole digits).mantissa ≠ 0 := by omega
  rw [← hvalue]
  constructor
  · intro hv
    refine Eq.trans (congrArg (Float.ofModel ∘ Float.Model.pack) ?_)
      (toModel_of_isFinite hx hsign).symm
    rw [hdigits, Binary.signed_of_ne_zero hne]
    exact mul_of_covers hb _ hlow hpower hv
  · intro hv
    refine Eq.trans (congrArg (Float.ofModel ∘ Float.Model.pack) ?_)
      (toModel_of_isFinite hx hsign).symm
    rw [hdigits]
    exact div_of_covers hb (Binary.holds_signed hne) hpower hv

/-- Decimals are read as the double that covers them. -/
theorem float_ofScientific_of_covers (hmin : -(2048 + digits.log2) ≤ power) (hmax : power ≤ 2048)
    (hv : (Binary.ofBits x.toBits).Covers (digits * 10 ^ power)) :
    Float.ofScientific digits (decide (power < 0)) power.natAbs = x := by
  have hslow : Float.ofModel (Float.Model.ofScientific digits power) = x :=
    (congrArg (Float.ofModel ∘ Float.Model.pack) (ofScientific_of_covers hd
      (Binary.isDouble_ofBits x.toBits) hmin hmax hv)).trans (toModel_of_isFinite hx hsign).symm
  unfold Float.ofScientific
  by_cases hfast : digits < 2 ^ 53 ∧ power.natAbs ≤ 22
  · obtain ⟨hmul, hdiv⟩ := ofScientific_fast hd hx hsign hfast.1 ⟨power.natAbs, by omega⟩
    rw [dif_pos hfast]
    rcases lt_or_ge power 0 with hneg | hpos
    · rw [if_pos (decide_eq_true hneg)]
      refine hdiv ?_
      rwa [← zpow_natCast, Int.ofNat_natAbs_of_nonpos hneg.le, zpow_neg, div_inv_eq_mul]
    · rw [if_neg (not_lt.mpr hpos ∘ of_decide_eq_true)]
      refine hmul ?_
      rwa [← zpow_natCast, Int.natAbs_of_nonneg hpos]
  · rw [dif_neg hfast]
    rcases lt_or_ge power 0 with hneg | hpos
    · rwa [if_pos (decide_eq_true hneg), Int.negOfNat_eq, Int.ofNat_eq_natCast,
        Int.ofNat_natAbs_of_nonpos hneg.le, neg_neg]
    · rwa [if_neg (not_lt.mpr hpos ∘ of_decide_eq_true), Int.ofNat_eq_natCast,
        Int.natAbs_of_nonneg hpos]

end Scientific

end Interchange.Number
