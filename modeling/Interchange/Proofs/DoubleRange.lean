import Mathlib.Algebra.Group.Nat.Defs
import Mathlib.Data.Nat.Log
import Mathlib.Tactic.Set
import Mathlib.Tactic.SplitIfs
import Interchange.Scalar.Double

namespace Interchange.Number
open Float.Model (Format UnpackedFloat totalExponent)
open Float.Model.UnpackedFloat

/-- A number that doubles reach: zero, or with a mantissa of 53 bits and an exponent of at most
971. -/
def InRange : UnpackedFloat → Prop
  | .zero _ => True
  | .finite _ m e _ => m < 2 ^ 53 ∧ e ≤ 971
  | _ => False

theorem inRange_of_lt {m : ℕ} {e : ℤ} {s s' : Sign} (hpos : ¬m = 0 → 0 < m) (hm : m < 2 ^ 53)
    (he : e ≤ 971) : InRange (if h : m = 0 then .zero s else .finite s' m e (hpos h)) := by
  by_cases hzero : m = 0
  · rw [dif_pos hzero]
    trivial
  · rw [dif_neg hzero]
    exact ⟨hm, he⟩

theorem isFinite_of_inRange {u : UnpackedFloat} (h : InRange u) : u.isFinite = true := by
  cases u with
  | infinity | notANumber => exact h.elim
  | zero | finite => rfl

theorem inRange_of_unpackExponent_ne {b : BitVec 64} (h : @unpackExponent .binary64 b ≠ -1#11) :
    InRange (unpack Format.binary64 b) := by
  have hlt : (@unpackExponent .binary64 b).toNat ≤ 2046 := by
    have hne : (@unpackExponent .binary64 b).toNat ≠ 2047 :=
      fun heq => h (BitVec.eq_of_toNat_eq heq)
    have hall : (@unpackExponent .binary64 b).toNat < 2048 := BitVec.isLt _
    omega
  unfold unpack
  dsimp only
  rw [if_neg h]
  by_cases hexponent : @unpackExponent .binary64 b = 0#11
  · rw [if_pos hexponent]
    by_cases hmantissa : @unpackMantissa .binary64 b = 0#52
    · rw [dif_pos hmantissa]
      trivial
    · rw [dif_neg hmantissa, hexponent]
      exact ⟨(BitVec.isLt _).trans (by decide), by decide⟩
  · rw [if_neg hexponent]
    refine ⟨BitVec.isLt _, ?_⟩
    change ((@unpackExponent .binary64 b).toNat : ℤ) - (1023 + 52) ≤ 971
    omega

theorem isFinite_unpack {b : BitVec 64} :
    (unpack Format.binary64 b).isFinite = true ↔ @unpackExponent .binary64 b ≠ -1#11 := by
  refine ⟨fun h hspecial => ?_, fun h => isFinite_of_inRange (inRange_of_unpackExponent_ne h)⟩
  unfold unpack at h
  dsimp only at h
  rw [if_pos hspecial] at h
  split_ifs at h <;> cases h

theorem inRange_unpack {b : BitVec 64} (h : (unpack Format.binary64 b).isFinite = true) :
    InRange (unpack Format.binary64 b) :=
  inRange_of_unpackExponent_ne (isFinite_unpack.mp h)

theorem isFinite_pack {u : UnpackedFloat} (h : InRange u) :
    (unpack Format.binary64 (pack Format.binary64 u)).isFinite = true := by
  rw [isFinite_unpack]
  cases u with
  | infinity | notANumber => exact h.elim
  | zero s =>
    unfold pack packedZero
    rw [unpackExponent_packComponents]
    decide
  | finite s m e hm =>
    have hbiased : (e + Format.binary64.exponentBias + (52 : ℕ)).toNat ≤ 2046 := by
      change (e + 1023 + 52).toNat ≤ 2046
      have he : e ≤ 971 := h.2
      omega
    unfold pack
    dsimp only
    generalize (e + Format.binary64.exponentBias + (52 : ℕ)).toNat = biased at hbiased
    rw [if_neg (Nat.not_le.mpr (Nat.succ_lt_succ (Nat.lt_succ_of_le hbiased)))]
    split_ifs
    · rw [unpackExponent_packComponents]
      intro heq
      have hmod : biased % 2048 = 2047 := congrArg BitVec.toNat heq
      omega
    · rw [unpackExponent_packComponents]
      decide

theorem mantissa_shiftRight (em : ExtendedMantissa) (k : ℕ) :
    (em >>> k).mantissa = em.mantissa / 2 ^ k := by
  induction k with
  | zero => exact (Nat.div_one _).symm
  | succ k ih =>
    change (em >>> k).mantissa / 2 = _
    rw [ih, Nat.div_div_eq_div_mul, Nat.pow_succ]

theorem mantissa_ofMantissaAndAccuracy (m : ℕ) (a : Accuracy) :
    (ExtendedMantissa.ofMantissaAndAccuracy m a).mantissa = m := by
  cases a with
  | exact => rfl
  | inexact o => cases o <;> rfl

theorem roundedMantissa_le (em : ExtendedMantissa) : em.roundedMantissa ≤ em.mantissa + 1 := by
  obtain ⟨m, r, s⟩ := em
  cases r <;> cases s <;>
    simp only [ExtendedMantissa.roundedMantissa, ExtendedMantissa.accuracy,
      Accuracy.roundToNearestEven] <;> omega

theorem shifted_lt (m : ℕ) (e : ℤ) :
    m / 2 ^ (Format.binary64.targetExponent (totalExponent m e) - e).toNat < 2 ^ 53 := by
  refine Nat.div_lt_of_lt_mul (Nat.lt_log2_self.trans_le ?_)
  rw [← Nat.pow_add]
  refine Nat.pow_le_pow_right (by decide) ?_
  have htarget : Format.binary64.targetExponent (totalExponent m e) =
      max (m.log2 + 1 + e - 53) (-1074) := rfl
  omega

/-- Rounding may carry into the exponent, once. -/
theorem inRange_roundWithAccuracy (s : Sign) {m : ℕ} {e : ℤ} (a : Accuracy) (he : e ≤ 970)
    (ht : totalExponent m e ≤ 1023) : InRange (roundWithAccuracy Format.binary64 s m e a) := by
  unfold roundWithAccuracy
  dsimp only [shiftToTargetExponent, shiftToExponent]
  have hbits := shifted_lt m e
  have htarget : Format.binary64.targetExponent (totalExponent m e) =
      max (totalExponent m e - 53) (-1074) := rfl
  set k := (Format.binary64.targetExponent (totalExponent m e) - e).toNat
  set r := (ExtendedMantissa.ofMantissaAndAccuracy m a >>> k).roundedMantissa with hr
  have hlog : r.log2 ≤ 53 := by
    have hle := roundedMantissa_le (ExtendedMantissa.ofMantissaAndAccuracy m a >>> k)
    rw [mantissa_shiftRight, mantissa_ofMantissaAndAccuracy, ← hr] at hle
    by_cases hz : r = 0
    · simp [hz]
    · exact Nat.lt_succ_iff.mp ((Nat.log2_lt hz).mpr (by omega))
  have htarget' : Format.binary64.targetExponent (totalExponent r (e + k)) =
      max (r.log2 + 1 + (e + k) - 53) (-1074) := rfl
  refine inRange_of_lt _ ?_ (by omega)
  rw [mantissa_shiftRight, mantissa_ofMantissaAndAccuracy]
  exact shifted_lt r (e + k)

theorem log2_mul_two_pow {m : ℕ} (hm : 0 < m) (k : ℕ) : (m * 2 ^ k).log2 = m.log2 + k := by
  induction k with
  | zero => simp
  | succ k ih =>
    rw [Nat.pow_succ, ← Nat.mul_assoc, Nat.mul_comm _ 2,
      Nat.log2_two_mul (Nat.mul_ne_zero hm.ne' (Nat.two_pow_pos k).ne'), ih, Nat.add_assoc]

/-- Division by two, whose mantissa is `2 ^ 52` and whose exponent is -51. -/
theorem inRange_half {u : UnpackedFloat} (h : InRange u) :
    InRange (div Format.binary64 u (.finite .positive (2 ^ 52) (-51) (by decide))) := by
  cases u with
  | infinity | notANumber => exact h.elim
  | zero s => trivial
  | finite s m e hm =>
    obtain ⟨hlt, he⟩ := h
    have hlog : m.log2 ≤ 52 := Nat.lt_succ_iff.mp ((Nat.log2_lt hm.ne').mpr hlt)
    have htarget : Format.binary64.targetExponent
        (totalExponent m e - totalExponent (2 ^ 52) (-51)) =
        max (m.log2 + 1 + e - 2 - 53) (-1074) := by
      have htwo : totalExponent (2 ^ 52) (-51) = 2 := by decide
      rw [htwo]
      rfl
    unfold div divCore
    dsimp only
    rw [htarget]
    set t := min (e - -51) (max (m.log2 + 1 + e - 2 - 53) (-1074))
    set k := (e - -51 - t).toNat
    refine inRange_roundWithAccuracy _ _ (by omega) ?_
    rw [Nat.shiftLeft_eq, totalExponent]
    by_cases hz : m * 2 ^ k / 2 ^ 52 = 0
    · rw [hz, Nat.log2_zero]
      omega
    · -- the quotient has 52 bits less than the shifted mantissa
      have hquotient : (m * 2 ^ k / 2 ^ 52).log2 = m.log2 + k - 52 := by
        rw [Nat.log2_eq_log_two, Nat.log_div_base_pow, ← Nat.log2_eq_log_two, log2_mul_two_pow hm]
      omega

theorem isFinite_half {x : Float} (h : x.isFinite = true) :
    (x / (1.0 + 1.0)).isFinite = true := by
  have htwo : (1.0 + 1.0 : Float).toModel.unpack = .finite .positive (2 ^ 52) (-51) (by decide) :=
    rfl
  change (unpack Format.binary64 (pack Format.binary64
    (div Format.binary64 x.toModel.unpack (1.0 + 1.0 : Float).toModel.unpack))).isFinite = true
  rw [htwo]
  exact isFinite_pack (inRange_half (inRange_unpack h))

theorem isFinite_neg {x : Float} (h : x.isFinite = true) : (-x).isFinite = true := by
  change (unpack Format.binary64 (pack Format.binary64 (neg x.toModel.unpack))).isFinite = true
  have hrange : InRange x.toModel.unpack := inRange_unpack h
  refine isFinite_pack ?_
  generalize x.toModel.unpack = u at hrange
  cases u with
  | infinity | notANumber => exact hrange.elim
  | zero s => trivial
  | finite s m e hm => exact hrange

end Interchange.Number
