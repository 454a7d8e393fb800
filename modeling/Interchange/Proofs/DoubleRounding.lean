import Mathlib.Algebra.Order.Field.Basic
import Mathlib.Tactic.Linarith
import Mathlib.Tactic.NormNum
import Interchange.Proofs.DoubleValue

namespace Interchange.Number
open Float.Model (Format UnpackedFloat totalExponent)
open Float.Model.UnpackedFloat

/-- What an accuracy says about the part of a number after the point. -/
def Describes : Accuracy → ℚ → Prop
  | .exact, rest => rest = 0
  | .inexact .lt, rest => 0 < rest ∧ rest < 1 / 2
  | .inexact .eq, rest => rest = 1 / 2
  | .inexact .gt, rest => 1 / 2 < rest ∧ rest < 1

/-- A number by its part before the point and what is known about the part after it. -/
def Splits (x : ℚ) (em : ExtendedMantissa) : Prop := Describes em.accuracy (x - em.mantissa)

/-- The nearest whole number, of two equally near ones the even one. -/
def Nearest (x : ℚ) (n : ℕ) : Prop := |x - n| < 1 / 2 ∨ |x - n| = 1 / 2 ∧ n % 2 = 0

section Mantissa

variable {x : ℚ} {em : ExtendedMantissa}

theorem splits_ofMantissaAndAccuracy {m : ℕ} {a : Accuracy} (h : Describes a (x - m)) :
    Splits x (.ofMantissaAndAccuracy m a) := by
  cases a with
  | exact => exact h
  | inexact o => cases o <;> exact h

theorem describes_accuracyOfFraction {num den : ℕ} (hlt : num < den) :
    Describes (accuracyOfFraction num den) (num / den) := by
  have hden : (0 : ℚ) < den := by exact_mod_cast Nat.zero_lt_of_lt hlt
  unfold accuracyOfFraction
  split_ifs with hzero
  · rw [hzero]
    exact (congrArg (· / (den : ℚ)) Nat.cast_zero).trans (zero_div _)
  · have hpos : (0 : ℚ) < num := by exact_mod_cast Nat.pos_of_ne_zero hzero
    rcases lt_trichotomy (2 * num) den with h | h | h
    · rw [compare_lt_iff_lt.mpr h]
      have h : (2 * num : ℚ) < den := by exact_mod_cast h
      refine ⟨div_pos hpos hden, ?_⟩
      rw [div_lt_iff₀ hden]
      linarith
    · rw [compare_eq_iff_eq.mpr h]
      have h : (2 * num : ℚ) = den := by exact_mod_cast h
      change (num : ℚ) / den = 1 / 2
      rw [div_eq_iff hden.ne']
      linarith
    · rw [compare_gt_iff_gt.mpr h]
      have h : (den : ℚ) < 2 * num := by exact_mod_cast h
      have hlt : (num : ℚ) < den := by exact_mod_cast hlt
      refine ⟨?_, (div_lt_one hden).mpr hlt⟩
      rw [lt_div_iff₀ hden]
      linarith

theorem Splits.rest_cases (h : Splits x em) :
    (em.roundBit || em.stickyBit) = false ∧ x - em.mantissa = 0 ∨
      (em.roundBit || em.stickyBit) = true ∧ 0 < x - em.mantissa ∧ x - em.mantissa < 1 := by
  obtain ⟨m, r, s⟩ := em
  cases r <;> cases s
  · exact .inl ⟨rfl, h⟩
  · exact .inr ⟨rfl, h.1, h.2.trans (by norm_num)⟩
  · have hhalf : x - m = 1 / 2 := h
    refine .inr ⟨rfl, ?_⟩
    rw [hhalf]
    norm_num
  · exact .inr ⟨rfl, (by norm_num : (0 : ℚ) < 1 / 2).trans h.1, h.2⟩

theorem Splits.shiftRightOne (h : Splits x em) : Splits (x / 2) em.shiftRightOne := by
  have hcases := h.rest_cases
  obtain ⟨m, r, s⟩ := em
  dsimp only at hcases
  have hmantissa : (m : ℚ) = 2 * (m / 2 : ℕ) + (m % 2 : ℕ) := by
    exact_mod_cast (Nat.div_add_mod m 2).symm
  have hrest : x / 2 - (m / 2 : ℕ) = ((m % 2 : ℕ) + (x - m)) / 2 := by
    rw [hmantissa]
    ring
  change Describes (ExtendedMantissa.accuracy ⟨m / 2, m % 2 != 0, r || s⟩) (x / 2 - (m / 2 : ℕ))
  rw [hrest]
  rcases Nat.mod_two_eq_zero_or_one m with hm | hm <;> rw [hm]
  · rcases hcases with ⟨hbits, hzero⟩ | ⟨hbits, hpos, hlt⟩ <;> rw [hbits]
    · exact show _ = (0 : ℚ) by rw [hzero]; norm_num
    · exact show _ ∧ _ by push_cast; constructor <;> linarith
  · rcases hcases with ⟨hbits, hzero⟩ | ⟨hbits, hpos, hlt⟩ <;> rw [hbits]
    · exact show _ = (1 / 2 : ℚ) by rw [hzero]; norm_num
    · exact show _ ∧ _ by push_cast; constructor <;> linarith

theorem Splits.shiftRight (h : Splits x em) (k : ℕ) : Splits (x / 2 ^ k) (em >>> k) := by
  induction k with
  | zero =>
    rw [pow_zero, div_one]
    exact h
  | succ k ih =>
    rw [pow_succ, ← div_div]
    exact ih.shiftRightOne

theorem Splits.roundedMantissa (h : Splits x em) {n : ℕ} (hn : Nearest x n) :
    em.roundedMantissa = n := by
  obtain ⟨m, r, s⟩ := em
  change Describes (ExtendedMantissa.accuracy ⟨m, r, s⟩) (x - m) at h
  have hle : |x - n| ≤ 1 / 2 := hn.elim le_of_lt fun h => h.1.le
  obtain ⟨hlow, hhigh⟩ := abs_le.mp hle
  have hbetween {a b : ℕ} (h : (a : ℚ) < b + 1) : a ≤ b :=
    Nat.lt_succ_iff.mp (by exact_mod_cast h)
  cases r with
  | false =>
    have hrest : 0 ≤ x - m ∧ x - m < 1 / 2 := by
      cases s with
      | false => exact ⟨h.ge, h.trans_lt (by norm_num)⟩
      | true => exact ⟨h.1.le, h.2⟩
    have hm : m = n := le_antisymm (hbetween (by linarith)) (hbetween (by linarith))
    cases s <;> exact hm
  | true =>
    cases s with
    | true =>
      change m + 1 = n
      obtain ⟨hhalf, hone⟩ : 1 / 2 < x - m ∧ x - m < 1 := h
      have hle : n ≤ m + 1 := hbetween (by push_cast; linarith)
      have hlt : m < n := by
        have : (m : ℚ) < n := by linarith
        exact_mod_cast this
      omega
    | false =>
      -- halfway between two whole numbers
      change m + m % 2 = n
      have hhalf : x - m = 1 / 2 := h
      have hge : m ≤ n := hbetween (by linarith)
      have hle : n ≤ m + 1 := hbetween (by push_cast; linarith)
      have heven : n % 2 = 0 := by
        rcases hn with hn | hn
        · rcases Nat.eq_or_lt_of_le hge with rfl | hlt
          · rw [hhalf] at hn
            norm_num at hn
          · obtain rfl : n = m + 1 := by omega
            push_cast at hn
            rw [← sub_sub, hhalf] at hn
            norm_num at hn
        · exact hn.2
      omega

end Mantissa

namespace Binary

/-- A magnitude as a double has it. The gap below is narrow at the powers of two save the least. -/
structure IsDouble (b : Binary) : Prop extends Canonical b where
  narrow_iff : b.narrowBelow = true ↔ b.mantissa = 4503599627370496 ∧ -1074 < b.exponent

theorem isDouble_ofBits (bits : UInt64) : (ofBits bits).IsDouble := by
  refine ⟨canonical_ofBits bits, ?_⟩
  have hfraction : bits.toNat % 4503599627370496 < 4503599627370496 := Nat.mod_lt _ (by decide)
  unfold ofBits
  dsimp only
  generalize bits.toNat / 4503599627370496 % 2048 = field
  generalize bits.toNat % 4503599627370496 = fraction at hfraction
  split_ifs
  · exact iff_of_false not_false fun h => hfraction.ne h.1
  · rw [Bool.and_eq_true, beq_iff_eq, decide_eq_true_iff]
    dsimp only
    omega

/-- The distance to the midpoint below, in units of the exponent. -/
def gap (b : Binary) : ℚ := if b.narrowBelow then 1 / 4 else 1 / 2

/-- The numbers that round to a magnitude: all between the midpoints to its neighbours, and these as
well if its mantissa is even. -/
def Covers (b : Binary) (v : ℚ) : Prop :=
  if b.mantissa % 2 = 0 then
    (b.mantissa - b.gap) * 2 ^ b.exponent ≤ v ∧ v ≤ (b.mantissa + 1 / 2) * 2 ^ b.exponent
  else (b.mantissa - b.gap) * 2 ^ b.exponent < v ∧ v < (b.mantissa + 1 / 2) * 2 ^ b.exponent

variable {b : Binary} {v : ℚ}

theorem two_zpow_pos (e : ℤ) : (0 : ℚ) < 2 ^ e := zpow_pos two_pos e

theorem gap_le (b : Binary) : b.gap ≤ 1 / 2 := by
  unfold gap
  split_ifs <;> norm_num

theorem gap_pos (b : Binary) : 0 < b.gap := by
  unfold gap
  split_ifs <;> norm_num

theorem Covers.le (h : b.Covers v) : (b.mantissa - b.gap) * 2 ^ b.exponent ≤ v ∧
    v ≤ (b.mantissa + 1 / 2) * 2 ^ b.exponent := by
  unfold Covers at h
  split_ifs at h
  · exact h
  · exact ⟨h.1.le, h.2.le⟩

theorem covers_value (b : Binary) : b.Covers b.value := by
  have hpos := two_zpow_pos b.exponent
  have hgap := b.gap_pos
  have hlow : (b.mantissa - b.gap) * 2 ^ b.exponent < b.value :=
    mul_lt_mul_of_pos_right (by linarith) hpos
  have hhigh : b.value < (b.mantissa + 1 / 2) * 2 ^ b.exponent :=
    mul_lt_mul_of_pos_right (by linarith) hpos
  unfold Covers
  split_ifs
  · exact ⟨hlow.le, hhigh.le⟩
  · exact ⟨hlow, hhigh⟩

theorem Covers.pos (h : b.Covers v) (hne : b.mantissa ≠ 0) : 0 < v := by
  have hone : (1 : ℚ) ≤ b.mantissa := by exact_mod_cast Nat.pos_of_ne_zero hne
  have hgap := b.gap_le
  exact (mul_pos (by linarith) (two_zpow_pos b.exponent)).trans_le h.le.1

/-- Seen at the exponent of the magnitude, what it covers is nearest to its mantissa. -/
theorem Covers.nearest (h : b.Covers v) : Nearest (v / 2 ^ b.exponent) b.mantissa := by
  have hpos := two_zpow_pos b.exponent
  have hgap := b.gap_le
  obtain ⟨hlow, hhigh⟩ := h.le
  rw [← le_div_iff₀ hpos] at hlow
  rw [← div_le_iff₀ hpos] at hhigh
  have habs : |v / 2 ^ b.exponent - b.mantissa| ≤ 1 / 2 := abs_le.mpr ⟨by linarith, by linarith⟩
  rcases habs.lt_or_eq with hlt | heq
  · exact .inl hlt
  · refine .inr ⟨heq, ?_⟩
    by_contra hodd
    rw [Covers, if_neg hodd, ← lt_div_iff₀ hpos, ← div_lt_iff₀ hpos] at h
    rcases (abs_eq (by norm_num)).mp heq with heq | heq <;> linarith [h.1, h.2]

/-- Seen one exponent lower, what a power of two covers below itself is nearest to its double. -/
theorem Covers.nearest_below (h : b.Covers v) (hnarrow : b.narrowBelow = true)
    (hlt : v < b.mantissa * 2 ^ b.exponent) :
    Nearest (v / 2 ^ (b.exponent - 1)) (2 * b.mantissa) := by
  have hpos := two_zpow_pos (b.exponent - 1)
  have hdouble : (2 : ℚ) ^ b.exponent = 2 * 2 ^ (b.exponent - 1) := by
    rw [← zpow_one_add₀ two_ne_zero, add_sub_cancel]
  have hlow := h.le.1
  rw [gap, if_pos hnarrow] at hlow
  rw [hdouble, ← mul_assoc, ← le_div_iff₀ hpos] at hlow
  rw [hdouble, ← mul_assoc, ← div_lt_iff₀ hpos] at hlt
  have habs : |v / 2 ^ (b.exponent - 1) - (2 * b.mantissa : ℕ)| ≤ 1 / 2 := by
    push_cast
    exact abs_le.mpr ⟨by linarith, by linarith⟩
  exact habs.lt_or_eq.imp id fun heq => ⟨heq, Nat.mul_mod_right 2 _⟩

end Binary

section Rounding

variable {b : Binary} {v : ℚ} {m : ℕ} {e : ℤ} {a : Accuracy}

theorem targetExponent_eq (m : ℕ) (e : ℤ) :
    Format.binary64.targetExponent (totalExponent m e) = max (m.log2 + 1 + e - 53) (-1074) := rfl

theorem Splits.bounds (h : Splits (v / 2 ^ e) (.ofMantissaAndAccuracy m a)) :
    m * 2 ^ e ≤ v ∧ v < (m + 1) * 2 ^ e := by
  have hpos := Binary.two_zpow_pos e
  have hcases := h.rest_cases
  rw [mantissa_ofMantissaAndAccuracy] at hcases
  rw [← le_div_iff₀ hpos, ← div_lt_iff₀ hpos]
  rcases hcases with ⟨-, hzero⟩ | ⟨-, hpos, hlt⟩ <;> constructor <;> linarith

/-- A number lies below the power of two at its total exponent, and not below half of it. -/
theorem Splits.lt_totalExponent (h : Splits (v / 2 ^ e) (.ofMantissaAndAccuracy m a)) :
    v < 2 ^ totalExponent m e ∧ (m ≠ 0 → 2 ^ (totalExponent m e - 1) ≤ v) := by
  have hpos := Binary.two_zpow_pos e
  obtain ⟨hlow, hhigh⟩ := h.bounds
  constructor
  · refine hhigh.trans_le ?_
    rw [totalExponent, zpow_add₀ two_ne_zero]
    have hlog : (m + 1 : ℚ) ≤ 2 ^ ((m.log2 : ℤ) + 1) := by
      exact_mod_cast Nat.lt_log2_self (n := m)
    exact mul_le_mul_of_nonneg_right hlog hpos.le
  · intro hm
    refine le_trans ?_ hlow
    rw [totalExponent, show (m.log2 : ℤ) + 1 + e - 1 = m.log2 + e by ring, zpow_add₀ two_ne_zero]
    have hlog : (2 : ℚ) ^ (m.log2 : ℤ) ≤ m := by
      exact_mod_cast Nat.log2_self_le hm
    exact mul_le_mul_of_nonneg_right hlog hpos.le

/-- A number that a magnitude covers is rounded at its exponent, or at the next lower one if it lies
below a power of two. -/
theorem target_of_covers (hb : b.IsDouble) (hv : b.Covers v)
    (hsplit : Splits (v / 2 ^ e) (.ofMantissaAndAccuracy m a))
    (he : e ≤ Format.binary64.targetExponent (totalExponent m e)) :
    Format.binary64.targetExponent (totalExponent m e) = b.exponent ∨
      Format.binary64.targetExponent (totalExponent m e) = b.exponent - 1 ∧
        b.narrowBelow = true ∧ v < b.mantissa * 2 ^ b.exponent := by
  have hpos := Binary.two_zpow_pos b.exponent
  have hmin := hb.le_exponent
  have htarget : Format.binary64.targetExponent (totalExponent m e) =
      max (totalExponent m e - 53) (-1074) := rfl
  have hzero : m = 0 → totalExponent m e ≤ -1073 := by
    rintro rfl
    rw [targetExponent_eq, Nat.log2_zero] at he
    rw [totalExponent, Nat.log2_zero]
    omega
  obtain ⟨hlow, hhigh⟩ := hv.le
  obtain ⟨hlt, hle⟩ := hsplit.lt_totalExponent
  -- everything is compared with powers of two in units of the exponent
  rw [← le_div_iff₀ hpos] at hlow
  rw [← div_le_iff₀ hpos] at hhigh
  rw [← div_lt_iff₀ hpos]
  have habove {k : ℤ} (h : (2 : ℚ) ^ k ≤ v / 2 ^ b.exponent) :
      k + b.exponent < totalExponent m e := by
    rw [le_div_iff₀ hpos, ← zpow_add₀ two_ne_zero] at h
    exact (zpow_lt_zpow_iff_right₀ one_lt_two).mp (h.trans_lt hlt)
  have hbelow {k : ℤ} (h : v / 2 ^ b.exponent < (2 : ℚ) ^ k) (hm : m ≠ 0) :
      totalExponent m e ≤ k + b.exponent := by
    rw [div_lt_iff₀ hpos, ← zpow_add₀ two_ne_zero] at h
    have hlog := (zpow_lt_zpow_iff_right₀ one_lt_two).mp ((hle hm).trans_lt h)
    omega
  have hupper : totalExponent m e ≤ 53 + b.exponent := by
    by_cases hm : m = 0
    · exact (hzero hm).trans (by omega)
    · have hmantissa : (b.mantissa : ℚ) + 1 ≤ 9007199254740992 := by exact_mod_cast hb.mantissa_lt
      refine hbelow ?_ hm
      norm_num
      linarith
  by_cases hleast : b.exponent = -1074
  · exact .inl (by omega)
  have hnormal : (4503599627370496 : ℚ) ≤ b.mantissa := by exact_mod_cast hb.normal hleast
  by_cases hpower : 4503599627370496 ≤ v / 2 ^ b.exponent
  · have hlog := habove (k := 52) (le_of_eq_of_le (by norm_num) hpower)
    exact .inl (by omega)
  -- below the power of two, which has to be the magnitude itself
  rw [not_le] at hpower
  have hgap := b.gap_le
  have hnarrow : b.narrowBelow = true := by
    by_contra hwide
    have hne : b.mantissa ≠ 4503599627370496 := fun heq =>
      hwide (hb.narrow_iff.mpr ⟨heq, by omega⟩)
    have hmantissa : (4503599627370496 : ℚ) + 1 ≤ b.mantissa := by
      exact_mod_cast Nat.lt_of_le_of_ne (hb.normal hleast) hne.symm
    linarith
  have hlog := habove (k := 51) (le_of_eq_of_le (by norm_num : _ = (2251799813685248 : ℚ))
    (by linarith))
  have hm : m ≠ 0 := fun hm => by have := hzero hm; omega
  have hlog' := hbelow (k := 52) (hpower.trans_eq (by norm_num)) hm
  exact .inr ⟨by omega, hnarrow, hpower.trans_le hnormal⟩

theorem shiftToTargetExponent_of_le {t : ℤ}
    (ht : Format.binary64.targetExponent (totalExponent m e) = t) (he : e ≤ t) :
    shiftToTargetExponent .binary64 m e a =
      (ExtendedMantissa.ofMantissaAndAccuracy m a >>> (t - e).toNat, t) := by
  subst ht
  exact Prod.ext rfl (show e + ((_ : ℕ) : ℤ) = _ by omega)

/-- The second shift changes nothing where the rounded mantissa fits. -/
theorem shiftToTargetExponent_mantissa (hb : b.IsDouble) :
    shiftToTargetExponent .binary64 b.mantissa b.exponent .exact =
      (⟨b.mantissa, false, false⟩, b.exponent) := by
  have hmin := hb.le_exponent
  have hlog : b.mantissa.log2 ≤ 52 := by
    by_cases hzero : b.mantissa = 0
    · rw [hzero, Nat.log2_zero]
      exact Nat.zero_le _
    · exact Nat.lt_succ_iff.mp ((Nat.log2_lt hzero).mpr hb.mantissa_lt)
  have hnormal : b.exponent ≠ -1074 → 52 ≤ b.mantissa.log2 := fun h =>
    (Nat.le_log2 (by have := hb.normal h; omega)).mpr (hb.normal h)
  have htarget : Format.binary64.targetExponent (totalExponent b.mantissa b.exponent) =
      b.exponent := by
    rw [targetExponent_eq]
    omega
  rw [shiftToTargetExponent_of_le htarget le_rfl, sub_self]
  rfl

/-- The second shift halves a mantissa that rounding has carried to a power of two. -/
theorem shiftToTargetExponent_carried (hb : b.IsDouble) (hnarrow : b.narrowBelow = true) :
    shiftToTargetExponent .binary64 (2 * b.mantissa) (b.exponent - 1) .exact =
      (⟨b.mantissa, false, false⟩, b.exponent) := by
  obtain ⟨hmantissa, hexponent⟩ := hb.narrow_iff.mp hnarrow
  have hlog : Nat.log2 (2 * 4503599627370496) = 53 := by decide +kernel
  have htarget : Format.binary64.targetExponent
      (totalExponent (2 * b.mantissa) (b.exponent - 1)) = b.exponent := by
    rw [targetExponent_eq, hmantissa, hlog]
    omega
  rw [shiftToTargetExponent_of_le htarget (by omega), sub_sub_cancel, hmantissa]
  rfl

/-- Whatever a magnitude covers is rounded to it, if enough of it is given. -/
theorem roundWithAccuracy_of_covers (hb : b.IsDouble) (hv : b.Covers v)
    (hsplit : Splits (v / 2 ^ e) (.ofMantissaAndAccuracy m a))
    (he : e ≤ Format.binary64.targetExponent (totalExponent m e)) (negative : Bool) :
    roundWithAccuracy .binary64 (signOf negative) m e a = b.signed negative := by
  have hfirst := hsplit.shiftRight
    (Format.binary64.targetExponent (totalExponent m e) - e).toNat
  rw [div_div, ← zpow_natCast, ← zpow_add₀ two_ne_zero, Int.toNat_of_nonneg (by omega),
    add_sub_cancel] at hfirst
  unfold roundWithAccuracy
  rw [shiftToTargetExponent_of_le rfl he]
  dsimp only
  rcases target_of_covers hb hv hsplit he with htarget | ⟨htarget, hnarrow, hlt⟩
  · rw [htarget] at hfirst ⊢
    rw [hfirst.roundedMantissa hv.nearest, shiftToTargetExponent_mantissa hb]
    rfl
  · rw [htarget] at hfirst ⊢
    rw [hfirst.roundedMantissa (hv.nearest_below hnarrow hlt),
      shiftToTargetExponent_carried hb hnarrow]
    rfl

end Rounding

end Interchange.Number
