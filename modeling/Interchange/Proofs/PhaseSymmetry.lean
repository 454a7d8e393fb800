import Mathlib.Tactic.IntervalCases
import Interchange.Proofs.OperatorMatrix

noncomputable section
namespace Interchange.Operator

variable {a b : Operator ℝ}

/-- Without tolerance, operators are found equal if they differ by a phase and do not vanish. -/
theorem equalUpToPhase_zero_iff {n : ℕ} (ha : a.dim = 2 ^ n) (hb : b.dim = 2 ^ n) :
    equalUpToPhase 0 a b = true ↔
      b.toMatrix n ≠ 0 ∧ ∃ z : ℂ, ‖z‖ = 1 ∧ a.toMatrix n = z • b.toMatrix n := by
  have hpos : 0 < b.dim := hb ▸ Nat.two_pow_pos n
  constructor
  · intro h
    obtain ⟨hi, hj⟩ := largestEntry_lt hpos
    obtain ⟨z, hz, hall⟩ := exists_phase_of_equalUpToPhase one_pos h
      ⟨_, hi, _, hj, norm_nonneg _⟩
    refine ⟨fun hzero => ?_, z, hz, ?_⟩
    · rw [equalUpToPhase_eq_true_iff (ha.trans hb.symm) hpos rfl rfl,
        if_neg (not_lt.mpr (norm_nonneg _))] at h
      have hpivot := congrFun (congrFun hzero ⟨_, hb ▸ hi⟩) ⟨_, hb ▸ hj⟩
      have hratio := h.1
      rw [show (b.get b.largestEntry.1 b.largestEntry.2).toComplex = 0 from hpivot, div_zero,
        norm_zero, zero_sub, abs_neg, abs_one] at hratio
      linarith
    · funext i j
      have hentry := hall i (i.isLt.trans_eq hb.symm) j (j.isLt.trans_eq hb.symm)
      exact sub_eq_zero.mp (norm_le_zero_iff.mp hentry)
  · rintro ⟨hne, z, hz, hab⟩
    refine equalUpToPhase_of_smul le_rfl (ha.trans hb.symm) hz (fun i hi j hj => ?_) fun _ => ?_
    · exact congrFun (congrFun hab ⟨i, hb ▸ hi⟩) ⟨j, hb ▸ hj⟩
    · by_contra hall
      push Not at hall
      refine hne (funext fun i => funext fun j => ?_)
      exact hall i (i.isLt.trans_eq hb.symm) j (j.isLt.trans_eq hb.symm)

/-- An operator is found equal to itself unless the tolerance is negative, or it is zero and so is
the operator. -/
theorem equalUpToPhase_self_iff {n : ℕ} (ha : a.dim = 2 ^ n) {tolerance : ℝ} :
    equalUpToPhase tolerance a a = true ↔
      0 < tolerance ∨ tolerance = 0 ∧ a.toMatrix n ≠ 0 := by
  rcases lt_trichotomy 0 tolerance with hpositive | rfl | hnegative
  · refine iff_of_true ?_ (.inl hpositive)
    exact equalUpToPhase_of_smul hpositive.le rfl norm_one (fun _ _ _ _ => (one_mul _).symm)
      fun hzero => absurd hzero hpositive.ne'
  · rw [equalUpToPhase_zero_iff ha ha]
    refine ⟨fun h => .inr ⟨rfl, h.1⟩, fun h => ?_⟩
    exact ⟨(h.resolve_left (lt_irrefl 0)).2, 1, norm_one, (one_smul ℂ _).symm⟩
  · refine iff_of_false (fun h => ?_) fun h => ?_
    · rw [equalUpToPhase_eq_true_iff rfl (ha ▸ Nat.two_pow_pos n) rfl rfl,
        if_neg fun hsmall => absurd ((norm_nonneg _).trans_lt hsmall) hnegative.not_gt] at h
      exact absurd ((abs_nonneg _).trans h.1) hnegative.not_ge
    · exact h.elim hnegative.not_gt fun hzero => hnegative.ne hzero.1

theorem norm_sub_phase_le (r : ℂ) : ‖r - r / ‖r‖‖ ≤ |‖r‖ - 1| := by
  rcases eq_or_ne r 0 with rfl | hr
  · simp
  · have hnorm : (‖r‖ : ℂ) ≠ 0 := Complex.ofReal_ne_zero.mpr (norm_ne_zero_iff.mpr hr)
    have hscale : r - r / ‖r‖ = r / ‖r‖ * ((‖r‖ - 1 : ℝ) : ℂ) := by
      rw [Complex.ofReal_sub, Complex.ofReal_one, mul_sub, mul_one, div_mul_cancel₀ r hnorm]
    rw [hscale, norm_mul, norm_div, Complex.norm_real, Complex.norm_real, norm_norm,
      div_self (norm_ne_zero_iff.mpr hr), one_mul, Real.norm_eq_abs]

/-- Operators that differ by a phase, up to some error in every entry, are found equal if three
times the error is tolerated and the second has an entry that is large enough to read the phase
off. -/
theorem equalUpToPhase_of_near {z : ℂ} {error tolerance : ℝ} (hz : ‖z‖ = 1) (hdim : a.dim = b.dim)
    (hnear : ∀ i < b.dim, ∀ j < b.dim,
      ‖(a.get i j).toComplex - z * (b.get i j).toComplex‖ ≤ error)
    (hpos : 0 < error) (htolerance : 3 * error ≤ tolerance)
    (hlarge : ∃ i < b.dim, ∃ j < b.dim, tolerance ≤ ‖(b.get i j).toComplex‖ ∧
      error ≤ tolerance * ‖(b.get i j).toComplex‖) :
    equalUpToPhase tolerance a b = true := by
  obtain ⟨i, hi, j, hj, hentry, herror⟩ := hlarge
  have hmax := norm_le_largestEntry hi hj
  have hlt := largestEntry_lt (Nat.zero_lt_of_lt hi)
  have hpivot := hnear _ hlt.1 _ hlt.2
  rw [equalUpToPhase_eq_true_iff hdim (Nat.zero_lt_of_lt hi) rfl rfl]
  set p := (b.get b.largestEntry.1 b.largestEntry.2).toComplex
  set x := (a.get b.largestEntry.1 b.largestEntry.2).toComplex
  have hp : 0 < ‖p‖ := by linarith
  rw [if_neg (not_lt.mpr (hentry.trans hmax))]
  -- how far the ratio at the largest entry is from the phase, relative to that entry
  have hratio : ‖x / p - z‖ * ‖p‖ ≤ error := by
    rw [← norm_mul, sub_mul, div_mul_cancel₀ x (norm_pos_iff.mp hp)]
    exact hpivot
  have hunit : |‖x / p‖ - 1| ≤ ‖x / p - z‖ := by
    rw [← hz]
    exact abs_norm_sub_norm_le _ _
  have hphase : ‖z - x / p / ‖x / p‖‖ ≤ 2 * ‖x / p - z‖ := by
    calc ‖z - x / p / ‖x / p‖‖
        ≤ ‖z - x / p‖ + ‖x / p - x / p / ‖x / p‖‖ := norm_sub_le_norm_sub_add_norm_sub _ _ _
      _ ≤ ‖x / p - z‖ + ‖x / p - z‖ := by
          rw [norm_sub_rev z]
          gcongr
          exact (norm_sub_phase_le _).trans hunit
      _ = 2 * ‖x / p - z‖ := (two_mul _).symm
  constructor
  · have hscaled : ‖x / p - z‖ * ‖p‖ ≤ tolerance * ‖p‖ := by
      refine hratio.trans (herror.trans ?_)
      gcongr
      linarith
    exact hunit.trans (le_of_mul_le_mul_right hscaled hp)
  · intro i hi j hj
    have hle := norm_le_largestEntry hi hj
    calc ‖(a.get i j).toComplex - x / p / ‖x / p‖ * (b.get i j).toComplex‖
        = ‖((a.get i j).toComplex - z * (b.get i j).toComplex) +
            (z - x / p / ‖x / p‖) * (b.get i j).toComplex‖ := by
          congr 1
          ring
      _ ≤ ‖(a.get i j).toComplex - z * (b.get i j).toComplex‖ +
            ‖z - x / p / ‖x / p‖‖ * ‖(b.get i j).toComplex‖ := by
          rw [← norm_mul]
          exact norm_add_le _ _
      _ ≤ error + 2 * ‖x / p - z‖ * ‖p‖ := by
          gcongr
          exact hnear i hi j hj
      _ ≤ tolerance := by linarith

/-- The comparison reads a modulus `c` and a phase `w` off at an entry of the second operator that
none exceeds. -/
theorem exists_pivot {tolerance : ℝ} (htolerance : 0 < tolerance) (hdim : a.dim = b.dim)
    (hpos : 0 < b.dim) :
    ∃ k < b.dim, ∃ l < b.dim,
      (∀ i < b.dim, ∀ j < b.dim, ‖(b.get i j).toComplex‖ ≤ ‖(b.get k l).toComplex‖) ∧
      ∀ (c : ℝ) (w : ℂ), 0 < c → ‖w‖ = 1 →
        (a.get k l).toComplex = c * w * (b.get k l).toComplex →
        tolerance ≤ ‖(b.get k l).toComplex‖ →
        (equalUpToPhase tolerance a b = true ↔ |c - 1| ≤ tolerance ∧ ∀ i < b.dim, ∀ j < b.dim,
          ‖(a.get i j).toComplex - w * (b.get i j).toComplex‖ ≤ tolerance) := by
  obtain ⟨hk, hl⟩ := largestEntry_lt hpos
  refine ⟨_, hk, _, hl, fun i hi j hj => norm_le_largestEntry hi hj, fun c w hc hw hx hlarge => ?_⟩
  rw [equalUpToPhase_eq_true_iff hdim hpos rfl hx, if_neg (not_lt.mpr hlarge)]
  have hne : (b.get b.largestEntry.1 b.largestEntry.2).toComplex ≠ 0 :=
    norm_pos_iff.mp (htolerance.trans_le hlarge)
  have hnorm : ‖(c : ℂ) * w‖ = c := by
    rw [norm_mul, hw, mul_one, Complex.norm_real, Real.norm_of_nonneg hc.le]
  rw [mul_div_cancel_right₀ _ hne, hnorm,
    mul_div_cancel_left₀ w (Complex.ofReal_ne_zero.mpr hc.ne')]

theorem get_twoByTwo (w x y z : Amplitude ℝ) :
    (twoByTwo w x y z).get 0 0 = w ∧ (twoByTwo w x y z).get 0 1 = x ∧
      (twoByTwo w x y z).get 1 0 = y ∧ (twoByTwo w x y z).get 1 1 = z := ⟨rfl, rfl, rfl, rfl⟩

theorem norm_le_iff_sq {z : ℂ} {r : ℝ} (hr : 0 ≤ r) :
    ‖z‖ ≤ r ↔ z.re * z.re + z.im * z.im ≤ r ^ 2 := by
  rw [← sq_le_sq₀ (norm_nonneg _) hr, Complex.sq_norm, Complex.normSq_apply]

theorem norm_eq_of_sq {z : ℂ} {r : ℝ} (hr : 0 ≤ r) (h : z.re * z.re + z.im * z.im = r ^ 2) :
    ‖z‖ = r := by
  rw [← sq_eq_sq₀ (norm_nonneg _) hr, Complex.sq_norm, Complex.normSq_apply, h]

section

variable {tolerance : ℝ}

/-- Where the second operator vanishes up to the tolerance, no phase is read off, and all that is
asked is that the first vanishes as well. -/
theorem equalUpToPhase_of_small (hdim : a.dim = b.dim)
    (hsmall : ∀ i < b.dim, ∀ j < b.dim, ‖(b.get i j).toComplex‖ < tolerance) :
    equalUpToPhase tolerance a b = true ↔
      ∀ i < b.dim, ∀ j < b.dim, ‖(a.get i j).toComplex‖ ≤ tolerance := by
  rcases Nat.eq_zero_or_pos b.dim with hzero | hpos
  · rw [equalUpToPhase, if_neg (not_not.mpr hdim), if_pos hzero]
    refine iff_of_true rfl fun i hi => ?_
    omega
  · obtain ⟨hi, hj⟩ := largestEntry_lt hpos
    rw [equalUpToPhase_eq_true_iff hdim hpos rfl rfl, if_pos (hsmall _ hi _ hj)]

/-- At a tolerance below one, operators that differ by a phase are found equal, and those found
equal differ by a phase up to the tolerance in every entry. Of a second operator with no entry as
large as the tolerance it is only found that the first is as small. -/
theorem equalUpToPhase_decides (hpos : 0 < tolerance) (hlt : tolerance < 1) (hdim : a.dim = b.dim) :
    (∀ z : ℂ, ‖z‖ = 1 →
        (∀ i < b.dim, ∀ j < b.dim, (a.get i j).toComplex = z * (b.get i j).toComplex) →
        equalUpToPhase tolerance a b = true) ∧
      (equalUpToPhase tolerance a b = true →
        (∃ i < b.dim, ∃ j < b.dim, tolerance ≤ ‖(b.get i j).toComplex‖) →
        ∃ z : ℂ, ‖z‖ = 1 ∧ ∀ i < b.dim, ∀ j < b.dim,
          ‖(a.get i j).toComplex - z * (b.get i j).toComplex‖ ≤ tolerance) ∧
      ((∀ i < b.dim, ∀ j < b.dim, ‖(b.get i j).toComplex‖ < tolerance) →
        (equalUpToPhase tolerance a b = true ↔
          ∀ i < b.dim, ∀ j < b.dim, ‖(a.get i j).toComplex‖ ≤ tolerance)) := by
  refine ⟨fun z hz h => ?_, exists_phase_of_equalUpToPhase hlt, equalUpToPhase_of_small hdim⟩
  exact equalUpToPhase_of_smul hpos.le hdim hz h fun hzero => absurd hzero hpos.ne'

def byPlace (dim : ℕ) : Operator ℝ := ofFn dim fun i j => ⟨i, j⟩

/-- The entries by their places, turned by a quarter of the circle and moved. -/
def turnedBy (dim : ℕ) (shift : ℝ) : Operator ℝ := ofFn dim fun i j => ⟨-j, i + shift⟩

theorem toComplex_get_turnedBy {dim i j : ℕ} (shift : ℝ) (hi : i < dim) (hj : j < dim) :
    ((turnedBy dim shift).get i j).toComplex =
      Complex.I * ((byPlace dim).get i j).toComplex + shift * Complex.I := by
  rw [turnedBy, byPlace, get_ofFn _ _ hi hj, get_ofFn _ _ hi hj]
  apply Complex.ext <;> simp [Amplitude.toComplex]

theorem equalUpToPhase_turnedBy :
    equalUpToPhase (3 / 10) (turnedBy 3 0) (byPlace 3) = true ∧
      equalUpToPhase (3 / 10) (turnedBy 3 (1 / 10)) (byPlace 3) = true ∧
      ∃ z : ℂ, ‖z‖ = 1 ∧ ∀ i < 3, ∀ j < 3, ‖((turnedBy 3 (1 / 10)).get i j).toComplex -
        z * ((byPlace 3).get i j).toComplex‖ ≤ 3 / 10 := by
  have hpos : (0 : ℝ) < 3 / 10 := by norm_num
  have hlt : (3 / 10 : ℝ) < 1 := by norm_num
  have hdim : (byPlace 3).dim = 3 := rfl
  have hdims (shift : ℝ) : (turnedBy 3 shift).dim = (byPlace 3).dim := rfl
  have hentry : ‖((byPlace 3).get 0 1).toComplex‖ = 1 := by
    rw [byPlace, get_ofFn _ _ (by decide) (by decide)]
    exact norm_eq_of_sq zero_le_one (by simp [Amplitude.toComplex])
  have hnear : ∀ i < (byPlace 3).dim, ∀ j < (byPlace 3).dim,
      ‖((turnedBy 3 (1 / 10)).get i j).toComplex -
        Complex.I * ((byPlace 3).get i j).toComplex‖ ≤ 1 / 10 := by
    rw [hdim]
    intro i hi j hj
    rw [toComplex_get_turnedBy _ hi hj, add_sub_cancel_left, norm_mul, Complex.norm_I, mul_one,
      Complex.norm_real]
    norm_num
  have hmoved : equalUpToPhase (3 / 10) (turnedBy 3 (1 / 10)) (byPlace 3) = true := by
    refine equalUpToPhase_of_near Complex.norm_I (hdims _) hnear (by norm_num) (by norm_num)
      ⟨0, by decide, 1, by decide, ?_⟩
    rw [hentry]
    norm_num
  obtain ⟨hcomplete, -⟩ := equalUpToPhase_decides hpos hlt (hdims 0)
  obtain ⟨-, hsound, -⟩ := equalUpToPhase_decides hpos hlt (hdims (1 / 10))
  rw [hdim] at hcomplete hsound
  refine ⟨hcomplete Complex.I Complex.norm_I fun i hi j hj => ?_, hmoved,
    hsound hmoved ⟨0, by decide, 1, by decide, ?_⟩⟩
  · rw [toComplex_get_turnedBy _ hi hj, Complex.ofReal_zero, zero_mul, add_zero]
  · rw [hentry]
    exact hlt.le

end

/-- What is found equal one way is found equal the other way if three times the error is tolerated,
and the operators are not so small that the phase cannot be read off. -/
theorem equalUpToPhase_swap {error tolerance : ℝ} (hpos : 0 < error) (hlt : error < 1)
    (htolerance : 3 * error ≤ tolerance)
    (hlarge : ∃ i < a.dim, ∃ j < a.dim, tolerance ≤ ‖(a.get i j).toComplex‖ ∧
      error ≤ tolerance * ‖(a.get i j).toComplex‖)
    (h : equalUpToPhase error a b = true) : equalUpToPhase tolerance b a = true := by
  have hdim : a.dim = b.dim := by
    by_contra hne
    rw [equalUpToPhase, if_pos hne] at h
    cases h
  -- otherwise all entries of the first would be as small as the error
  have hlarge' : ∃ i < b.dim, ∃ j < b.dim, error ≤ ‖(b.get i j).toComplex‖ := by
    by_contra hsmall
    push Not at hsmall
    obtain ⟨i, hi, j, hj, hentry, -⟩ := hlarge
    rw [hdim] at hi hj
    obtain ⟨hi', hj'⟩ := largestEntry_lt (Nat.zero_lt_of_lt hi)
    rw [equalUpToPhase_eq_true_iff hdim (Nat.zero_lt_of_lt hi) rfl rfl,
      if_pos (hsmall _ hi' _ hj')] at h
    linarith [h i hi j hj]
  obtain ⟨z, hz, hnear⟩ := exists_phase_of_equalUpToPhase hlt h hlarge'
  have hzne : z ≠ 0 := norm_ne_zero_iff.mp (hz ▸ one_ne_zero)
  have hz' : ‖z⁻¹‖ = 1 := by rw [norm_inv, hz, inv_one]
  refine equalUpToPhase_of_near hz' hdim.symm (fun i hi j hj => ?_) hpos htolerance hlarge
  rw [hdim] at hi hj
  calc ‖(b.get i j).toComplex - z⁻¹ * (a.get i j).toComplex‖
      = ‖z⁻¹ * (z * (b.get i j).toComplex - (a.get i j).toComplex)‖ := by
        rw [mul_sub, inv_mul_cancel_left₀ hzne]
    _ = ‖(a.get i j).toComplex - z * (b.get i j).toComplex‖ := by
        rw [norm_mul, hz', one_mul, norm_sub_rev]
    _ ≤ error := hnear i hi j hj

def planeRotation (x y : ℝ) : Operator ℝ := twoByTwo ⟨x, 0⟩ ⟨-y, 0⟩ ⟨y, 0⟩ ⟨x, 0⟩

theorem norm_get_planeRotation (x y : ℝ) {i j : ℕ} (hi : i < 2) (hj : j < 2) :
    ‖((planeRotation x y).get i j).toComplex‖ = if i = j then |x| else |y| := by
  have hreal (t : ℝ) : ‖(⟨t, 0⟩ : ℂ)‖ = |t| := Complex.norm_real t
  interval_cases i <;> interval_cases j <;>
    simp [planeRotation, get_twoByTwo, Amplitude.toComplex, hreal]

/-- A rotation that is close to another, and turned by a quarter of the circle. -/
def quarterTurned : Operator ℝ :=
  twoByTwo ⟨0, 21 / 29⟩ ⟨0, -(20 / 29)⟩ ⟨0, 20 / 29⟩ ⟨0, 21 / 29⟩

theorem equalUpToPhase_quarterTurned :
    equalUpToPhase (3 / 29) (planeRotation (20 / 29) (21 / 29)) quarterTurned = true ∧
      equalUpToPhase (9 / 29) quarterTurned (planeRotation (20 / 29) (21 / 29)) = true := by
  have hphase : ‖-Complex.I‖ = 1 := by rw [norm_neg, Complex.norm_I]
  have hsize : ‖(quarterTurned.get 0 0).toComplex‖ = 21 / 29 :=
    norm_eq_of_sq (by norm_num) (by norm_num [quarterTurned, get_twoByTwo, Amplitude.toComplex])
  have hnear : ∀ i < quarterTurned.dim, ∀ j < quarterTurned.dim,
      ‖((planeRotation (20 / 29) (21 / 29)).get i j).toComplex -
        -Complex.I * (quarterTurned.get i j).toComplex‖ ≤ 1 / 29 := by
    intro i hi j hj
    change i < 2 at hi
    change j < 2 at hj
    rw [norm_le_iff_sq (by norm_num)]
    interval_cases i <;> interval_cases j <;>
      norm_num [planeRotation, quarterTurned, get_twoByTwo, Amplitude.toComplex]
  have h : equalUpToPhase (3 / 29) (planeRotation (20 / 29) (21 / 29)) quarterTurned = true := by
    refine equalUpToPhase_of_near hphase rfl hnear (by norm_num) (by norm_num)
      ⟨0, two_pos, 0, two_pos, ?_⟩
    rw [hsize]
    norm_num
  refine ⟨h, equalUpToPhase_swap (by norm_num) (by norm_num) (by norm_num)
    ⟨1, one_lt_two, 0, two_pos, ?_⟩ h⟩
  norm_num [norm_get_planeRotation _ _ one_lt_two two_pos, abs_of_pos]

def rotatedPhases : Operator ℝ :=
  twoByTwo ⟨12 / 25, 9 / 25⟩ ⟨-(4 / 5), 0⟩ ⟨4 / 5, 0⟩ ⟨12 / 25, -(9 / 25)⟩

theorem norm_get_rotatedPhases {i j : ℕ} (hi : i < 2) (hj : j < 2) :
    ‖(rotatedPhases.get i j).toComplex‖ = if i = j then 3 / 5 else 4 / 5 := by
  refine norm_eq_of_sq (by split_ifs <;> norm_num) ?_
  interval_cases i <;> interval_cases j <;>
    norm_num [rotatedPhases, get_twoByTwo, Amplitude.toComplex]

/-- Where the second operator is largest, the first is smaller and has the same sign. -/
theorem equalUpToPhase_rotatedPhases :
    equalUpToPhase (1 / 2) (planeRotation (4 / 5) (3 / 5)) rotatedPhases = true := by
  have hhalf : (0 : ℝ) < 1 / 2 := by norm_num
  obtain ⟨k, hk, l, hl, hmax, hiff⟩ :=
    exists_pivot (a := planeRotation (4 / 5) (3 / 5)) (b := rotatedPhases) hhalf rfl two_pos
  change k < 2 at hk
  change l < 2 at hl
  have hside := hmax 0 two_pos 1 one_lt_two
  rw [norm_get_rotatedPhases hk hl] at hiff hside
  rw [norm_get_rotatedPhases two_pos one_lt_two, if_neg zero_ne_one] at hside
  -- the largest entries are off the diagonal
  have hkl : k ≠ l := fun h => by
    rw [if_pos h] at hside
    norm_num at hside
  have hratio : ((planeRotation (4 / 5) (3 / 5)).get k l).toComplex =
      (3 / 4 : ℝ) * 1 * (rotatedPhases.get k l).toComplex := by
    interval_cases k <;> interval_cases l <;> first
      | exact absurd rfl hkl
      | apply Complex.ext <;>
          norm_num [planeRotation, rotatedPhases, get_twoByTwo, Amplitude.toComplex]
  rw [hiff _ _ (by norm_num) norm_one hratio (by rw [if_neg hkl]; norm_num)]
  refine ⟨by norm_num [abs_le], fun i hi j hj => ?_⟩
  change i < 2 at hi
  change j < 2 at hj
  rw [norm_le_iff_sq hhalf.le]
  interval_cases i <;> interval_cases j <;>
    norm_num [planeRotation, rotatedPhases, get_twoByTwo, Amplitude.toComplex]

/-- Where the first operator is largest, the second is smaller and is turned: by one angle at one
such entry, by the opposite one at the other. -/
theorem equalUpToPhase_planeRotation :
    equalUpToPhase (1 / 2) rotatedPhases (planeRotation (4 / 5) (3 / 5)) = false := by
  have hhalf : (0 : ℝ) < 1 / 2 := by norm_num
  obtain ⟨k, hk, l, hl, hmax, hiff⟩ :=
    exists_pivot (a := rotatedPhases) (b := planeRotation (4 / 5) (3 / 5)) hhalf rfl two_pos
  change k < 2 at hk
  change l < 2 at hl
  have hdiagonal := hmax 0 two_pos 0 two_pos
  rw [norm_get_planeRotation _ _ hk hl] at hiff hdiagonal
  rw [norm_get_planeRotation _ _ two_pos two_pos, if_pos rfl] at hdiagonal
  obtain rfl : k = l := by
    by_contra hkl
    rw [if_neg hkl] at hdiagonal
    norm_num [abs_of_pos] at hdiagonal
  rw [if_pos rfl] at hiff
  have hlarge : (1 / 2 : ℝ) ≤ |4 / 5| := by norm_num [abs_of_pos]
  -- at the entry across, the phase is off
  refine Bool.eq_false_iff.mpr fun h => ?_
  interval_cases k
  · have hratio : (rotatedPhases.get 0 0).toComplex = (3 / 4 : ℝ) * (⟨4 / 5, 3 / 5⟩ : ℂ) *
        ((planeRotation (4 / 5) (3 / 5)).get 0 0).toComplex := by
      apply Complex.ext <;>
        norm_num [planeRotation, rotatedPhases, get_twoByTwo, Amplitude.toComplex]
    have hphase : ‖(⟨4 / 5, 3 / 5⟩ : ℂ)‖ = 1 := norm_eq_of_sq zero_le_one (by norm_num)
    have hentry := ((hiff _ _ (by norm_num) hphase hratio hlarge).mp h).2 1 one_lt_two 1 one_lt_two
    rw [norm_le_iff_sq hhalf.le] at hentry
    norm_num [planeRotation, rotatedPhases, get_twoByTwo, Amplitude.toComplex] at hentry
  · have hratio : (rotatedPhases.get 1 1).toComplex = (3 / 4 : ℝ) * (⟨4 / 5, -(3 / 5)⟩ : ℂ) *
        ((planeRotation (4 / 5) (3 / 5)).get 1 1).toComplex := by
      apply Complex.ext <;>
        norm_num [planeRotation, rotatedPhases, get_twoByTwo, Amplitude.toComplex]
    have hphase : ‖(⟨4 / 5, -(3 / 5)⟩ : ℂ)‖ = 1 := norm_eq_of_sq zero_le_one (by norm_num)
    have hentry := ((hiff _ _ (by norm_num) hphase hratio hlarge).mp h).2 0 two_pos 0 two_pos
    rw [norm_le_iff_sq hhalf.le] at hentry
    norm_num [planeRotation, rotatedPhases, get_twoByTwo, Amplitude.toComplex] at hentry

/-- The factor is read off where the second operator is largest, so it matters which one that is. -/
theorem equalUpToPhase_asymm :
    equalUpToPhase (1 / 2) (planeRotation (4 / 5) (3 / 5)) rotatedPhases = true ∧
      equalUpToPhase (1 / 2) rotatedPhases (planeRotation (4 / 5) (3 / 5)) = false :=
  ⟨equalUpToPhase_rotatedPhases, equalUpToPhase_planeRotation⟩

end Interchange.Operator
end
