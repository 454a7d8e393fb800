import Mathlib.LinearAlgebra.Matrix.Determinant.Basic
import Interchange.Operator.Determinant
import Interchange.Proofs.OperatorMatrix

noncomputable section
namespace Interchange

namespace Operator

/-- A row whose entry in the first column is as large as any. -/
structure IsPivot (m : Operator ℝ) (r : ℕ) : Prop where
  lt : r < m.dim
  norm_le : ∀ i < m.dim, (m.get i 0).norm ≤ (m.get r 0).norm

theorem isPivot_pivotRow {m : Operator ℝ} (h : 0 < m.dim) : m.IsPivot m.pivotRow where
  lt := by
    have hmem := (foldl_largest (fun i => (m.get i 0).norm) (List.range m.dim) 0).1
    rcases List.mem_cons.mp hmem with heq | hmem
    · exact lt_of_eq_of_lt heq h
    · exact List.mem_range.mp hmem
  norm_le i hi := (foldl_largest (fun i => (m.get i 0).norm) (List.range m.dim) 0).2 i
    (List.mem_cons_of_mem 0 (List.mem_range.mpr hi))

/-- `Eliminates n m factor d`: elimination takes an operator of dimension `n` and a factor to `d`,
with some largest pivot in every column. -/
inductive Eliminates : ℕ → Operator ℝ → Amplitude ℝ → Amplitude ℝ → Prop
  | done (m : Operator ℝ) (factor : Amplitude ℝ) : Eliminates 0 m factor factor
  | singular {n r : ℕ} {m : Operator ℝ} (factor : Amplitude ℝ) (hr : m.IsPivot r)
      (hzero : (m.get r 0).norm = 0) : Eliminates (n + 1) m factor 0
  | pivot {n r : ℕ} {m : Operator ℝ} {factor d : Amplitude ℝ} (hr : m.IsPivot r)
      (hne : (m.get r 0).norm ≠ 0)
      (h : Eliminates n (m.eliminate r) ((if r = 0 then factor else -factor) * m.get r 0) d) :
      Eliminates (n + 1) m factor d

theorem eliminates_detFrom {n : ℕ} {m : Operator ℝ} (hd : m.dim = n) (factor : Amplitude ℝ) :
    Eliminates n m factor (detFrom n m factor) := by
  induction n generalizing m factor with
  | zero => exact .done m factor
  | succ n ih =>
    have hr := isPivot_pivotRow (m := m) (by omega)
    rw [detFrom]
    by_cases hpivot : ((m.get m.pivotRow 0).norm == 0) = true
    · rw [if_pos hpivot]
      exact .singular factor hr ((Scalar.beq_iff _ _).mp hpivot)
    · rw [if_neg hpivot]
      refine .pivot hr (mt (Scalar.beq_iff _ _).mpr hpivot) (ih ?_ _)
      rw [eliminate, dim_ofFn]
      omega

/-- Clearing the first column below a pivot, in the order that the exchange of rows gives. -/
theorem det_eq_pivot_mul {n : ℕ} (A : Matrix (Fin (n + 1)) (Fin (n + 1)) ℂ) (r : Fin (n + 1))
    (hr : A r 0 ≠ 0) :
    A.det = (if r = 0 then 1 else -1) * A r 0 *
      (Matrix.of fun i j : Fin n => A (Equiv.swap 0 r i.succ) j.succ -
        A (Equiv.swap 0 r i.succ) 0 / A r 0 * A r j.succ).det := by
  set B := A.submatrix (Equiv.swap 0 r) id with hB
  have hBA : A.det = (if r = 0 then 1 else -1) * B.det := by
    rw [hB, Matrix.det_permute, ← mul_assoc]
    by_cases h : r = 0
    · simp [h]
    · rw [Equiv.Perm.sign_swap (Ne.symm h)]
      simp [h]
  have hrow : ∀ j, B 0 j = A r j := fun j => by simp [hB]
  -- subtract multiples of the first row
  let c : Fin (n + 1) → ℂ := Fin.cases 0 fun i => -(B i.succ 0 / B 0 0)
  let E : Matrix (Fin (n + 1)) (Fin (n + 1)) ℂ := Matrix.of fun i j => B i j + c i * B 0 j
  have hE : E.det = B.det :=
    Matrix.det_eq_of_forall_row_eq_smul_add_const c 0 rfl fun i j => rfl
  have hcolumn : ∀ i : Fin n, E i.succ 0 = 0 := by
    intro i
    have hpivot : B 0 0 ≠ 0 := by rwa [hrow]
    simp only [E, c, Matrix.of_apply, Fin.cases_succ]
    field_simp
    ring
  rw [hBA, ← hE, Matrix.det_succ_column_zero, Fin.sum_univ_succ]
  have hzero : E 0 0 = A r 0 := by simp [E, c, hrow]
  simp only [hcolumn, mul_zero, zero_mul, Finset.sum_const_zero, add_zero, Fin.val_zero, pow_zero,
    one_mul, hzero, Fin.succAbove_zero]
  rw [mul_assoc]
  congr 3
  funext i j
  simp only [E, c, Matrix.submatrix_apply, Matrix.of_apply, Fin.cases_succ, hrow]
  simp only [hB, Matrix.submatrix_apply, id]
  ring

theorem toSquare_eliminate {n : ℕ} {m : Operator ℝ} (hd : m.dim = n + 1) {r : ℕ}
    (hr : r < n + 1) :
    (m.eliminate r).toSquare n = Matrix.of fun i j : Fin n =>
      m.toSquare (n + 1) (Equiv.swap 0 ⟨r, hr⟩ i.succ) j.succ -
        m.toSquare (n + 1) (Equiv.swap 0 ⟨r, hr⟩ i.succ) 0 / m.toSquare (n + 1) ⟨r, hr⟩ 0 *
          m.toSquare (n + 1) ⟨r, hr⟩ j.succ := by
  have hdim : m.dim - 1 = n := by omega
  rw [eliminate, hdim, toSquare_ofFn]
  funext i j
  have hrow : ((Equiv.swap (0 : Fin (n + 1)) ⟨r, hr⟩ i.succ : Fin (n + 1)) : ℕ) =
      if (i : ℕ) + 1 = r then 0 else (i : ℕ) + 1 := by
    by_cases h : (i : ℕ) + 1 = r
    · have heq : i.succ = ⟨r, hr⟩ := Fin.ext h
      rw [heq, Equiv.swap_apply_right, if_pos h]
      rfl
    · have hne : i.succ ≠ ⟨r, hr⟩ := fun heq => h (congrArg Fin.val heq)
      rw [Equiv.swap_apply_of_ne_of_ne (Fin.succ_ne_zero i) hne, if_neg h]
      rfl
  simp only [toSquare, Matrix.of_apply, hrow, Amplitude.toComplex_sub, Amplitude.toComplex_mul,
    Amplitude.toComplex_div]
  rfl

theorem det_toSquare_of_singular {n r : ℕ} {m : Operator ℝ} (hd : m.dim = n + 1)
    (hr : m.IsPivot r) (hzero : (m.get r 0).norm = 0) : (m.toSquare (n + 1)).det = 0 := by
  refine Matrix.det_eq_zero_of_column_eq_zero 0 fun i => ?_
  have hle := hr.norm_le i (by omega)
  rw [hzero, Amplitude.norm_eq] at hle
  exact norm_le_zero_iff.mp hle

/-- A pivot and what it leaves multiply to the determinant, with the sign of the exchange. -/
theorem det_toSquare_eliminate {n r : ℕ} {m : Operator ℝ} (hd : m.dim = n + 1)
    (hr : m.IsPivot r) (hne : (m.get r 0).norm ≠ 0) (factor : Amplitude ℝ) :
    ((if r = 0 then factor else -factor) * m.get r 0).toComplex *
      ((m.eliminate r).toSquare n).det = factor.toComplex * (m.toSquare (n + 1)).det := by
  have hlt : r < n + 1 := hd ▸ hr.lt
  have hpivot : m.toSquare (n + 1) ⟨r, hlt⟩ 0 ≠ 0 := by
    rwa [Amplitude.norm_eq, norm_ne_zero_iff] at hne
  have hsign : (if r = 0 then factor else -factor).toComplex =
      factor.toComplex * (if (⟨r, hlt⟩ : Fin (n + 1)) = 0 then 1 else -1) := by
    by_cases h : r = 0
    · rw [if_pos h, if_pos (Fin.ext h), mul_one]
    · rw [if_neg h, if_neg (fun heq => h (congrArg Fin.val heq)), Amplitude.toComplex_neg,
        mul_neg_one]
  rw [det_eq_pivot_mul _ _ hpivot, ← toSquare_eliminate hd hlt, Amplitude.toComplex_mul, hsign]
  simp only [mul_assoc]
  rfl

theorem Eliminates.toComplex_eq {n : ℕ} {m : Operator ℝ} {factor d : Amplitude ℝ}
    (h : Eliminates n m factor d) (hd : m.dim = n) :
    d.toComplex = factor.toComplex * (m.toSquare n).det := by
  induction h with
  | done m factor => rw [Matrix.det_isEmpty, mul_one]
  | singular factor hr hzero =>
    rw [det_toSquare_of_singular hd hr hzero, mul_zero, Amplitude.toComplex_zero]
  | pivot hr hne _ ih =>
    rw [ih (by rw [eliminate, dim_ofFn]; omega), det_toSquare_eliminate hd hr hne]

theorem toComplex_det {d : ℕ} {m : Operator ℝ} (hd : m.dim = d) :
    m.det.toComplex = (m.toSquare d).det := by
  subst hd
  rw [det, (eliminates_detFrom rfl 1).toComplex_eq rfl, Amplitude.toComplex_one, one_mul]

/-- Elimination ends at the signed sum over all permutations, whichever largest pivot it takes in
each column, and `det` is where it ends. -/
theorem toComplex_det_eq_sum (m : Operator ℝ) :
    m.det.toComplex = ∑ σ : Equiv.Perm (Fin m.dim),
      (Equiv.Perm.sign σ : ℂ) * ∏ i : Fin m.dim, (m.get (σ i) i).toComplex ∧
    ∀ d : Amplitude ℝ, Eliminates m.dim m 1 d ↔ d = m.det := by
  refine ⟨(toComplex_det rfl).trans (Matrix.det_apply' _), fun d => ⟨fun h => ?_, ?_⟩⟩
  · apply Amplitude.toComplex_injective
    rw [h.toComplex_eq rfl, toComplex_det rfl, Amplitude.toComplex_one, one_mul]
  · rintro rfl
    exact eliminates_detFrom rfl 1

end Operator

end Interchange
end
