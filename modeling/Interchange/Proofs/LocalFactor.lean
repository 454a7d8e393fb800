import Mathlib.Analysis.Complex.Polynomial.Basic
import Mathlib.LinearAlgebra.UnitaryGroup
import Interchange.Proofs.Determinant

noncomputable section
namespace Interchange
open Matrix Complex ComplexConjugate

theorem tensor_two (a b c d e f g h : ℂ) :
    tensor !![a, b; c, d] !![e, f; g, h] =
      !![a * e, a * f, b * e, b * f; a * g, a * h, b * g, b * h;
        c * e, c * f, d * e, d * f; c * g, c * h, d * g, d * h] := by
  ext i j
  fin_cases i <;> fin_cases j <;> rfl

theorem specialUnitary_two {R : Matrix (Fin 2) (Fin 2) ℂ} (h : Rᴴ * R = 1) (hdet : R.det = 1) :
    R = !![R 0 0, -conj (R 1 0); R 1 0, conj (R 0 0)] := by
  have hadj : R.adjugate = Rᴴ := by
    have hinv : R.adjugate * R = 1 := by rw [adjugate_mul, hdet, one_smul]
    exact left_inv_eq_left_inv hinv h
  have h00 := congrFun (congrFun hadj 0) 0
  have h01 := congrFun (congrFun hadj 0) 1
  simp [adjugate_fin_two, conjTranspose_apply] at h00 h01
  ext i j
  fin_cases i <;> fin_cases j
  · rfl
  · simp [← h01]
  · rfl
  · simp [h00]

/-- A matrix that is real in the magic basis: it is the conjugate of itself turned round, with
signs. -/
def magicReal (a b c d e f g h : ℂ) : Matrix (Fin 4) (Fin 4) ℂ :=
  !![a, b, -conj h, conj g; c, d, conj f, -conj e; e, f, conj d, -conj c; g, h, -conj b, conj a]

section

variable {a b c d e f g h : ℂ}

theorem det_magicReal :
    (magicReal a b c d e f g h).det =
      (a * d - b * c) * conj (a * d - b * c) + (e * h - f * g) * conj (e * h - f * g) -
        ((a * f - b * e) * conj (a * f - b * e) + (c * h - d * g) * conj (c * h - d * g) +
          (a * h - b * g) * conj (c * f - d * e) + (c * f - d * e) * conj (a * h - b * g)) := by
  have h1 : (1 : Fin 4).succAbove 2 = 3 := rfl
  have h2 : (2 : Fin 4).succAbove 2 = 3 := rfl
  have h3 : (3 : Fin 4).succAbove 2 = 2 := rfl
  unfold magicReal
  simp [det_succ_row_zero, Fin.sum_univ_succ, h1, h2, h3]
  ring

/-- Orthogonality of the columns makes the two left blocks multiples of each other. -/
structure Proportional (a b c d e f g h : ℂ) : Prop where
  cross : a * h - c * f = d * e - b * g
  first : a * g = c * e
  second : d * f = b * h

theorem proportional_of_unitary
    (hu : (magicReal a b c d e f g h)ᴴ * magicReal a b c d e f g h = 1) :
    Proportional a b c d e f g h := by
  have h02 := congrArg conj (congrFun (congrFun hu 0) 2)
  have h03 := congrArg conj (congrFun (congrFun hu 0) 3)
  have h12 := congrArg conj (congrFun (congrFun hu 1) 2)
  simp [magicReal, mul_apply, Fin.sum_univ_four] at h02 h03 h12
  exact ⟨by linear_combination -h02, by linear_combination h03 / 2, by linear_combination h12 / 2⟩

theorem columns_of_unitary
    (hu : (magicReal a b c d e f g h)ᴴ * magicReal a b c d e f g h = 1) :
    !![a, b; c, d]ᴴ * !![a, b; c, d] + !![e, f; g, h]ᴴ * !![e, f; g, h] = 1 := by
  have h00 := congrFun (congrFun hu 0) 0
  have h01 := congrFun (congrFun hu 0) 1
  have h10 := congrFun (congrFun hu 1) 0
  have h11 := congrFun (congrFun hu 1) 1
  simp [magicReal, mul_apply, Fin.sum_univ_four] at h00 h01 h10 h11
  ext i j
  fin_cases i <;> fin_cases j <;> simp [mul_apply, Fin.sum_univ_two]
  · linear_combination h00
  · linear_combination h01
  · linear_combination h10
  · linear_combination h11

/-- If both left blocks were singular, the determinant would not be positive. -/
theorem det_ne_zero_or (hp : Proportional a b c d e f g h)
    (hdet : (magicReal a b c d e f g h).det = 1) :
    a * d - b * c ≠ 0 ∨ e * h - f * g ≠ 0 := by
  by_contra hcontra
  rw [not_or, not_not, not_not] at hcontra
  obtain ⟨hA, hC⟩ := hcontra
  obtain ⟨hcross, hfirst, hsecond⟩ := hp
  have hzero : d * e - b * g = 0 := by
    have hsq : (d * e - b * g) ^ 2 = (a * d - b * c) * (e * h - f * g) := by
      linear_combination -(d * e - b * g) * hcross + (d * f - b * h) * hfirst
    rw [hA, zero_mul] at hsq
    exact pow_eq_zero_iff two_ne_zero |>.mp hsq
  have hsym : a * h - b * g = c * f - d * e := by linear_combination hcross + 2 * hzero
  rw [det_magicReal, hA, hC, hsym] at hdet
  simp only [mul_conj, zero_mul, zero_add, zero_sub] at hdet
  have hre := congrArg re hdet
  norm_cast at hre
  have h1 := normSq_nonneg (a * f - b * e)
  have h2 := normSq_nonneg (c * h - d * g)
  have h3 := normSq_nonneg (c * f - d * e)
  linarith

/-- Matrices of which one is regular and the other a multiple of it are multiples of one matrix of
determinant one. -/
theorem exists_factor_of_smul {X Y : Matrix (Fin 2) (Fin 2) ℂ} {l : ℂ} (hX : X.det ≠ 0)
    (hY : X.det • Y = l • X) :
    ∃ (x y : ℂ) (R : Matrix (Fin 2) (Fin 2) ℂ), R.det = 1 ∧ X = x • R ∧ Y = y • R := by
  obtain ⟨s, hs⟩ := IsAlgClosed.exists_eq_mul_self X.det
  have hs0 : s ≠ 0 := by
    rintro rfl
    exact hX (by rw [hs, mul_zero])
  refine ⟨s, l / s, s⁻¹ • X, ?_, (smul_inv_smul₀ hs0 X).symm, ?_⟩
  · rw [det_smul, hs, Fintype.card_fin]
    field_simp
  · rw [← inv_smul_smul₀ hX Y, hY, smul_smul, smul_smul, hs]
    congr 1
    field_simp

theorem exists_common_factor (hp : Proportional a b c d e f g h)
    (hne : a * d - b * c ≠ 0 ∨ e * h - f * g ≠ 0) :
    ∃ (x y : ℂ) (R : Matrix (Fin 2) (Fin 2) ℂ), R.det = 1 ∧ !![a, b; c, d] = x • R ∧
      !![e, f; g, h] = y • R := by
  obtain ⟨hcross, hfirst, hsecond⟩ := hp
  rcases hne with hA | hC
  · refine exists_factor_of_smul (l := d * e - b * g) (by rwa [det_fin_two_of]) ?_
    rw [det_fin_two_of]
    ext i j
    fin_cases i <;> fin_cases j <;> simp
    · linear_combination b * hfirst
    · linear_combination b * hcross + a * hsecond
    · linear_combination d * hfirst
    · linear_combination d * hcross + c * hsecond
  · obtain ⟨y, x, R, hR, hC, hA⟩ := exists_factor_of_smul (X := !![e, f; g, h])
      (Y := !![a, b; c, d]) (l := d * e - b * g) (by rwa [det_fin_two_of]) (by
        rw [det_fin_two_of]
        ext i j
        fin_cases i <;> fin_cases j <;> simp
        · linear_combination e * hcross - f * hfirst
        · linear_combination -e * hsecond
        · linear_combination g * hcross - h * hfirst
        · linear_combination -g * hsecond)
    exact ⟨x, y, R, hR, hA, hC⟩

/-- A matrix of determinant one that is unitary and real in the magic basis is a tensor product of
two matrices of determinant one, both unitary. -/
theorem exists_tensor (hu : (magicReal a b c d e f g h)ᴴ * magicReal a b c d e f g h = 1)
    (hdet : (magicReal a b c d e f g h).det = 1) :
    ∃ L R : Matrix (Fin 2) (Fin 2) ℂ, (Lᴴ * L = 1 ∧ L.det = 1) ∧ (Rᴴ * R = 1 ∧ R.det = 1) ∧
      magicReal a b c d e f g h = tensor L R := by
  have hp := proportional_of_unitary hu
  obtain ⟨x, y, R, hR, hA, hC⟩ := exists_common_factor hp (det_ne_zero_or hp hdet)
  have hcolumns := columns_of_unitary hu
  have hsum : (conj x * x + conj y * y) • (Rᴴ * R) = 1 := by
    rw [← hcolumns, hA, hC]
    simp only [conjTranspose_smul, Matrix.smul_mul, Matrix.mul_smul, smul_smul, add_smul]
    rw [mul_comm (conj x), mul_comm (conj y)]
    rfl
  have hlength : conj x * x + conj y * y = 1 := by
    rw [← normSq_eq_conj_mul_self, ← normSq_eq_conj_mul_self, ← ofReal_add] at hsum ⊢
    -- the square of this sum is the determinant of the identity
    have hsq := congrArg det hsum
    rw [det_smul, det_mul, det_conjTranspose, hR, det_one, star_one, mul_one, mul_one,
      Fintype.card_fin] at hsq
    have hsq : (normSq x + normSq y) ^ 2 = 1 := by exact_mod_cast hsq
    have hnonneg := add_nonneg (normSq_nonneg x) (normSq_nonneg y)
    exact_mod_cast (pow_eq_one_iff_of_nonneg hnonneg two_ne_zero).mp hsq
  rw [hlength, one_smul] at hsum
  refine ⟨!![x, -conj y; y, conj x], R, ⟨?_, ?_⟩, ⟨hsum, hR⟩, ?_⟩
  · ext i j
    fin_cases i <;> fin_cases j <;> simp [mul_apply, Fin.sum_univ_two]
    · linear_combination hlength
    · ring
    · ring
    · linear_combination hlength
  · rw [det_fin_two_of]
    linear_combination hlength
  · have hform := specialUnitary_two hsum hR
    rw [hform] at hA hC ⊢
    have hentry {p q r s p' q' r' s' : ℂ} (hpq : !![p, q; r, s] = !![p', q'; r', s']) :
        p = p' ∧ q = q' ∧ r = r' ∧ s = s' :=
      ⟨congrFun (congrFun hpq 0) 0, congrFun (congrFun hpq 0) 1, congrFun (congrFun hpq 1) 0,
        congrFun (congrFun hpq 1) 1⟩
    rw [smul_of] at hA hC
    simp only [smul_cons, smul_eq_mul, smul_empty] at hA hC
    obtain ⟨rfl, rfl, rfl, rfl⟩ := hentry hA
    obtain ⟨rfl, rfl, rfl, rfl⟩ := hentry hC
    rw [tensor_two, magicReal]
    simp

end

end Interchange
end
