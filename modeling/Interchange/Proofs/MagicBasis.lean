import Mathlib.Analysis.CStarAlgebra.Classes
import Mathlib.Analysis.Normed.Algebra.MatrixExponential
import Interchange.Proofs.ClosedForm
import Interchange.Proofs.LocalFactor
import Interchange.Synthesis.Kak

noncomputable section
namespace Interchange
open Matrix Complex ComplexConjugate

/-- The magic basis as columns, each of length `√2`. -/
def magicVectors : Matrix (Fin 4) (Fin 4) ℂ := !![1, I, 0, 0; 0, 0, I, 1; 0, 0, I, -1; 1, -I, 0, 0]

def magicMatrix : Matrix (Fin 4) (Fin 4) ℂ := rootHalf • magicVectors

theorem toSquare_magicBasis : (Kak.magicBasis : Operator ℝ).toSquare 4 = magicMatrix := by
  have hre : (⟨Scalar.invSqrtTwo, 0⟩ : Amplitude ℝ).toComplex = rootHalf := rfl
  have him : (⟨0, Scalar.invSqrtTwo⟩ : Amplitude ℝ).toComplex = rootHalf * I := by
    rw [Amplitude.toComplex_mk, ofReal_zero, zero_add]
    rfl
  rw [Kak.magicBasis, Operator.toSquare_ofFn]
  ext i j
  fin_cases i <;> fin_cases j <;> simp [magicMatrix, magicVectors, hre, him]

theorem magicMatrix_conjTranspose : magicMatrixᴴ = rootHalf • magicVectorsᴴ := by
  rw [magicMatrix, conjTranspose_smul, star_def, rootHalf, conj_ofReal]

theorem rootHalf_smul_mul_smul (A B : Matrix (Fin 4) (Fin 4) ℂ) :
    rootHalf • A * rootHalf • B = (1 / 2 : ℂ) • (A * B) := by
  rw [Matrix.smul_mul, Matrix.mul_smul, smul_smul, ← pow_two, rootHalf_sq]

theorem magicMatrix_unitary : magicMatrixᴴ * magicMatrix = 1 := by
  rw [magicMatrix_conjTranspose, magicMatrix, rootHalf_smul_mul_smul]
  ext i j
  fin_cases i <;> fin_cases j <;>
    simp [magicVectors, mul_apply, Fin.sum_univ_four] <;> norm_num

/-- What conjugation is in the magic basis: the basis states in reverse, with signs. -/
def magicFlip : Matrix (Fin 4) (Fin 4) ℂ := !![0, 0, 0, 1; 0, 0, -1, 0; 0, -1, 0, 0; 1, 0, 0, 0]

theorem magicMatrix_mul_transpose : magicMatrix * magicMatrixᵀ = magicFlip := by
  rw [magicMatrix, transpose_smul, rootHalf_smul_mul_smul]
  ext i j
  fin_cases i <;> fin_cases j <;>
    simp [magicVectors, magicFlip, vecMul, dotProduct, Fin.sum_univ_four] <;> norm_num

theorem eq_magicReal {W : Matrix (Fin 4) (Fin 4) ℂ} (h : magicFlip * W.map conj * magicFlip = W) :
    W = magicReal (W 0 0) (W 0 1) (W 1 0) (W 1 1) (W 2 0) (W 2 1) (W 3 0) (W 3 1) := by
  have hentry (i j : Fin 4) := (congrFun (congrFun h i) j).symm
  have h02 := hentry 0 2
  have h03 := hentry 0 3
  have h12 := hentry 1 2
  have h13 := hentry 1 3
  have h22 := hentry 2 2
  have h23 := hentry 2 3
  have h32 := hentry 3 2
  have h33 := hentry 3 3
  simp [magicFlip, mul_apply, vecMul, dotProduct, Fin.sum_univ_four]
    at h02 h03 h12 h13 h22 h23 h32 h33
  ext i j
  fin_cases i <;> fin_cases j <;> simp [magicReal, h02, h03, h12, h13, h22, h23, h32, h33]

theorem conjTranspose_of_real {K : Matrix (Fin 4) (Fin 4) ℂ} (h : K.map conj = K) : Kᴴ = Kᵀ := by
  conv_rhs => rw [← h]
  rfl

structure IsRotation (K : Matrix (Fin 4) (Fin 4) ℂ) : Prop where
  real : K.map conj = K
  orthogonal : Kᵀ * K = 1
  det : K.det = 1

theorem IsRotation.transpose {K : Matrix (Fin 4) (Fin 4) ℂ} (h : IsRotation K) : IsRotation Kᵀ where
  real := by rw [transpose_map, h.real]
  orthogonal := by rw [transpose_transpose, mul_eq_one_comm.mp h.orthogonal]
  det := by rw [det_transpose, h.det]

theorem IsRotation.exists_local {K : Matrix (Fin 4) (Fin 4) ℂ} (h : IsRotation K) :
    ∃ L R : Matrix (Fin 2) (Fin 2) ℂ, (Lᴴ * L = 1 ∧ L.det = 1) ∧ (Rᴴ * R = 1 ∧ R.det = 1) ∧
      magicMatrix * K * magicMatrixᴴ = tensor L R := by
  set B := magicMatrix
  set W := B * K * Bᴴ with hW
  have hB : Bᴴ * B = 1 := magicMatrix_unitary
  have hconj : W.map conj = B.map conj * K * Bᵀ := by
    have hadjoint : Bᴴ.map conj = Bᵀ := by
      ext i j
      exact conj_conj (B j i)
    rw [hW, Matrix.map_mul, Matrix.map_mul, h.real, hadjoint]
  have hBconj : Bᵀ * B.map conj = 1 := by
    have htranspose := congrArg Matrix.transpose hB
    rw [transpose_mul, transpose_one] at htranspose
    exact htranspose
  have hflip : magicFlip * W.map conj * magicFlip = W := by
    have hflipped : magicFlip = B.map conj * Bᴴ := by
      have hmap := congrArg (fun M : Matrix (Fin 4) (Fin 4) ℂ => M.map conj)
        magicMatrix_mul_transpose
      rw [Matrix.map_mul] at hmap
      have hself : magicFlip.map conj = magicFlip := by
        ext i j
        fin_cases i <;> fin_cases j <;> simp [magicFlip]
      rw [hself] at hmap
      exact hmap.symm
    calc magicFlip * W.map conj * magicFlip
        = B * Bᵀ * (B.map conj * K * Bᵀ) * (B.map conj * Bᴴ) := by
          rw [hconj, ← hflipped, magicMatrix_mul_transpose]
      _ = B * (Bᵀ * B.map conj) * K * (Bᵀ * B.map conj) * Bᴴ := by simp only [Matrix.mul_assoc]
      _ = W := by rw [hBconj, Matrix.mul_one, Matrix.mul_one]
  have hunit : Wᴴ * W = 1 := by
    have hB' : B * Bᴴ = 1 := mul_eq_one_comm.mp hB
    calc Wᴴ * W = B * (Kᴴ * (Bᴴ * B) * K) * Bᴴ := by
          simp only [hW, conjTranspose_mul, conjTranspose_conjTranspose, Matrix.mul_assoc]
      _ = 1 := by
          rw [hB, Matrix.mul_one, conjTranspose_of_real h.real, h.orthogonal, Matrix.mul_one, hB']
  have hdetW : W.det = 1 := by
    have hBdet := congrArg Matrix.det hB
    rw [det_mul, det_one] at hBdet
    rw [hW, det_mul, det_mul, h.det, mul_one, mul_comm, hBdet]
  have hform := eq_magicReal hflip
  rw [hform] at hunit hdetW
  obtain ⟨L, R, hL, hR, hLR⟩ := exists_tensor hunit hdetW
  exact ⟨L, R, hL, hR, hform.trans hLR⟩

def pauliX : Matrix (Fin 2) (Fin 2) ℂ := !![0, 1; 1, 0]

def pauliY : Matrix (Fin 2) (Fin 2) ℂ := !![0, -I; I, 0]

def pauliZ : Matrix (Fin 2) (Fin 2) ℂ := !![1, 0; 0, -1]

def couplings (a b c : ℝ) : Matrix (Fin 4) (Fin 4) ℂ :=
  (a : ℂ) • tensor pauliX pauliX + (b : ℂ) • tensor pauliY pauliY + (c : ℂ) • tensor pauliZ pauliZ

/-- The magic basis consists of eigenvectors of the couplings. -/
theorem couplings_eq_conj (a b c : ℝ) :
    couplings a b c = magicMatrix *
      diagonal ![(a - b + c : ℂ), -a + b + c, a + b - c, -a - b - c] * magicMatrixᴴ := by
  have hmove : magicMatrix * diagonal ![(a - b + c : ℂ), -a + b + c, a + b - c, -a - b - c] =
      couplings a b c * magicMatrix := by
    rw [couplings, pauliX, pauliY, pauliZ, tensor_two, tensor_two, tensor_two, magicMatrix,
      Matrix.smul_mul, Matrix.mul_smul]
    congr 1
    ext i j
    fin_cases i <;> fin_cases j <;>
      simp [magicVectors, mul_apply, Fin.sum_univ_four] <;> ring
  rw [hmove, Matrix.mul_assoc, mul_eq_one_comm.mp magicMatrix_unitary, Matrix.mul_one]

/-- The exponential of the couplings is diagonal in the magic basis. -/
theorem exp_couplings (a b c : ℝ) (t : Fin 4 → ℝ) (h0 : t 0 = a - b + c) (h1 : t 1 = -a + b + c)
    (h2 : t 2 = a + b - c) (h3 : t 3 = -a - b - c) :
    NormedSpace.exp (I • couplings a b c) =
      magicMatrix * diagonal (fun k => unitPhase (t k)) * magicMatrixᴴ := by
  have hinv : magicMatrix⁻¹ = magicMatrixᴴ := inv_eq_left_inv magicMatrix_unitary
  have hunit : IsUnit magicMatrix :=
    (isUnit_iff_isUnit_det _).mpr (isUnit_det_of_left_inverse magicMatrix_unitary)
  have hdiagonal : I • couplings a b c =
      magicMatrix * diagonal (fun k => (t k : ℂ) * I) * magicMatrix⁻¹ := by
    have hentries : ![(a - b + c : ℂ), -a + b + c, a + b - c, -a - b - c] = fun k => (t k : ℂ) := by
      funext k
      fin_cases k <;> simp [h0, h1, h2, h3]
    rw [couplings_eq_conj, hentries, hinv, ← Matrix.smul_mul, ← Matrix.mul_smul, ← diagonal_smul]
    congr 3
    funext k
    exact mul_comm _ _
  rw [hdiagonal, exp_conj _ _ hunit, exp_diagonal, hinv]
  congr 3
  funext k
  rw [Pi.coe_exp, ← exp_eq_exp_ℂ]
  rfl

/-- What is diagonal in the magic basis mixes the states of equal bits and those of different
bits. -/
theorem magicMatrix_mul_diagonal (d : Fin 4 → ℂ) :
    magicMatrix * diagonal d * magicMatrixᴴ =
      (1 / 2 : ℂ) • !![d 0 + d 1, 0, 0, d 0 - d 1; 0, d 2 + d 3, d 2 - d 3, 0;
        0, d 2 - d 3, d 2 + d 3, 0; d 0 - d 1, 0, 0, d 0 + d 1] := by
  rw [magicMatrix_conjTranspose, magicMatrix, Matrix.smul_mul, rootHalf_smul_mul_smul]
  congr 1
  have hI := I_sq
  ext i j
  fin_cases i <;> fin_cases j <;>
    simp [magicVectors, mul_apply, Fin.sum_univ_four, vecMul_diagonal] <;> grind

/-- The entries of the exponential: `c` turns the phases, `a - b` mixes the states of equal bits and
`a + b` those of different bits. -/
theorem exp_couplings_entries (a b c : ℝ) :
    NormedSpace.exp (I • couplings a b c) =
      !![unitPhase c * Real.cos (a - b), 0, 0, unitPhase c * (Real.sin (a - b) * I);
        0, unitPhase (-c) * Real.cos (a + b), unitPhase (-c) * (Real.sin (a + b) * I), 0;
        0, unitPhase (-c) * (Real.sin (a + b) * I), unitPhase (-c) * Real.cos (a + b), 0;
        unitPhase c * (Real.sin (a - b) * I), 0, 0, unitPhase c * Real.cos (a - b)] := by
  have hunit (x : ℝ) : unitPhase x = Real.cos x + Real.sin x * I := by
    rw [unitPhase, exp_mul_I, ofReal_cos, ofReal_sin]
  rw [exp_couplings a b c ![c + (a - b), c + -(a - b), -c + (a + b), -c + -(a + b)]
    (by simp; ring) (by simp; ring) (by simp; ring) (by simp; ring), magicMatrix_mul_diagonal]
  simp only [cons_val, unitPhase_add, hunit (a - b), hunit (a + b), hunit (-(a - b)),
    hunit (-(a + b)), Real.cos_neg, Real.sin_neg, ofReal_neg]
  ext i j
  fin_cases i <;> fin_cases j <;> simp <;> ring

namespace Kak
open Scalar RuleStep

def interactionSteps (a b c : ℝ) : List RuleStep :=
  [turn .rz [halfPi] 1, cx 1 0, turn .rz [halfPi - two * c] 0, turn .ry [halfPi - two * a] 1,
    cx 0 1, turn .ry [two * b - halfPi] 1, cx 1 0, turn .rz [-halfPi] 0]

/-- The two turns about `Y` act one after the other on the states that the middle CNOT leaves, and
against each other on those that it exchanges. -/
theorem turns_between (a b : ℝ) :
    let s := halfPi - 2 * a
    let t := 2 * b - halfPi
    (Real.cos (a - b) : ℂ) = cosHalf s * cosHalf t - sinHalf s * sinHalf t ∧
      (Real.sin (a - b) : ℂ) = -(sinHalf s * cosHalf t + cosHalf s * sinHalf t) ∧
      (Real.cos (a + b) : ℂ) = sinHalf s * cosHalf t - cosHalf s * sinHalf t ∧
      (Real.sin (a + b) : ℂ) = cosHalf s * cosHalf t + sinHalf s * sinHalf t := by
  intro s t
  have hadd : (s + t) / 2 = -(a - b) := by ring
  have hsub : (s + -t) / 2 = Real.pi / 2 - (a + b) := by
    rw [← halfPi_real]
    ring
  refine ⟨?_, ?_, ?_, ?_⟩
  · rw [← cosHalf_add, cosHalf, hadd, Real.cos_neg]
  · rw [← sinHalf_add, sinHalf, hadd, Real.sin_neg, ofReal_neg, neg_neg]
  · have h := sinHalf_add s (-t)
    rwa [sinHalf, hsub, Real.sin_pi_div_two_sub, cosHalf_neg, sinHalf_neg, mul_neg,
      ← sub_eq_add_neg] at h
  · have h := cosHalf_add s (-t)
    rwa [cosHalf, hsub, Real.cos_pi_div_two_sub, cosHalf_neg, sinHalf_neg, mul_neg,
      sub_neg_eq_add] at h

theorem interaction_steps (a b c : ℝ) :
    stepProduct 2 (interactionSteps a b c) =
      unitPhase (-(Real.pi / 4)) • (NormedSpace.exp (I • couplings a b c) : QubitMatrix 2) := by
  have hphase : unitPhase ((halfPi - 2 * c) / 2) = unitPhase (Real.pi / 4) * unitPhase (-c) := by
    rw [← unitPhase_add, ← halfPi_div_two]
    ring_nf
  have hphase' :
      unitPhase (-((halfPi - 2 * c) / 2)) = unitPhase (-(Real.pi / 4)) * unitPhase c := by
    rw [← unitPhase_add, ← halfPi_div_two]
    ring_nf
  obtain ⟨hcos, hsin, hcos', hsin'⟩ := turns_between a b
  have hI := I_sq
  have hroot := rootHalf_sq
  refine ext_two fun x y z w => ?_
  rw [exp_couplings_entries, hcos, hsin, hcos', hsin']
  simp +decide only [interactionSteps, stepProduct_cons_mulVec, stepProduct_nil_mulVec, turn_of_two,
    cx_of_two, smul_mulVec_two, Tag.exactMatrix_rz, Tag.exactMatrix_ry, two_real,
    hphase, hphase', halfPi_div_two, neg_div, neg_neg, unitPhase_quarterPi,
    unitPhase_neg_quarterPi]
  clear hcos hsin hcos' hsin' hphase hphase'
  simp
  refine ⟨?_, ?_, ?_, ?_⟩ <;> grind

theorem interaction_emitted (a b c : ℝ) :
    ∃ steps, interaction a b c = steps.mapM (fun step => step) ∧
      List.Forall₂ Emitted steps (interactionSteps a b c) := by
  refine ⟨[Substitute.rotation .rz halfPi 1, Substitute.fixed .cx [1, 0],
    Substitute.rotation .rz (halfPi - two * c) 0, Substitute.rotation .ry (halfPi - two * a) 1,
    Substitute.fixed .cx [0, 1], Substitute.rotation .ry (two * b - halfPi) 1,
    Substitute.fixed .cx [1, 0], Substitute.rotation .rz (-halfPi) 0], rfl, ?_⟩
  simp (disch := decide) [interactionSteps, Substitute.rotation, emitted_fixed, emitted_const]

/-- The interaction multiplies out to the exponential of the couplings, up to a phase. -/
theorem interaction_product (a b c : ℝ) :
    ∃ (seq : Synthesis.Sequence ℝ) (z : ℂ), interaction a b c = .ok seq ∧ ‖z‖ = 1 ∧
      timeProduct 2 (Synthesis.Sequence.actions seq) =
        some (z • NormedSpace.exp (I • couplings a b c)) := by
  obtain ⟨steps, hsteps, hemitted⟩ := interaction_emitted a b c
  obtain ⟨seq, hseq, -, hproduct⟩ := Synthesis.sequence_of_emitted hemitted 2
  refine ⟨seq, unitPhase (-(Real.pi / 4)), hsteps.trans hseq, norm_unitPhase _, ?_⟩
  rw [hproduct, interaction_steps]

end Kak

end Interchange
end
