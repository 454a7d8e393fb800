import Mathlib.LinearAlgebra.Matrix.IsDiag
import Mathlib.LinearAlgebra.UnitaryGroup
import Interchange.Proofs.MagicBasis
import Interchange.Proofs.TensorSplit

noncomputable section
namespace Interchange
open Matrix Complex ComplexConjugate

section

variable {K : Matrix (Fin 4) (Fin 4) ℂ}

theorem map_conj_of_orthogonal (hu : K ∈ unitaryGroup (Fin 4) ℂ) (ho : Kᵀ * K = 1) :
    K.map conj = K := by
  have hadjoint : Kᴴ = Kᵀ := left_inv_eq_left_inv (mem_unitaryGroup_iff'.mp hu) ho
  have htwice := congrArg transpose hadjoint
  rwa [transpose_transpose] at htwice

theorem det_of_orthogonal (h : Kᵀ * K = 1) : K.det = 1 ∨ K.det = -1 := by
  have hdet := congrArg det h
  rw [det_mul, det_transpose, det_one] at hdet
  exact mul_self_eq_one_iff.mp hdet

end

theorem unitPhase_arg {z : ℂ} (h : ‖z‖ = 1) : unitPhase z.arg = z := by
  have hz := norm_mul_exp_arg_mul_I z
  rwa [h, ofReal_one, one_mul] at hz

namespace Kak

/-- Turning the first vector round changes the sign of the determinant. -/
theorem exists_proper {p : Operator ℝ} (hdim : p.dim = 4)
    (horth : (p.toSquare 4)ᵀ * p.toSquare 4 = 1) :
    ∃ s : Fin 4 → ℂ, (∀ k, s k = 1 ∨ s k = -1) ∧ (properBasis p).dim = 4 ∧
      (properBasis p).toSquare 4 = p.toSquare 4 * diagonal s ∧
      ((properBasis p).toSquare 4).det = 1 := by
  have hdet : p.det.re = (p.toSquare 4).det.re := congrArg re (Operator.toComplex_det hdim)
  unfold properBasis
  by_cases hneg : p.det.re < 0
  · have hminus : (p.toSquare 4).det = -1 := by
      refine (det_of_orthogonal horth).resolve_left fun hone => ?_
      rw [hdet, hone, one_re] at hneg
      linarith
    have hturned : (Operator.ofFn 4 fun i j => if j = 0 then -p.get i j else p.get i j).toSquare 4 =
        p.toSquare 4 * diagonal ![-1, 1, 1, 1] := by
      rw [Operator.toSquare_ofFn]
      ext i j
      rw [mul_diagonal]
      fin_cases j <;> simp [Operator.toSquare]
    rw [if_pos hneg, hdim]
    refine ⟨![-1, 1, 1, 1], ?_, rfl, hturned, ?_⟩
    · intro k
      fin_cases k <;> simp
    · rw [hturned, det_mul, hminus, det_diagonal, Fin.prod_univ_four]
      simp
  · have hone : (p.toSquare 4).det = 1 := by
      refine (det_of_orthogonal horth).resolve_right fun hminus => hneg ?_
      rw [hdet, hminus]
      norm_num
    rw [if_neg hneg]
    exact ⟨1, fun _ => .inl rfl, hdim, by rw [diagonal_one', Matrix.mul_one], hone⟩

theorem toSquare_phases (t : Fin 4 → ℝ) :
    (phases [t 0, t 1, t 2, t 3]).toSquare 4 = diagonal fun k => unitPhase (-t k) := by
  unfold phases
  rw [Operator.toSquare_diagonal (d := 4) _ rfl]
  congr 1
  have hpolar (x : ℝ) : (Amplitude.polar 1 (-1 * x)).toComplex = unitPhase (-x) := by
    rw [Amplitude.toComplex_polar, ofReal_one, one_mul, neg_one_mul]
    rfl
  funext k
  fin_cases k <;> exact hpolar _

/-- Half the angles of the squares make a basis orthogonal. -/
theorem phased_orthogonal {C : Matrix (Fin 4) (Fin 4) ℂ} {z : Fin 4 → ℂ} {t : Fin 4 → ℝ}
    (hC : Cᵀ * C = diagonal z) (ht : ∀ k, unitPhase (t k + t k) = z k) :
    (C * diagonal fun k => unitPhase (-t k))ᵀ * (C * diagonal fun k => unitPhase (-t k)) = 1 := by
  rw [transpose_mul, diagonal_transpose, Matrix.mul_assoc, ← Matrix.mul_assoc Cᵀ, hC,
    diagonal_mul_diagonal, diagonal_mul_diagonal, ← diagonal_one]
  congr 1
  funext k
  rw [← ht k, unitPhase_add]
  linear_combination (unitPhase (-t k) * unitPhase (t k) + 1) * unitPhase_neg_mul (t k)

/-- A real orthogonal matrix whose columns are eigenvectors of another one. -/
structure IsEigenbasis (M P : Matrix (Fin 4) (Fin 4) ℂ) : Prop where
  real : P.map conj = P
  orthogonal : Pᵀ * P = 1
  diagonal : (Pᵀ * M * P).IsDiag

namespace IsEigenbasis

variable {M P V : Matrix (Fin 4) (Fin 4) ℂ}

theorem signed (h : IsEigenbasis M P) {s : Fin 4 → ℂ} (hs : ∀ k, s k = 1 ∨ s k = -1) :
    IsEigenbasis M (P * Matrix.diagonal s) where
  real := by
    have hconj : (Matrix.diagonal s).map conj = Matrix.diagonal s := by
      rw [diagonal_map (map_zero _)]
      congr 1
      funext k
      obtain hk | hk := hs k <;> simp [hk]
    rw [Matrix.map_mul, h.real, hconj]
  orthogonal := by
    rw [transpose_mul, diagonal_transpose, Matrix.mul_assoc, ← Matrix.mul_assoc Pᵀ, h.orthogonal,
      Matrix.one_mul, diagonal_mul_diagonal, ← diagonal_one]
    congr 1
    funext k
    obtain hk | hk := hs k <;> simp [hk]
  diagonal := by
    have hgroup : (P * Matrix.diagonal s)ᵀ * M * (P * Matrix.diagonal s) =
        Matrix.diagonal s * (Pᵀ * M * P) * Matrix.diagonal s := by
      rw [transpose_mul, diagonal_transpose]
      simp only [Matrix.mul_assoc]
    intro i j hij
    rw [hgroup, mul_diagonal, diagonal_mul, h.diagonal hij, mul_zero, zero_mul]

theorem mem_unitaryGroup (h : IsEigenbasis M P) : P ∈ unitaryGroup (Fin 4) ℂ := by
  rw [mem_unitaryGroup_iff', star_eq_conjTranspose, conjTranspose_of_real h.real, h.orthogonal]

/-- The eigenvalues of a symmetric square of a unitary lie on the unit circle. -/
theorem exists_values (h : IsEigenbasis (Vᵀ * V) P) (hV : V ∈ unitaryGroup (Fin 4) ℂ) :
    ∃ z : Fin 4 → ℂ, Pᵀ * (Vᵀ * V) * P = Matrix.diagonal z ∧ ∀ k, ‖z k‖ = 1 := by
  have hP := h.mem_unitaryGroup
  have hsquare : Pᵀ * (Vᵀ * V) * P ∈ unitaryGroup (Fin 4) ℂ :=
    mul_mem (mul_mem (transpose_mem_unitaryGroup_iff.mpr hP)
      (mul_mem (transpose_mem_unitaryGroup_iff.mpr hV) hV)) hP
  have hdiag := h.diagonal.diagonal_diag
  rw [← hdiag] at hsquare
  exact ⟨_, hdiag.symm,
    fun k => CStarRing.norm_of_mem_unitary (diagonal_mem_unitaryGroup.mp hsquare k)⟩

end IsEigenbasis

theorem exists_toSquare_inMagic {u : Operator ℝ} (hdim : u.dim = 4)
    (hu : u.toSquare 4 ∈ unitaryGroup (Fin 4) ℂ) :
    ∃ x : ℂ, ‖x‖ = 1 ∧
      (inMagic u).toSquare 4 = magicMatrixᴴ * (x • u.toSquare 4) * magicMatrix := by
  have hdet : ‖(u.toSquare 4).det‖ = 1 := CStarRing.norm_of_mem_unitary (det_of_mem_unitary hu)
  refine ⟨(u.det.pow (-(1 / Scalar.ofNat 4))).toComplex, ?_, ?_⟩
  · have hnorm : u.det.norm = 1 := by
      rw [Amplitude.norm_eq, Operator.toComplex_det hdim, hdet]
    have hpow : Scalar.pow u.det.norm (-(1 / Scalar.ofNat 4)) = 1 := by
      rw [hnorm]
      exact Real.one_rpow _
    rw [Amplitude.pow, hpow, Amplitude.toComplex_polar, ofReal_one, one_mul]
    exact norm_unitPhase _
  · unfold inMagic
    have hbasis : (magicBasis : Operator ℝ).dim = 4 := rfl
    have hdagger : (magicBasis : Operator ℝ).dagger.dim = 4 := rfl
    simp only [Operator.fusedMul_eq_mul]
    rw [Operator.toSquare_mul (a := magicBasis.dagger * _) hdagger, Operator.toSquare_mul hdagger,
      Operator.toSquare_dagger hbasis, Operator.toSquare_scale hdim, toSquare_magicBasis]

/-- The unitary that a decomposition stands for. -/
def toSquare (k : Kak ℝ) : Matrix (Fin 4) (Fin 4) ℂ :=
  tensor k.k1l.toMatrix k.k1r.toMatrix * NormedSpace.exp (I • couplings k.a k.b k.c) *
    tensor k.k2l.toMatrix k.k2r.toMatrix

theorem conj_mul_mul {B : Matrix (Fin 4) (Fin 4) ℂ} (hB : Bᴴ * B = 1)
    (X Y Z : Matrix (Fin 4) (Fin 4) ℂ) :
    B * (X * Y * Z) * Bᴴ = B * X * Bᴴ * (B * Y * Bᴴ) * (B * Z * Bᴴ) := by
  have hcancel (W : Matrix (Fin 4) (Fin 4) ℂ) : Bᴴ * (B * W) = W := by
    rw [← Matrix.mul_assoc, hB, Matrix.one_mul]
  simp only [Matrix.mul_assoc, hcancel]

theorem toSquare_gram {m : Operator ℝ} (hdim : m.dim = 4) :
    (gram m).toSquare 4 = (m.toSquare 4)ᵀ * m.toSquare 4 := by
  have htranspose : m.transpose.dim = 4 := hdim
  rw [gram, Operator.fusedMul_eq_mul, Operator.toSquare_mul htranspose,
    Operator.toSquare_transpose hdim]

/-- A real rotation in the magic basis is split into its local factors. -/
theorem exists_split_rotation {m : Operator ℝ} {K : Matrix (Fin 4) (Fin 4) ℂ}
    (hm : m.toSquare 4 = K) (hK : IsRotation K) :
    ∃ l r, split (magicBasis * m * magicBasis.dagger) = .ok (l, r) ∧
      tensor l.toMatrix r.toMatrix = magicMatrix * K * magicMatrixᴴ ∧
      l.toMatrix.det = 1 ∧ r.toMatrix.det = 1 := by
  have hbasis : (magicBasis : Operator ℝ).dim = 4 := rfl
  have hproduct : (magicBasis * m : Operator ℝ).dim = 4 := rfl
  obtain ⟨L, R, hL, hR, hLR⟩ := hK.exists_local
  have hsquare : (magicBasis * m * magicBasis.dagger).toSquare 4 = tensor L R := by
    rw [Operator.toSquare_mul hproduct, Operator.toSquare_mul hbasis,
      Operator.toSquare_dagger hbasis, toSquare_magicBasis, hm, hLR]
  obtain ⟨l, r, hsplit, htensor, hl, hr⟩ := split_tensor rfl hsquare hL hR
  exact ⟨l, r, hsplit, htensor.trans hLR.symm, hl, hr⟩

theorem halfAngles_eq {square q : Operator ℝ} (hq : q.dim = 4) {z : Fin 4 → ℂ}
    (hvalues : (q.toSquare 4)ᵀ * square.toSquare 4 * q.toSquare 4 = diagonal z) :
    halfAngles square q = [(z 0).arg / 2, (z 1).arg / 2, (z 2).arg / 2, (z 3).arg / 2] := by
  have htranspose : q.transpose.dim = 4 := hq
  have hproduct : (q.transpose * square).dim = 4 := hq
  have hsquare : (q.transpose * square * q).toSquare 4 = diagonal z := by
    rw [Operator.toSquare_mul hproduct, Operator.toSquare_mul htranspose,
      Operator.toSquare_transpose hq, hvalues]
  have hentry (k : Fin 4) :
      ((q.transpose * square * q).get k k).arg / Scalar.two = (z k).arg / 2 := by
    have hk := congrFun (congrFun hsquare k) k
    rw [diagonal_apply_eq] at hk
    rw [Scalar.two_real, ← hk]
    rfl
  unfold halfAngles
  rw [Operator.fusedMul_eq_mul, Operator.fusedMul_eq_mul, ← hentry 0, ← hentry 1, ← hentry 2,
    ← hentry 3]
  rfl

/-- The angles that are used are half the angles of the eigenvalues, and the phased basis has
determinant one. -/
theorem exists_angles {columns square q : Operator ℝ} (hdim : columns.dim = 4) (hq : q.dim = 4)
    {z : Fin 4 → ℂ} (hnorm : ∀ k, ‖z k‖ = 1)
    (hvalues : (q.toSquare 4)ᵀ * square.toSquare 4 * q.toSquare 4 = diagonal z)
    (hC : (columns.toSquare 4)ᵀ * columns.toSquare 4 = diagonal z) :
    ∃ t : Fin 4 → ℝ, adjust columns (halfAngles square q) = [t 0, t 1, t 2, t 3] ∧
      (∀ k, unitPhase (t k + t k) = z k) ∧
      (columns.toSquare 4 * diagonal fun k => unitPhase (-t k)).det = 1 := by
  let t : Fin 4 → ℝ := fun k => (z k).arg / 2
  have hlist : halfAngles square q = [t 0, t 1, t 2, t 3] := halfAngles_eq hq hvalues
  have hhalf (k : Fin 4) : unitPhase (t k + t k) = z k := by
    rw [add_halves]
    exact unitPhase_arg (hnorm k)
  have hdet : (columns * phases [t 0, t 1, t 2, t 3]).det.re =
      (columns.toSquare 4 * diagonal fun k => unitPhase (-t k)).det.re := by
    rw [← toSquare_phases, ← Operator.toSquare_mul hdim]
    have hproduct : (columns * phases [t 0, t 1, t 2, t 3]).dim = 4 := hdim
    exact congrArg re (Operator.toComplex_det hproduct)
  rw [hlist]
  unfold adjust
  by_cases hneg : (columns * phases [t 0, t 1, t 2, t 3]).det.re < 0
  · rw [if_pos hneg]
    have hminus : (columns.toSquare 4 * diagonal fun k => unitPhase (-t k)).det = -1 := by
      refine (det_of_orthogonal (phased_orthogonal hC hhalf)).resolve_left fun hone => ?_
      rw [hdet, hone, one_re] at hneg
      linarith
    refine ⟨![t 0 + Real.pi, t 1, t 2, t 3], rfl, ?_, ?_⟩
    · intro k
      rw [← hhalf k]
      -- a half turn on each of two factors is a full turn
      have hturn : unitPhase (t 0 + Real.pi + (t 0 + Real.pi)) = unitPhase (t 0 + t 0) := by
        simp only [unitPhase_add, unitPhase_pi]
        ring
      fin_cases k
      · exact hturn
      · rfl
      · rfl
      · rfl
    · rw [det_mul, det_diagonal, Fin.prod_univ_four] at hminus ⊢
      have hfirst : unitPhase (-(t 0 + Real.pi)) = -unitPhase (-t 0) := by
        rw [neg_add, unitPhase_add, unitPhase_neg_pi, mul_neg_one]
      change _ * (unitPhase (-(t 0 + Real.pi)) * unitPhase (-t 1) * unitPhase (-t 2) *
        unitPhase (-t 3)) = 1
      rw [hfirst]
      linear_combination -hminus
  · rw [if_neg hneg]
    refine ⟨t, rfl, hhalf, ?_⟩
    refine (det_of_orthogonal (phased_orthogonal hC hhalf)).resolve_right fun hminus => hneg ?_
    rw [hdet, hminus]
    norm_num

theorem eq_phased {V P : Matrix (Fin 4) (Fin 4) ℂ} (hP : Pᵀ * P = 1) (t : Fin 4 → ℝ) (m : ℝ) :
    V = unitPhase m • (V * P * (diagonal fun k => unitPhase (-t k)) *
      (diagonal fun k => unitPhase (t k - m)) * Pᵀ) := by
  have hphases : (diagonal fun k => unitPhase (-t k)) * (diagonal fun k => unitPhase (t k - m)) =
      unitPhase (-m) • (1 : Matrix (Fin 4) (Fin 4) ℂ) := by
    rw [diagonal_mul_diagonal, smul_one_eq_diagonal]
    congr 1
    funext k
    rw [← unitPhase_add]
    congr 1
    ring
  rw [Matrix.mul_assoc (V * P), hphases, Matrix.mul_smul, Matrix.mul_one, Matrix.smul_mul,
    smul_smul, mul_comm, unitPhase_neg_mul, one_smul, Matrix.mul_assoc, mul_eq_one_comm.mp hP,
    Matrix.mul_one]

theorem exists_rotation {turned q : Operator ℝ} (hturned : turned.dim = 4) (hq : q.dim = 4)
    (hunitary : turned.toSquare 4 ∈ unitaryGroup (Fin 4) ℂ)
    (hbasis : IsEigenbasis ((gram turned).toSquare 4) (q.toSquare 4)) :
    ∃ t : Fin 4 → ℝ, adjust (turned * q) (halfAngles (gram turned) q) = [t 0, t 1, t 2, t 3] ∧
      (turned * q * phases [t 0, t 1, t 2, t 3]).toSquare 4 =
        turned.toSquare 4 * q.toSquare 4 * (diagonal fun k => unitPhase (-t k)) ∧
      IsRotation (turned.toSquare 4 * q.toSquare 4 * diagonal fun k => unitPhase (-t k)) := by
  have hproduct : (turned * q).dim = 4 := hturned
  have hcolumns : (turned * q).toSquare 4 = turned.toSquare 4 * q.toSquare 4 :=
    Operator.toSquare_mul hturned
  rw [toSquare_gram hturned] at hbasis
  obtain ⟨z, hz, hnorm⟩ := hbasis.exists_values hunitary
  have hC : ((turned * q).toSquare 4)ᵀ * (turned * q).toSquare 4 = diagonal z := by
    rw [hcolumns, transpose_mul, ← hz]
    simp only [Matrix.mul_assoc]
  obtain ⟨t, ht, hsquares, hdet⟩ :=
    exists_angles hproduct hq hnorm (by rw [toSquare_gram hturned, hz]) hC
  have horth := phased_orthogonal hC hsquares
  rw [hcolumns] at horth hdet
  have hphased : turned.toSquare 4 * q.toSquare 4 * (diagonal fun k => unitPhase (-t k)) ∈
      unitaryGroup (Fin 4) ℂ :=
    mul_mem (mul_mem hunitary hbasis.mem_unitaryGroup)
      (diagonal_mem_unitaryGroup.mpr fun k => mem_unitary_of_norm (norm_unitPhase _))
  refine ⟨t, ht, ?_, map_conj_of_orthogonal hphased horth, horth, hdet⟩
  rw [Operator.toSquare_mul hproduct, hcolumns, toSquare_phases]

/-- The interaction that four angles stand for, between local factors. -/
def ofAngles (t₀ t₁ t₂ t₃ : ℝ) (first last : Unitary2 ℝ × Unitary2 ℝ) : Kak ℝ :=
  let mean := (t₀ + t₁ + t₂ + t₃) / Scalar.ofNat 4
  ⟨(t₀ - mean + (t₂ - mean)) / Scalar.two, (t₁ - mean + (t₂ - mean)) / Scalar.two,
    (t₀ - mean + (t₁ - mean)) / Scalar.two, last.1, last.2, first.1, first.2⟩

theorem decomposeWith_of_split {solver : Operator ℝ → Option (Operator ℝ)} {u p : Operator ℝ}
    (hdim : u.dim = 4) (hsolver : solver (gram (inMagic u)) = some p) {t : Fin 4 → ℝ}
    (ht : adjust (inMagic u * properBasis p) (halfAngles (gram (inMagic u)) (properBasis p)) =
      [t 0, t 1, t 2, t 3]) {first last : Unitary2 ℝ × Unitary2 ℝ}
    (hlast : split (magicBasis * (inMagic u * properBasis p * phases [t 0, t 1, t 2, t 3]) *
      magicBasis.dagger) = .ok last)
    (hfirst : split (magicBasis * (properBasis p).transpose * magicBasis.dagger) = .ok first) :
    decomposeWith solver u = .ok (ofAngles (t 0) (t 1) (t 2) (t 3) first last) := by
  unfold decomposeWith
  rw [if_neg (not_not.mpr hdim)]
  simp only [hsolver, ht, hlast, hfirst]
  have hsum : [t 0, t 1, t 2, t 3].foldl (· + ·) 0 = t 0 + t 1 + t 2 + t 3 := by
    change 0 + t 0 + t 1 + t 2 + t 3 = _
    rw [zero_add]
  rw [hsum]
  rfl

theorem toSquare_ofAngles (t : Fin 4 → ℝ) (first last : Unitary2 ℝ × Unitary2 ℝ) :
    (ofAngles (t 0) (t 1) (t 2) (t 3) first last).toSquare =
      tensor last.1.toMatrix last.2.toMatrix *
      (magicMatrix * (diagonal fun k => unitPhase (t k - (t 0 + t 1 + t 2 + t 3) / 4)) *
        magicMatrixᴴ) * tensor first.1.toMatrix first.2.toMatrix := by
  have hfour : (Scalar.ofNat 4 : ℝ) = 4 := Nat.cast_ofNat
  unfold toSquare
  rw [exp_couplings _ _ _ fun k => t k - (t 0 + t 1 + t 2 + t 3) / 4]
  · rfl
  all_goals
    simp only [ofAngles, Scalar.two_real, hfour]
    ring

/-- Where the solver finds an eigenbasis the decomposition succeeds, and its factors multiply out to
the unitary up to a phase. `decompose` is the case of the solver `eigenbasis?`. -/
theorem decomposeWith_toSquare {solver : Operator ℝ → Option (Operator ℝ)} {u p : Operator ℝ}
    (hdim : u.dim = 4) (hu : u.toSquare 4 ∈ unitaryGroup (Fin 4) ℂ)
    (hsolver : solver (gram (inMagic u)) = some p) (hp : p.dim = 4)
    (hbasis : IsEigenbasis ((gram (inMagic u)).toSquare 4) (p.toSquare 4)) :
    ∃ k, decomposeWith solver u = .ok k ∧ (∃ z : ℂ, ‖z‖ = 1 ∧ u.toSquare 4 = z • k.toSquare) ∧
      k.k1l.toMatrix.det = 1 ∧ k.k1r.toMatrix.det = 1 ∧
      k.k2l.toMatrix.det = 1 ∧ k.k2r.toMatrix.det = 1 := by
  obtain ⟨x, hx, hturned⟩ := exists_toSquare_inMagic hdim hu
  have hB : magicMatrix ∈ unitaryGroup (Fin 4) ℂ := mem_unitaryGroup_iff'.mpr magicMatrix_unitary
  have hunitary : (inMagic u).toSquare 4 ∈ unitaryGroup (Fin 4) ℂ := by
    rw [hturned]
    exact mul_mem (mul_mem (Unitary.star_mem hB)
      (Unitary.smul_mem_of_mem (mem_unitary_of_norm hx) hu)) hB
  obtain ⟨s, hs, hqdim, hQ, hQdet⟩ := exists_proper hp hbasis.orthogonal
  have hproper := hbasis.signed hs
  rw [← hQ] at hproper
  obtain ⟨t, ht, hphased, hlast⟩ := exists_rotation rfl hqdim hunitary hproper
  have hfirst : IsRotation ((properBasis p).toSquare 4) := ⟨hproper.real, hproper.orthogonal, hQdet⟩
  obtain ⟨l₁, r₁, hsplit₁, htensor₁, hl₁, hr₁⟩ := exists_split_rotation hphased hlast
  obtain ⟨l₂, r₂, hsplit₂, htensor₂, hl₂, hr₂⟩ :=
    exists_split_rotation (Operator.toSquare_transpose hqdim) hfirst.transpose
  refine ⟨_, decomposeWith_of_split hdim hsolver ht hsplit₁ hsplit₂, ?_, hl₁, hr₁, hl₂, hr₂⟩
  refine ⟨x⁻¹ * unitPhase ((t 0 + t 1 + t 2 + t 3) / 4), ?_, ?_⟩
  · rw [norm_mul, norm_inv, hx, norm_unitPhase, inv_one, one_mul]
  · have hright := mul_eq_one_comm.mp magicMatrix_unitary
    have hphase : x • u.toSquare 4 = unitPhase ((t 0 + t 1 + t 2 + t 3) / 4) •
        (ofAngles (t 0) (t 1) (t 2) (t 3) (l₂, r₂) (l₁, r₁)).toSquare := by
      rw [toSquare_ofAngles, htensor₁, htensor₂, ← conj_mul_mul magicMatrix_unitary,
        ← Matrix.smul_mul, ← Matrix.mul_smul, ← eq_phased hproper.orthogonal, hturned,
        ← Matrix.mul_assoc, ← Matrix.mul_assoc, hright, Matrix.one_mul, Matrix.mul_assoc, hright,
        Matrix.mul_one]
    have hx0 : x ≠ 0 := norm_ne_zero_iff.mp (hx.trans_ne one_ne_zero)
    rw [← smul_smul, ← hphase, smul_smul, inv_mul_cancel₀ hx0, one_smul]

/-- `exp(i pi/4 ZZ)` up to a phase: its square has two eigenvalues, each twice. -/
def quarterZZ : Operator ℝ := .diagonal [1, .I, .I, 1]

/-- The first two vectors exchanged, a basis of determinant minus one. -/
def exchangedBasis : Operator ℝ :=
  .ofFn 4 fun i j => if [1, 0, 2, 3].getD i 0 = j then 1 else 0

theorem toSquare_quarterZZ : quarterZZ.toSquare 4 = diagonal ![1, I, I, 1] := by
  unfold quarterZZ
  rw [Operator.toSquare_diagonal (d := 4) _ rfl]
  congr 1
  funext k
  fin_cases k <;> rfl

theorem toSquare_exchangedBasis :
    exchangedBasis.toSquare 4 = !![0, 1, 0, 0; 1, 0, 0, 0; 0, 0, 1, 0; 0, 0, 0, 1] := by
  rw [exchangedBasis, Operator.toSquare_ofFn]
  ext i j
  fin_cases i <;> fin_cases j <;> rfl

theorem quarterZZ_mem_unitaryGroup : quarterZZ.toSquare 4 ∈ unitaryGroup (Fin 4) ℂ := by
  rw [toSquare_quarterZZ, diagonal_mem_unitaryGroup]
  intro k
  apply mem_unitary_of_norm
  fin_cases k <;> simp

theorem isEigenbasis_exchangedBasis :
    IsEigenbasis ((gram (inMagic quarterZZ)).toSquare 4) (exchangedBasis.toSquare 4) := by
  obtain ⟨x, -, hx⟩ := exists_toSquare_inMagic rfl quarterZZ_mem_unitaryGroup
  have hmove : diagonal ![1, I, I, 1] * magicMatrix = magicMatrix * diagonal ![1, 1, I, I] := by
    rw [magicMatrix, Matrix.mul_smul, Matrix.smul_mul]
    congr 1
    ext i j
    rw [diagonal_mul, mul_diagonal]
    fin_cases i <;> fin_cases j <;> simp [magicVectors]
  have hturned : (inMagic quarterZZ).toSquare 4 = x • diagonal ![1, 1, I, I] := by
    rw [hx, toSquare_quarterZZ, Matrix.mul_smul, Matrix.smul_mul, Matrix.mul_assoc, hmove,
      ← Matrix.mul_assoc, magicMatrix_unitary, Matrix.one_mul]
  have hgram : (gram (inMagic quarterZZ)).toSquare 4 = (x * x) • diagonal ![1, 1, -1, -1] := by
    rw [toSquare_gram rfl, hturned, transpose_smul, diagonal_transpose, Matrix.smul_mul,
      Matrix.mul_smul, smul_smul, diagonal_mul_diagonal]
    congr 2
    funext k
    fin_cases k <;> simp
  rw [toSquare_exchangedBasis]
  refine ⟨?_, ?_, ?_⟩
  · ext i j
    fin_cases i <;> fin_cases j <;> simp
  · ext i j
    fin_cases i <;> fin_cases j <;> simp [mul_apply, Fin.sum_univ_four]
  · -- the two exchanged vectors have the same eigenvalue
    have hsame : !![0, 1, 0, 0; 1, 0, 0, 0; 0, 0, 1, 0; 0, 0, 0, 1]ᵀ * diagonal ![1, 1, -1, -1] *
        !![0, 1, 0, 0; 1, 0, 0, 0; 0, 0, 1, 0; 0, 0, 0, 1] = diagonal ![(1 : ℂ), 1, -1, -1] := by
      ext i j
      fin_cases i <;> fin_cases j <;> simp [mul_apply, Fin.sum_univ_four]
    rw [hgram, Matrix.mul_smul, Matrix.smul_mul, hsame]
    exact (isDiag_diagonal _).smul _

theorem decomposeWith_quarterZZ :
    ∃ k, decomposeWith (fun _ => some exchangedBasis) quarterZZ = .ok k ∧
      (∃ z : ℂ, ‖z‖ = 1 ∧ quarterZZ.toSquare 4 = z • k.toSquare) ∧
      k.k1l.toMatrix.det = 1 ∧ k.k1r.toMatrix.det = 1 ∧
      k.k2l.toMatrix.det = 1 ∧ k.k2r.toMatrix.det = 1 :=
  decomposeWith_toSquare rfl quarterZZ_mem_unitaryGroup rfl rfl isEigenbasis_exchangedBasis

end Kak

end Interchange
end
