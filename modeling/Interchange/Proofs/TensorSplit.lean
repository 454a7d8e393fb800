import Interchange.Proofs.LocalFactor
import Interchange.Synthesis.Kak

noncomputable section
namespace Interchange
open Matrix Complex ComplexConjugate

theorem Scalar.isNegative_iff {x : ℝ} : isNegative x = true ↔ x < 0 := decide_eq_true_iff

namespace Amplitude

theorem toComplex_sq_eq {x y : Amplitude ℝ} (hre : x.re * x.re - x.im * x.im = y.re)
    (him : 2 * (x.re * x.im) = y.im) : x.toComplex ^ 2 = y.toComplex := by
  rw [pow_two]
  apply Complex.ext
  · rw [mul_re]
    exact hre
  · rw [mul_im]
    change x.re * x.im + x.im * x.re = y.im
    linarith

/-! ### The cases in which a square root is taken -/

theorem toComplex_sqrt_of_real (re : ℝ) :
    (sqrt ⟨re, 0⟩).toComplex ^ 2 = (⟨re, 0⟩ : Amplitude ℝ).toComplex := by
  unfold sqrt
  dsimp only
  rw [if_pos ((Scalar.beq_iff _ _).mpr rfl)]
  by_cases hneg : Scalar.isNegative re = true
  · have hs := Real.mul_self_sqrt (neg_nonneg.mpr (Scalar.isNegative_iff.mp hneg).le)
    rw [if_pos hneg, if_neg (mt Scalar.isNegative_iff.mp (lt_irrefl 0))]
    apply toComplex_sq_eq
    · change 0 * 0 - Real.sqrt (-re) * Real.sqrt (-re) = re
      linarith
    · change 2 * (0 * Real.sqrt (-re)) = 0
      ring
  · have hs := Real.mul_self_sqrt (not_lt.mp (mt Scalar.isNegative_iff.mpr hneg))
    rw [if_neg hneg]
    apply toComplex_sq_eq
    · change Real.sqrt re * Real.sqrt re - 0 * 0 = re
      linarith
    · change 2 * (Real.sqrt re * 0) = 0
      ring

theorem toComplex_sqrt_of_imaginary {im : ℝ} (him : ¬ (im == 0) = true) :
    (sqrt ⟨0, im⟩).toComplex ^ 2 = (⟨0, im⟩ : Amplitude ℝ).toComplex := by
  have hs : Real.sqrt (|im| / Scalar.two) * Real.sqrt (|im| / Scalar.two) = |im| / 2 := by
    rw [Scalar.two_real]
    exact Real.mul_self_sqrt (by positivity)
  unfold sqrt
  dsimp only
  rw [if_neg him, if_pos ((Scalar.beq_iff _ _).mpr rfl)]
  by_cases hneg : Scalar.isNegative im = true
  · have habs : |im| = -im := abs_of_neg (Scalar.isNegative_iff.mp hneg)
    rw [if_pos hneg]
    apply toComplex_sq_eq
    · change _ * _ - -_ * -_ = (0 : ℝ)
      ring
    · change 2 * (Real.sqrt (|im| / Scalar.two) * -Real.sqrt (|im| / Scalar.two)) = im
      linarith
  · have habs : |im| = im := abs_of_nonneg (not_lt.mp (mt Scalar.isNegative_iff.mpr hneg))
    rw [if_neg hneg]
    apply toComplex_sq_eq
    · change _ * _ - _ * _ = (0 : ℝ)
      ring
    · change 2 * (Real.sqrt (|im| / Scalar.two) * Real.sqrt (|im| / Scalar.two)) = im
      linarith

theorem toComplex_sqrt_of_polar {x : Amplitude ℝ} (him : ¬ (x.im == 0) = true)
    (hre : ¬ (x.re == 0) = true) : x.sqrt.toComplex ^ 2 = x.toComplex := by
  have hnorm : ((Real.sqrt ‖toComplex x‖ : ℝ) : ℂ) ^ 2 = ‖toComplex x‖ := by
    exact_mod_cast Real.sq_sqrt (norm_nonneg (toComplex x))
  have hangle : ((2 : ℕ) : ℂ) * ((x.arg / Scalar.two : ℝ) * Complex.I) =
      (toComplex x).arg * Complex.I := by
    have harg : x.arg = (toComplex x).arg := rfl
    rw [Scalar.two_real, harg]
    push_cast
    ring
  unfold sqrt
  rw [if_neg him, if_neg hre, toComplex_polar, mul_pow, ← Complex.exp_nat_mul, norm_eq, hangle]
  change ((Real.sqrt ‖toComplex x‖ : ℝ) : ℂ) ^ 2 * _ = _
  rw [hnorm, norm_mul_exp_arg_mul_I]

theorem toComplex_sqrt_sq (x : Amplitude ℝ) : x.sqrt.toComplex ^ 2 = x.toComplex := by
  obtain ⟨re, im⟩ := x
  by_cases him : (im == 0) = true
  · obtain rfl := (Scalar.beq_iff im 0).mp him
    exact toComplex_sqrt_of_real re
  · by_cases hre : (re == 0) = true
    · obtain rfl := (Scalar.beq_iff re 0).mp hre
      exact toComplex_sqrt_of_imaginary him
    · exact toComplex_sqrt_of_polar him hre

/-- The square root of one is one, not minus one. -/
theorem toComplex_sqrt_of_one {x : Amplitude ℝ} (h : x.toComplex = 1) : x.sqrt.toComplex = 1 := by
  obtain rfl : x = ⟨1, 0⟩ := toComplex_injective h
  unfold sqrt
  dsimp only
  rw [if_pos ((Scalar.beq_iff _ _).mpr rfl),
    if_neg (mt Scalar.isNegative_iff.mp (not_lt.mpr zero_le_one))]
  exact Complex.ext Real.sqrt_one rfl

end Amplitude

namespace Unitary2

def toMatrix (u : Unitary2 ℝ) : Matrix (Fin 2) (Fin 2) ℂ :=
  !![u.a.toComplex, u.b.toComplex; u.c.toComplex, u.d.toComplex]

theorem toComplex_det (u : Unitary2 ℝ) : u.det.toComplex = u.toMatrix.det := by
  rw [toMatrix, det_fin_two_of]
  rfl

theorem toMatrix_dagger (u : Unitary2 ℝ) : u.dagger.toMatrix = u.toMatrixᴴ := by
  ext i j
  fin_cases i <;> fin_cases j <;> rfl

theorem toSquare_toOperator (u : Unitary2 ℝ) : u.toOperator.toSquare 2 = u.toMatrix := by
  rw [toOperator, Operator.toSquare_ofFn]
  ext i j
  fin_cases i <;> fin_cases j <;> rfl

theorem toMatrix_toSpecial (u : Unitary2 ℝ) :
    u.toSpecial.toMatrix = u.det.sqrt.toComplex⁻¹ • u.toMatrix := by
  ext i j
  fin_cases i <;> fin_cases j <;>
    simp [toSpecial, scale, toMatrix, mul_comm]

/-- A multiple of a matrix of determinant one is made that matrix, up to a sign. -/
theorem toSpecial_of_smul {u : Unitary2 ℝ} {R : Matrix (Fin 2) (Fin 2) ℂ} {l : ℂ} (hR : R.det = 1)
    (hl : l ≠ 0) (hu : u.toMatrix = l • R) : ∃ s : ℂ, s * s = 1 ∧ u.toSpecial.toMatrix = s • R := by
  have hroot : u.det.sqrt.toComplex ^ 2 = l ^ 2 := by
    rw [Amplitude.toComplex_sqrt_sq, toComplex_det, hu, det_smul, hR, mul_one, Fintype.card_fin]
  refine ⟨u.det.sqrt.toComplex⁻¹ * l, ?_, by rw [toMatrix_toSpecial, hu, smul_smul]⟩
  have hne : u.det.sqrt.toComplex ≠ 0 := by
    intro hzero
    rw [hzero, zero_pow two_ne_zero] at hroot
    exact hl (pow_eq_zero_iff two_ne_zero |>.mp hroot.symm)
  field_simp
  exact hroot.symm

theorem toSpecial_of_det_one {u : Unitary2 ℝ} (h : u.toMatrix.det = 1) :
    u.toSpecial.toMatrix = u.toMatrix := by
  rw [toMatrix_toSpecial, Amplitude.toComplex_sqrt_of_one (by rw [toComplex_det, h]), inv_one,
    one_smul]

end Unitary2

namespace Kak

variable {w : Operator ℝ} {L R : Matrix (Fin 2) (Fin 2) ℂ}

theorem tenth_one : (Scalar.tenth 1 : ℝ) = 1 / 10 := by
  change ((1 : ℕ) : ℝ) * (10 : ℝ) ^ (-((1 : ℕ) : ℤ)) = 1 / 10
  norm_num

theorem toMatrix_block_zero (hw : w.toSquare 4 = tensor L R) :
    (block w 0).toMatrix = L 0 0 • R := by
  have hentry (i j : Fin 4) : (w.get i j).toComplex = tensor L R i j := congrFun (congrFun hw i) j
  ext i j
  fin_cases i <;> fin_cases j
  · exact hentry 0 0
  · exact hentry 0 1
  · exact hentry 1 0
  · exact hentry 1 1

theorem toMatrix_block_two (hw : w.toSquare 4 = tensor L R) :
    (block w 2).toMatrix = L 1 0 • R := by
  have hentry (i j : Fin 4) : (w.get i j).toComplex = tensor L R i j := congrFun (congrFun hw i) j
  ext i j
  fin_cases i <;> fin_cases j
  · exact hentry 2 0
  · exact hentry 2 1
  · exact hentry 3 0
  · exact hentry 3 1

/-- The block that is read off: not small, and a multiple of the right factor. -/
theorem exists_found (hw : w.toSquare 4 = tensor L R) (hL : Lᴴ * L = 1) (hR : R.det = 1) :
    isSmall (foundBlock w) = false ∧ ∃ l : ℂ, l ≠ 0 ∧ (foundBlock w).toMatrix = l • R := by
  have hlength : ‖L 0 0‖ ^ 2 + ‖L 1 0‖ ^ 2 = 1 := by
    have h00 := congrFun (congrFun hL 0) 0
    simp only [mul_apply, Fin.sum_univ_two, conjTranspose_apply, one_apply_eq, star_def,
      conj_mul'] at h00
    exact_mod_cast h00
  have hsmall {v : Unitary2 ℝ} {l : ℂ} (hv : v.toMatrix = l • R) :
      isSmall v = decide (‖l‖ ^ 2 < 1 / 10) := by
    rw [isSmall, tenth_one, Amplitude.norm_eq, Unitary2.toComplex_det, hv, det_smul, hR, mul_one,
      Fintype.card_fin, norm_pow]
  have hpos {l : ℂ} (hl : 1 / 10 ≤ ‖l‖ ^ 2) : l ≠ 0 := by
    rintro rfl
    norm_num at hl
  have h0 := toMatrix_block_zero hw
  have h2 := toMatrix_block_two hw
  unfold foundBlock
  by_cases hfirst : isSmall (block w 0) = true
  · have hlarge : 1 / 10 ≤ ‖L 1 0‖ ^ 2 := by
      rw [hsmall h0, decide_eq_true_iff] at hfirst
      linarith
    rw [if_pos hfirst, hsmall h2]
    exact ⟨decide_eq_false (not_lt.mpr hlarge), L 1 0, hpos hlarge, h2⟩
  · have hlarge : 1 / 10 ≤ ‖L 0 0‖ ^ 2 := by
      rw [hsmall h0, decide_eq_true_iff] at hfirst
      exact not_lt.mp hfirst
    rw [if_neg hfirst]
    exact ⟨Bool.eq_false_iff.mpr hfirst, L 0 0, hpos hlarge, h0⟩

/-- Where the right factor has determinant one it is found up to a sign, and dividing it out leaves
the left one with the same sign. -/
theorem exists_split (hdim : w.dim = 4) (hw : w.toSquare 4 = tensor L R) (hL : Lᴴ * L = 1)
    (hR : Rᴴ * R = 1 ∧ R.det = 1) :
    ∃ (s : ℂ) (u r : Unitary2 ℝ), s * s = 1 ∧ split w = .ok (u.toSpecial, r) ∧
      u.toMatrix = s • L ∧ r.toMatrix = s • R := by
  obtain ⟨hsmall, x, hx, hfound⟩ := exists_found hw hL hR.2
  obtain ⟨s, hs, hright⟩ := Unitary2.toSpecial_of_smul hR.2 hx hfound
  have hconj : conj s = s := by
    rcases mul_self_eq_one_iff.mp hs with rfl | rfl <;> simp
  unfold Kak.split
  dsimp only
  rw [if_neg (Bool.eq_false_iff.mp hsmall)]
  refine ⟨s, _, _, hs, rfl, ?_, hright⟩
  set found := foundBlock w
  set t := w * (Operator.identity 2).kron found.toSpecial.dagger.toOperator
  have ht : t.toSquare 4 = tensor (s • L) (1 : Matrix (Fin 2) (Fin 2) ℂ) := by
    have hkron : ((Operator.identity 2).kron found.toSpecial.dagger.toOperator).toSquare 4 =
        tensor (1 : Matrix (Fin 2) (Fin 2) ℂ) (s • R)ᴴ := by
      rw [← hright, ← Unitary2.toMatrix_dagger, ← Unitary2.toSquare_toOperator,
        ← Operator.toSquare_identity 2]
      exact Operator.toSquare_kron (m := 2) (n := 2) rfl rfl
    have hRR : R * Rᴴ = 1 := mul_eq_one_comm.mp hR.1
    rw [Operator.toSquare_mul hdim, hw, hkron]
    refine (tensor_mul_tensor L 1 R (s • R)ᴴ).trans ?_
    rw [mul_one, conjTranspose_smul, Matrix.mul_smul, hRR, star_def, hconj, tensor_smul,
      smul_tensor]
  have hentry (i j : Fin 4) :
      (t.get i j).toComplex = tensor (s • L) (1 : Matrix (Fin 2) (Fin 2) ℂ) i j :=
    congrFun (congrFun ht i) j
  ext i j
  fin_cases i <;> fin_cases j
  · exact (hentry 0 0).trans (mul_one _)
  · exact (hentry 0 2).trans (mul_one _)
  · exact (hentry 2 0).trans (mul_one _)
  · exact (hentry 2 2).trans (mul_one _)

theorem det_smul_of_sq {M : Matrix (Fin 2) (Fin 2) ℂ} {s : ℂ} (hs : s * s = 1) (hM : M.det = 1) :
    (s • M).det = 1 := by
  rw [det_smul, hM, Fintype.card_fin, mul_one, pow_two, hs]

theorem split_tensor (hdim : w.dim = 4) (hw : w.toSquare 4 = tensor L R)
    (hL : Lᴴ * L = 1 ∧ L.det = 1) (hR : Rᴴ * R = 1 ∧ R.det = 1) :
    ∃ l r, split w = .ok (l, r) ∧ tensor l.toMatrix r.toMatrix = tensor L R ∧
      l.toMatrix.det = 1 ∧ r.toMatrix.det = 1 := by
  obtain ⟨s, u, r, hs, hsplit, hu, hr⟩ := exists_split hdim hw hL.1 hR
  refine ⟨u.toSpecial, r, hsplit, ?_⟩
  have hspecial := Unitary2.toSpecial_of_det_one (hu ▸ det_smul_of_sq hs hL.2)
  rw [hspecial, hu, hr, smul_tensor_smul, hs, one_smul]
  exact ⟨rfl, det_smul_of_sq hs hL.2, det_smul_of_sq hs hR.2⟩

theorem smul_unitary {U : Matrix (Fin 2) (Fin 2) ℂ} {x : ℂ} (hx : ‖x‖ = 1) (hU : Uᴴ * U = 1) :
    (x • U)ᴴ * (x • U) = 1 := by
  rw [conjTranspose_smul, Matrix.smul_mul, Matrix.mul_smul, hU, smul_smul, star_def, conj_mul', hx,
    ofReal_one, one_pow, one_smul]

/-- A unitary matrix is a phase times one of determinant one. -/
theorem exists_special {U : Matrix (Fin 2) (Fin 2) ℂ} (h : Uᴴ * U = 1) :
    ∃ (x : ℂ) (V : Matrix (Fin 2) (Fin 2) ℂ), ‖x‖ = 1 ∧ (Vᴴ * V = 1 ∧ V.det = 1) ∧ U = x • V := by
  obtain ⟨x, hx⟩ := IsAlgClosed.exists_eq_mul_self U.det
  have hnorm : ‖x‖ = 1 := by
    have hdet := congrArg det h
    rw [det_mul, det_conjTranspose, det_one, star_def, conj_mul', hx, norm_mul] at hdet
    have hfour : (‖x‖ * ‖x‖) ^ 2 = 1 := by exact_mod_cast hdet
    have hsq := (pow_eq_one_iff_of_nonneg (by positivity) two_ne_zero).mp hfour
    exact (mul_self_eq_one_iff.mp hsq).resolve_right (by linarith [norm_nonneg x])
  have hx0 : x ≠ 0 := norm_ne_zero_iff.mp (hnorm.trans_ne one_ne_zero)
  refine ⟨x, x⁻¹ • U, hnorm, ⟨smul_unitary (by rw [norm_inv, hnorm, inv_one]) h, ?_⟩,
    (smul_inv_smul₀ hx0 U).symm⟩
  rw [det_smul, Fintype.card_fin, hx]
  field_simp

theorem norm_of_mul_self {s : ℂ} (hs : s * s = 1) : ‖s‖ = 1 := by
  rcases mul_self_eq_one_iff.mp hs with rfl | rfl <;> simp

/-- A phase times a tensor product of unitary matrices is split into factors of determinant one,
whose product differs from it by a phase. -/
theorem split_smul_tensor {z : ℂ} (hdim : w.dim = 4) (hw : w.toSquare 4 = z • tensor L R)
    (hz : ‖z‖ = 1) (hL : Lᴴ * L = 1) (hR : Rᴴ * R = 1) :
    ∃ (l r : Unitary2 ℝ) (x : ℂ), split w = .ok (l, r) ∧ l.toMatrix.det = 1 ∧ r.toMatrix.det = 1 ∧
      ‖x‖ = 1 ∧ tensor l.toMatrix r.toMatrix = x • tensor L R := by
  obtain ⟨x, L', hx, hL', rfl⟩ := exists_special hL
  obtain ⟨y, R', hy, hR', rfl⟩ := exists_special hR
  -- the left factor takes all phases, and loses them when its determinant is made one
  have hw' : w.toSquare 4 = tensor ((z * (x * y)) • L') R' := by
    rw [hw, smul_tensor_smul, smul_tensor, smul_smul]
  have hxy : ‖x * y‖ = 1 := by rw [norm_mul, hx, hy, one_mul]
  have hphase : ‖z * (x * y)‖ = 1 := by rw [norm_mul, hz, hxy, one_mul]
  obtain ⟨s, u, r, hs, hsplit, hu, hr⟩ := exists_split hdim hw' (smul_unitary hphase hL'.1) hR'
  have hne : s * (z * (x * y)) ≠ 0 := norm_ne_zero_iff.mp
    (by rw [norm_mul, norm_of_mul_self hs, hphase, one_mul]; exact one_ne_zero)
  obtain ⟨t, ht, hl⟩ := Unitary2.toSpecial_of_smul hL'.2 hne (hu.trans (smul_smul s _ L'))
  refine ⟨u.toSpecial, r, t * s * (x * y)⁻¹, hsplit, ?_, ?_, ?_, ?_⟩
  · rw [hl]
    exact det_smul_of_sq ht hL'.2
  · rw [hr]
    exact det_smul_of_sq hs hR'.2
  · rw [norm_mul, norm_mul, norm_inv, hxy, norm_of_mul_self hs, norm_of_mul_self ht]
    norm_num
  · have hxy0 : x * y ≠ 0 := norm_ne_zero_iff.mp (hxy.trans_ne one_ne_zero)
    rw [hl, hr, smul_tensor_smul, smul_tensor_smul, smul_smul, inv_mul_cancel_right₀ hxy0]

theorem toSquare_product (L R : Unitary2 ℝ) (z : Amplitude ℝ) :
    ((L.toOperator.kron R.toOperator).map (· * z)).toSquare 4 =
      z.toComplex • tensor L.toMatrix R.toMatrix := by
  rw [Operator.toSquare_scale (show (L.toOperator.kron R.toOperator).dim = 4 from rfl),
    ← L.toSquare_toOperator, ← R.toSquare_toOperator]
  exact congrArg _ (Operator.toSquare_kron (m := 2) (n := 2) rfl rfl)

/-- A phase times the tensor product of any two unitary matrices is split into factors of
determinant one, and their product is the tensor product again, up to a phase. -/
theorem split_recovers {L R : Unitary2 ℝ} {z : Amplitude ℝ}
    (hL : L.toMatrix ∈ unitaryGroup (Fin 2) ℂ) (hR : R.toMatrix ∈ unitaryGroup (Fin 2) ℂ)
    (hz : z.norm = 1) :
    ∃ (l r : Unitary2 ℝ) (x : Amplitude ℝ),
      split ((L.toOperator.kron R.toOperator).map (· * z)) = .ok (l, r) ∧ l.det = 1 ∧ r.det = 1 ∧
      x.norm = 1 ∧
      l.toOperator.kron r.toOperator = (L.toOperator.kron R.toOperator).map (· * x) := by
  rw [Amplitude.norm_eq] at hz
  obtain ⟨l, r, x, hsplit, hl, hr, hx, htensor⟩ := split_smul_tensor rfl (toSquare_product L R z) hz
    (mem_unitaryGroup_iff'.mp hL) (mem_unitaryGroup_iff'.mp hR)
  have hdet {u : Unitary2 ℝ} (hu : u.toMatrix.det = 1) : u.det = 1 :=
    Amplitude.toComplex_injective (u.toComplex_det.trans hu)
  refine ⟨l, r, ⟨x.re, x.im⟩, hsplit, hdet hl, hdet hr, ?_, ?_⟩
  · rw [Amplitude.norm_eq]
    exact hx
  · refine Operator.ext_toSquare (d := 4) rfl rfl ?_
    rw [toSquare_product]
    refine Eq.trans ?_ htensor
    rw [← l.toSquare_toOperator, ← r.toSquare_toOperator]
    exact Operator.toSquare_kron (m := 2) (n := 2) rfl rfl

/-- The first block of a flip and a phase vanishes, so the second one is read. -/
theorem split_recovers_flip :
    let flip : Unitary2 ℝ := ⟨0, 1, 1, 0⟩
    let turn : Unitary2 ℝ := ⟨1, 0, 0, .I⟩
    flip.toMatrix ∈ unitaryGroup (Fin 2) ℂ ∧ turn.toMatrix ∈ unitaryGroup (Fin 2) ℂ ∧
    (.I : Amplitude ℝ).norm = 1 ∧
    ∃ (l r : Unitary2 ℝ) (x : Amplitude ℝ),
      split ((flip.toOperator.kron turn.toOperator).map (· * .I)) = .ok (l, r) ∧ l.det = 1 ∧
      r.det = 1 ∧ x.norm = 1 ∧
      l.toOperator.kron r.toOperator = (flip.toOperator.kron turn.toOperator).map (· * x) := by
  have hflip : (⟨0, 1, 1, 0⟩ : Unitary2 ℝ).toMatrix ∈ unitaryGroup (Fin 2) ℂ := by
    rw [mem_unitaryGroup_iff', star_eq_conjTranspose]
    ext i j
    fin_cases i <;> fin_cases j <;> simp [Unitary2.toMatrix, mul_apply, conjTranspose_apply]
  have hturn : (⟨1, 0, 0, .I⟩ : Unitary2 ℝ).toMatrix ∈ unitaryGroup (Fin 2) ℂ := by
    rw [mem_unitaryGroup_iff', star_eq_conjTranspose]
    ext i j
    fin_cases i <;> fin_cases j <;> simp [Unitary2.toMatrix, mul_apply, conjTranspose_apply]
  have hI : (.I : Amplitude ℝ).norm = 1 := by rw [Amplitude.norm_eq, Amplitude.toComplex_I, norm_I]
  exact ⟨hflip, hturn, hI, split_recovers hflip hturn hI⟩

end Kak

end Interchange
end
