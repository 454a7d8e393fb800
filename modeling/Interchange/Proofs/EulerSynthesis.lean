import Mathlib.Analysis.SpecialFunctions.Trigonometric.Bounds
import Mathlib.Tactic.FinCases
import Mathlib.Tactic.LinearCombination
import Mathlib.Tactic.Set
import Interchange.Proofs.KakFactors
import Interchange.Proofs.Memoization
import Interchange.Proofs.OperatorMatrix

noncomputable section
namespace Interchange
open Matrix Complex ComplexConjugate

theorem unitPhase_arg_mul_norm (z : ℂ) : unitPhase z.arg * ‖z‖ = z := by
  rw [mul_comm]
  exact norm_mul_exp_arg_mul_I z

theorem unitPhase_neg_arg_mul_norm (z : ℂ) : unitPhase (-z.arg) * ‖z‖ = conj z := by
  conv_rhs => rw [← unitPhase_arg_mul_norm z]
  rw [map_mul, conj_ofReal, unitPhase, unitPhase, ← exp_conj, map_mul, conj_ofReal, conj_I,
    ofReal_neg, neg_mul, mul_neg]

namespace Amplitude

theorem re_sqrt_nonneg (x : Amplitude ℝ) : 0 ≤ x.sqrt.re := by
  unfold sqrt
  split_ifs
  · exact le_rfl
  · exact le_rfl
  · exact Real.sqrt_nonneg _
  · exact Real.sqrt_nonneg _
  · exact Real.sqrt_nonneg _
  · obtain ⟨hlow, hhigh⟩ := abs_le.mp (abs_arg_le_pi x.toComplex)
    refine mul_nonneg (Real.sqrt_nonneg _) ?_
    change 0 ≤ Real.cos (x.toComplex.arg / Scalar.two)
    rw [Scalar.two_real]
    exact Real.cos_nonneg_of_neg_pi_div_two_le_of_le (by linarith) (by linarith)

theorem toComplex_sqrt_of_norm_one {x : Amplitude ℝ} (h : ‖x.toComplex‖ = 1) :
    x.sqrt.toComplex = unitPhase (x.toComplex.arg / 2) := by
  have hcos : (unitPhase (x.toComplex.arg / 2)).re = Real.cos (x.toComplex.arg / 2) :=
    exp_ofReal_mul_I_re _
  by_cases hpi : x.toComplex.arg = Real.pi
  · -- both roots of minus one are imaginary, so that here it counts how the root is taken
    obtain rfl : x = ⟨-1, 0⟩ := by
      apply toComplex_injective
      rw [← unitPhase_arg h, hpi, unitPhase_pi]
      simp
    have hroot : (sqrt ⟨-1, 0⟩ : Amplitude ℝ) = ⟨0, Real.sqrt (- -1)⟩ := by
      unfold sqrt
      rw [if_pos ((Scalar.beq_iff _ _).mpr rfl), if_pos (Scalar.isNegative_iff.mpr neg_one_lt_zero)]
      exact congrArg (Amplitude.mk 0) (if_neg (mt Scalar.isNegative_iff.mp (lt_irrefl 0)))
    rw [hpi, hroot, neg_neg, Real.sqrt_one, unitPhase]
    push_cast
    rw [exp_pi_div_two_mul_I]
    simp
  · have hsq : x.sqrt.toComplex ^ 2 = unitPhase (x.toComplex.arg / 2) ^ 2 := by
      rw [toComplex_sqrt_sq, pow_two, ← unitPhase_add, add_halves, unitPhase_arg h]
    refine (sq_eq_sq_iff_eq_or_eq_neg.mp hsq).resolve_right fun hneg => ?_
    have hre : 0 ≤ x.sqrt.toComplex.re := re_sqrt_nonneg x
    rw [hneg, neg_re, hcos, neg_nonneg] at hre
    refine hre.not_gt (Real.cos_pos_of_mem_Ioo ⟨?_, ?_⟩)
    · linarith [neg_pi_lt_arg x.toComplex]
    · linarith [lt_of_le_of_ne (arg_le_pi x.toComplex) hpi]

end Amplitude

namespace Unitary2
open Scalar

variable {u : Unitary2 ℝ}

theorem toMatrix_rz (t : ℝ) :
    (rz t).toMatrix = !![unitPhase (-(t / 2)), 0; 0, unitPhase (t / 2)] := by
  rw [toMatrix, rz]
  simp only [Amplitude.toComplex_polar, Amplitude.toComplex_zero, ofReal_one, one_mul, two_real,
    neg_div]
  rfl

theorem toMatrix_ry (t : ℝ) :
    (ry t).toMatrix = !![cosHalf t, -sinHalf t; sinHalf t, cosHalf t] := by
  rw [toMatrix, ry]
  simp only [Amplitude.toComplex_mk, two_real, ofReal_zero, zero_mul, add_zero, ofReal_neg]
  rfl

theorem rz_mul_ry_mul_rz (p t m : ℝ) :
    (rz (p + m)).toMatrix * (ry t).toMatrix * (rz (p - m)).toMatrix =
      !![unitPhase (-p) * cosHalf t, -(unitPhase (-m) * sinHalf t);
        unitPhase m * sinHalf t, unitPhase p * cosHalf t] := by
  have hp : unitPhase ((p + m) / 2) * unitPhase ((p - m) / 2) = unitPhase p := by
    rw [← unitPhase_add]
    ring_nf
  have hm : unitPhase ((p + m) / 2) * unitPhase (-((p - m) / 2)) = unitPhase m := by
    rw [← unitPhase_add]
    ring_nf
  have hp' : unitPhase (-((p + m) / 2)) * unitPhase (-((p - m) / 2)) = unitPhase (-p) := by
    rw [← unitPhase_add]
    ring_nf
  have hm' : unitPhase (-((p + m) / 2)) * unitPhase ((p - m) / 2) = unitPhase (-m) := by
    rw [← unitPhase_add]
    ring_nf
  rw [toMatrix_rz, toMatrix_ry, toMatrix_rz, ← hp, ← hm, ← hp', ← hm']
  ext i j
  fin_cases i <;> fin_cases j <;> simp <;> ring

theorem zyz_eq (u : Unitary2 ℝ) :
    let s := u.toSpecial
    u.zyz = ⟨s.d.toComplex.arg + s.c.toComplex.arg,
      2 * arg ⟨‖s.a.toComplex‖, ‖s.c.toComplex‖⟩, s.d.toComplex.arg - s.c.toComplex.arg,
      u.det.toComplex.arg / 2⟩ := by
  intro s
  have hsum (x y : ℝ) : (two * x + two * y) / two = x + y := by
    rw [two_real]
    ring
  have hdifference (x y : ℝ) : (two * x - two * y) / two = x - y := by
    rw [two_real]
    ring
  rw [← Amplitude.norm_eq, ← Amplitude.norm_eq, ← hsum, ← hdifference, ← two_real]
  rfl

theorem angleEpsilon_real : (angleEpsilon : ℝ) = 1 / 10 ^ 12 := by
  change ((1 : ℕ) : ℝ) * (10 : ℝ) ^ (-((12 : ℕ) : ℤ)) = 1 / 10 ^ 12
  norm_num

theorem ofOperator?_toOperator (u : Unitary2 ℝ) : ofOperator? u.toOperator = some u := by
  have hget {i j : ℕ} (hi : i < 2) (hj : j < 2) :
      u.toOperator.get i j = u.entries.getD (i * 2 + j) 0 := Operator.get_ofFn 2 _ hi hj
  have hdim : u.toOperator.dim = 2 := rfl
  rw [ofOperator?, if_pos hdim, hget (by decide) (by decide), hget (by decide) (by decide),
    hget (by decide) (by decide), hget (by decide) (by decide)]
  rfl

theorem qubits?_toOperator (u : Unitary2 ℝ) : u.toOperator.qubits? = some 1 := by
  have hdim : u.toOperator.dim = 2 := rfl
  rw [Operator.qubits?, hdim]
  decide

/-- The entries of a matrix of determinant one that is unitary. -/
structure IsSpecial (s : Unitary2 ℝ) : Prop where
  a_eq : s.a.toComplex = conj s.d.toComplex
  b_eq : s.b.toComplex = -conj s.c.toComplex
  norm_sq : ‖s.d.toComplex‖ ^ 2 + ‖s.c.toComplex‖ ^ 2 = 1

theorem isSpecial_of_matrix {s : Unitary2 ℝ} (h : s.toMatrixᴴ * s.toMatrix = 1)
    (hdet : s.toMatrix.det = 1) : IsSpecial s := by
  have hform := specialUnitary_two h hdet
  have hb : s.b.toComplex = -conj s.c.toComplex := congrFun (congrFun hform 0) 1
  have hd : s.d.toComplex = conj s.a.toComplex := congrFun (congrFun hform 1) 1
  have ha : s.a.toComplex = conj s.d.toComplex := by rw [hd, conj_conj]
  refine ⟨ha, hb, ?_⟩
  rw [toMatrix, det_fin_two_of, ha, hb, conj_mul', neg_mul, conj_mul', sub_neg_eq_add] at hdet
  exact_mod_cast hdet

namespace IsSpecial

variable {s : Unitary2 ℝ} (h : IsSpecial s)
include h

/-- The angle whose cosine and sine are the lengths of the entries. -/
theorem half_angle :
    let t := arg ⟨‖s.a.toComplex‖, ‖s.c.toComplex‖⟩
    (0 ≤ t ∧ t ≤ Real.pi / 2) ∧ Real.cos t = ‖s.d.toComplex‖ ∧ Real.sin t = ‖s.c.toComplex‖ := by
  intro t
  have ha : ‖s.a.toComplex‖ = ‖s.d.toComplex‖ := by rw [h.a_eq, norm_conj]
  set w : ℂ := ⟨‖s.a.toComplex‖, ‖s.c.toComplex‖⟩ with hw
  have hnorm : ‖w‖ = 1 := by
    rw [Complex.norm_def, normSq_mk, ha, ← pow_two, ← pow_two, h.norm_sq, Real.sqrt_one]
  have hne : w ≠ 0 := norm_ne_zero_iff.mp (hnorm ▸ one_ne_zero)
  refine ⟨⟨arg_nonneg_iff.mpr (norm_nonneg _), ?_⟩, ?_, ?_⟩
  · exact (le_abs_self _).trans (abs_arg_le_pi_div_two_iff.mpr (norm_nonneg _))
  · rw [cos_arg hne, hnorm, div_one]
    exact ha
  · rw [sin_arg, hnorm, div_one]

end IsSpecial

section Unitary

variable (hu : u.toMatrix ∈ unitaryGroup (Fin 2) ℂ)
include hu

theorem norm_det : ‖u.det.toComplex‖ = 1 := by
  rw [toComplex_det]
  exact CStarRing.norm_of_mem_unitary (det_of_mem_unitary hu)

/-- A unitary is its phase times the multiple of determinant one. -/
theorem toMatrix_eq_phase_smul :
    u.toMatrix = unitPhase u.zyz.phase • u.toSpecial.toMatrix := by
  have hne : unitPhase (u.det.toComplex.arg / 2) ≠ 0 := exp_ne_zero _
  rw [toMatrix_toSpecial, Amplitude.toComplex_sqrt_of_norm_one (norm_det hu), smul_smul, zyz_eq,
    mul_inv_cancel₀ hne, one_smul]

theorem isSpecial_toSpecial : IsSpecial u.toSpecial := by
  apply isSpecial_of_matrix
  · have hz := (Unitary.mem_iff.mp (mem_unitary_of_norm (norm_unitPhase u.zyz.phase))).1
    have h := mem_unitaryGroup_iff'.mp hu
    rw [star_eq_conjTranspose, toMatrix_eq_phase_smul hu] at h
    generalize u.toSpecial.toMatrix = R at h ⊢
    rwa [conjTranspose_smul, Matrix.smul_mul, Matrix.mul_smul, smul_smul, hz, one_smul] at h
  · have hne : u.det.toComplex ≠ 0 := norm_ne_zero_iff.mp (norm_det hu ▸ one_ne_zero)
    rw [toMatrix_toSpecial, det_smul, Fintype.card_fin, inv_pow, Amplitude.toComplex_sqrt_sq,
      ← toComplex_det, inv_mul_cancel₀ hne]

theorem theta_mem : 0 ≤ u.zyz.theta ∧ u.zyz.theta ≤ Real.pi := by
  obtain ⟨⟨hlow, hhigh⟩, -⟩ := (isSpecial_toSpecial hu).half_angle
  rw [zyz_eq]
  exact ⟨by linarith, by linarith⟩

theorem halves_theta : cosHalf u.zyz.theta = ‖u.toSpecial.d.toComplex‖ ∧
    sinHalf u.zyz.theta = ‖u.toSpecial.c.toComplex‖ := by
  obtain ⟨-, hcos, hsin⟩ := (isSpecial_toSpecial hu).half_angle
  rw [zyz_eq, cosHalf, sinHalf]
  dsimp only
  rw [mul_div_cancel_left₀ _ two_ne_zero, hcos, hsin]
  exact ⟨rfl, rfl⟩

theorem zyz_product : u.toMatrix = unitPhase u.zyz.phase •
    ((rz u.zyz.phi).toMatrix * (ry u.zyz.theta).toMatrix * (rz u.zyz.lambda).toMatrix) := by
  obtain ⟨ha, hb, -⟩ := isSpecial_toSpecial hu
  obtain ⟨hcos, hsin⟩ := halves_theta hu
  conv_lhs => rw [toMatrix_eq_phase_smul hu]
  congr 1
  have hphi := congrArg EulerAngles.phi (zyz_eq u)
  have hlambda := congrArg EulerAngles.lambda (zyz_eq u)
  rw [hphi, hlambda, rz_mul_ry_mul_rz, hcos, hsin, unitPhase_arg_mul_norm, unitPhase_arg_mul_norm,
    unitPhase_neg_arg_mul_norm, unitPhase_neg_arg_mul_norm, ← ha, ← hb]
  rfl

theorem entries_eq :
    u.a.toComplex = unitPhase u.zyz.phase * conj u.toSpecial.d.toComplex ∧
      u.b.toComplex = unitPhase u.zyz.phase * -conj u.toSpecial.c.toComplex ∧
      u.c.toComplex = unitPhase u.zyz.phase * u.toSpecial.c.toComplex ∧
      u.d.toComplex = unitPhase u.zyz.phase * u.toSpecial.d.toComplex := by
  obtain ⟨ha, hb, -⟩ := isSpecial_toSpecial hu
  have h := toMatrix_eq_phase_smul hu
  rw [← ha, ← hb]
  exact ⟨congrFun (congrFun h 0) 0, congrFun (congrFun h 0) 1, congrFun (congrFun h 1) 0,
    congrFun (congrFun h 1) 1⟩

theorem norm_entries : ‖u.a.toComplex‖ = ‖u.toSpecial.d.toComplex‖ ∧
    ‖u.b.toComplex‖ = ‖u.toSpecial.c.toComplex‖ ∧ ‖u.c.toComplex‖ = ‖u.toSpecial.c.toComplex‖ ∧
    ‖u.d.toComplex‖ = ‖u.toSpecial.d.toComplex‖ := by
  obtain ⟨ha, hb, hc, hd⟩ := entries_eq hu
  simp [ha, hb, hc, hd]

/-- A diagonal matrix with the phases of the diagonal entries is as near as the other entries are
small. -/
theorem near_rz {z : ℂ} {t : ℝ} (hz : ‖z‖ = 1)
    (ha : u.a.toComplex = ‖u.a.toComplex‖ * (z * unitPhase (-(t / 2))))
    (hd : u.d.toComplex = ‖u.d.toComplex‖ * (z * unitPhase (t / 2))) (i j : Fin 2) :
    ‖u.toMatrix i j - z * (rz t).toMatrix i j‖ ≤ ‖u.c.toComplex‖ := by
  obtain ⟨hna, hnb, hnc, hnd⟩ := norm_entries hu
  have hlength := (isSpecial_toSpecial hu).norm_sq
  rw [← hnc, ← hnd] at hlength
  have hc := norm_nonneg u.c.toComplex
  have hd0 := norm_nonneg u.d.toComplex
  have hdiagonal {x y : ℂ} (hx : x = ‖x‖ * y) (hy : ‖y‖ = 1) (hxd : ‖x‖ = ‖u.d.toComplex‖) :
      ‖x - y‖ ≤ ‖u.c.toComplex‖ := by
    have hfactor : x - y = ((‖x‖ - 1 : ℝ) : ℂ) * y := by
      push_cast
      linear_combination hx
    rw [hfactor, norm_mul, hy, mul_one, norm_real, Real.norm_eq_abs, hxd]
    exact abs_le.mpr ⟨by nlinarith, by nlinarith⟩
  have hphase (x : ℝ) : ‖z * unitPhase x‖ = 1 := by rw [norm_mul, hz, norm_unitPhase, mul_one]
  rw [toMatrix_rz]
  fin_cases i <;> fin_cases j
  · exact hdiagonal ha (hphase _) (hna.trans hnd.symm)
  · change ‖u.b.toComplex - z * 0‖ ≤ _
    rw [mul_zero, sub_zero, hnb, hnc]
  · change ‖u.c.toComplex - z * 0‖ ≤ _
    rw [mul_zero, sub_zero]
  · exact hdiagonal hd (hphase _) rfl

theorem ofMatrix_toOperator :
    Gate.ofMatrix u.toOperator = .ok ⟨.unitary, [], some u.toOperator⟩ := by
  set m := u.toOperator
  have hdim : m.dim = 2 := rfl
  have hproduct : (m * m.dagger).toSquare 2 = (Operator.identity 2 : Operator ℝ).toSquare 2 := by
    rw [Operator.toSquare_mul hdim, Operator.toSquare_dagger hdim, toSquare_toOperator,
      Operator.toSquare_identity]
    exact mem_unitaryGroup_iff.mp hu
  have htolerance : (0 : ℝ) ≤ Gate.unitaryTolerance := by
    change (0 : ℝ) ≤ ((1 : ℕ) : ℝ) * (10 : ℝ) ^ (-((6 : ℕ) : ℤ))
    positivity
  have hunitary : m.isUnitary Gate.unitaryTolerance = true := by
    rw [Operator.isUnitary, qubits?_toOperator, Operator.near, Bool.and_eq_true, Bool.and_eq_true]
    refine ⟨rfl, beq_iff_eq.mpr rfl, Operator.all_eq_true_iff.mpr fun i hi j hj => ?_⟩
    have hentry : ((m * m.dagger).get i j).toComplex =
        ((Operator.identity m.dim : Operator ℝ).get i j).toComplex :=
      congrFun (congrFun hproduct ⟨i, hi⟩) ⟨j, hj⟩
    rw [Operator.near_iff, hentry, sub_self, norm_zero]
    exact htolerance
  rw [Gate.ofMatrix, qubits?_toOperator, hunitary]
  rfl

end Unitary

end Unitary2

theorem exists_normalizeAngle (t : ℝ) : ∃ k : ℤ, normalizeAngle t = t - k * (2 * Real.pi) := by
  have htau : |(Scalar.tau : ℝ)| = 2 * Real.pi := by
    rw [Scalar.tau_real, abs_of_pos Real.two_pi_pos]
  have hmod : Scalar.modulo t Scalar.tau = t - ⌊t / (2 * Real.pi)⌋ * (2 * Real.pi) := by
    change t - |(Scalar.tau : ℝ)| * ⌊t / |(Scalar.tau : ℝ)|⌋ = _
    rw [htau, mul_comm]
  have hfinite : Scalar.isFinite t = true := rfl
  rw [normalizeAngle, if_pos hfinite]
  dsimp only
  split_ifs
  · refine ⟨⌊t / (2 * Real.pi)⌋ + 1, ?_⟩
    rw [hmod, Scalar.tau_real]
    push_cast
    ring
  · exact ⟨_, hmod⟩

/-- A whole turn changes at most the sign of a rotation. -/
theorem exists_rz_normalizeAngle (t : ℝ) : ∃ s : ℂ, ‖s‖ = 1 ∧
    (Unitary2.rz t).toMatrix = s • (Unitary2.rz (normalizeAngle t)).toMatrix := by
  obtain ⟨k, hk⟩ := exists_normalizeAngle t
  have hplus : unitPhase (t / 2) = unitPhase (k * Real.pi) * unitPhase (normalizeAngle t / 2) := by
    rw [← unitPhase_add, hk]
    ring_nf
  have htwice : unitPhase (k * Real.pi) * unitPhase (k * Real.pi) = 1 := by
    rw [← unitPhase_add, unitPhase, ← exp_int_mul_two_pi_mul_I k]
    push_cast
    ring_nf
  have hsign : unitPhase (-(k * Real.pi)) = unitPhase (k * Real.pi) :=
    left_inv_eq_right_inv (unitPhase_neg_mul _) htwice
  refine ⟨unitPhase (k * Real.pi), norm_unitPhase _, ?_⟩
  have hminus : unitPhase (-(t / 2)) =
      unitPhase (k * Real.pi) * unitPhase (-(normalizeAngle t / 2)) := by
    rw [← hsign, ← unitPhase_add, hk]
    ring_nf
  rw [Unitary2.toMatrix_rz, Unitary2.toMatrix_rz, hplus, hminus]
  ext i j
  fin_cases i <;> fin_cases j <;> simp

namespace Synthesis
open RuleStep

theorem turn_matrix_one (tag : Tag) (angles : List ℝ) :
    (turn tag angles 0).matrix 1 = tag.exactMatrix 1 angles := by
  refine ext_one fun a b => ?_
  rw [turn_only, ← one_smul ℂ (tag.exactMatrix 1 angles), smul_mulVec_one]
  simp

theorem stepProduct_rz (t : ℝ) : stepProduct 1 [turn .rz [t] 0] = (Unitary2.rz t).toMatrix := by
  rw [stepProduct, stepProduct, one_mul, turn_matrix_one, Tag.exactMatrix_rz, Unitary2.toMatrix_rz]

theorem stepProduct_euler (p t l : ℝ) :
    stepProduct 1 [turn .rz [l] 0, turn .ry [t] 0, turn .rz [p] 0] =
      (Unitary2.rz p).toMatrix * (Unitary2.ry t).toMatrix * (Unitary2.rz l).toMatrix := by
  rw [stepProduct, stepProduct, stepProduct_rz, turn_matrix_one, turn_matrix_one,
    Tag.exactMatrix_rz, Tag.exactMatrix_ry, Unitary2.toMatrix_ry, Unitary2.toMatrix_rz l]

def Sequence.outline (seq : Sequence ℝ) : List (Tag × List ℕ) :=
  seq.map fun s => (s.gate.tag, s.operands)

theorem outline_of_emitted {steps : List (Except (CircuitError ℝ) (Substitute ℝ))}
    {rs : List RuleStep} {seq : Sequence ℝ} (h : List.Forall₂ Emitted steps rs)
    (hseq : steps.mapM (fun step => step) = .ok seq) :
    Sequence.outline seq = rs.map fun r => (r.tag, r.operands) := by
  rw [mapM_eq_ok_iff] at hseq
  induction h generalizing seq with
  | nil =>
    obtain rfl := List.forall₂_nil_left_iff.mp hseq
    rfl
  | cons hx _ ih =>
    obtain ⟨s, rest, hs, hrest, rfl⟩ := List.forall₂_cons_left_iff.mp hseq
    obtain ⟨g, m, hx, htag, -⟩ := hx
    obtain rfl := Except.ok.inj (hs.symm.trans hx)
    rw [Sequence.outline, List.map_cons, List.map_cons, htag]
    exact congrArg _ (ih hrest)

/-- A computation gives the gates of the steps. -/
def Yields (x : Except (CircuitError ℝ) (Sequence ℝ)) (rs : List RuleStep) : Prop :=
  ∃ seq, x = .ok seq ∧ Sequence.outline seq = rs.map (fun r => (r.tag, r.operands)) ∧
    timeProduct 1 (Sequence.actions seq) = some (stepProduct 1 rs)

theorem yields_of_emitted {steps : List (Except (CircuitError ℝ) (Substitute ℝ))}
    {rs : List RuleStep} (h : List.Forall₂ Emitted steps rs) :
    Yields (steps.mapM fun step => step) rs := by
  obtain ⟨seq, hseq, -, hproduct⟩ := sequence_of_emitted h 1
  exact ⟨seq, hseq, outline_of_emitted h hseq, hproduct⟩

theorem yields_rz (t : ℝ) :
    Yields (do return [← Substitute.rotation .rz t 0]) [turn .rz [t] 0] := by
  have h : List.Forall₂ Emitted [Substitute.rotation .rz t 0] [turn .rz [t] 0] :=
    .cons (emitted_const 0 (by decide)) .nil
  exact yields_of_emitted h

theorem yields_euler (p t l : ℝ) :
    Yields (do return [← Substitute.rotation .rz l 0, ← Substitute.rotation .ry t 0,
      ← Substitute.rotation .rz p 0]) [turn .rz [l] 0, turn .ry [t] 0, turn .rz [p] 0] := by
  have h : List.Forall₂ Emitted
      [Substitute.rotation .rz l 0, Substitute.rotation .ry t 0, Substitute.rotation .rz p 0]
      [turn .rz [l] 0, turn .ry [t] 0, turn .rz [p] 0] :=
    .cons (emitted_const 0 (by decide)) (.cons (emitted_const 0 (by decide))
      (.cons (emitted_const 0 (by decide)) .nil))
  exact yields_of_emitted h

section Unitary

variable {u : Unitary2 ℝ} (hu : u.toMatrix ∈ unitaryGroup (Fin 2) ℂ)
include hu

theorem exists_near_rz {z : ℂ} {t : ℝ} (hz : ‖z‖ = 1)
    (ha : u.a.toComplex = ‖u.a.toComplex‖ * (z * unitPhase (-(t / 2))))
    (hd : u.d.toComplex = ‖u.d.toComplex‖ * (z * unitPhase (t / 2))) :
    ∃ z : ℂ, ‖z‖ = 1 ∧ ∀ i j,
      ‖u.toMatrix i j - z * (Unitary2.rz (normalizeAngle t)).toMatrix i j‖ ≤ ‖u.c.toComplex‖ := by
  obtain ⟨s, hs, hrz⟩ := exists_rz_normalizeAngle t
  refine ⟨z * s, by rw [norm_mul, hz, hs, mul_one], fun i j => ?_⟩
  have hnear := Unitary2.near_rz hu hz ha hd i j
  rwa [hrz, Matrix.smul_apply, smul_eq_mul, ← mul_assoc] at hnear

/-- What is diagonal up to the tolerance is turned by the difference of the angles of its diagonal
entries. -/
theorem near_phaseAngle {tolerance t : ℝ} (h : phaseAngle? tolerance u = some t) :
    ∃ z : ℂ, ‖z‖ = 1 ∧ ∀ i j, ‖u.toMatrix i j - z * (Unitary2.rz t).toMatrix i j‖ ≤ tolerance := by
  unfold phaseAngle? at h
  split_ifs at h with hlarge
  rw [not_or, not_lt, not_lt, Amplitude.norm_eq, Amplitude.norm_eq] at hlarge
  obtain rfl := Option.some.inj h
  set α := u.a.toComplex.arg with hα
  set δ := u.d.toComplex.arg with hδ
  have ha : unitPhase ((α + δ) / 2) * unitPhase (-((δ - α) / 2)) = unitPhase α := by
    rw [← unitPhase_add]
    ring_nf
  have hd : unitPhase ((α + δ) / 2) * unitPhase ((δ - α) / 2) = unitPhase δ := by
    rw [← unitPhase_add]
    ring_nf
  obtain ⟨z, hz, hnear⟩ := exists_near_rz hu (t := δ - α) (norm_unitPhase ((α + δ) / 2))
    (by rw [ha, mul_comm, hα, unitPhase_arg_mul_norm])
    (by rw [hd, mul_comm, hδ, unitPhase_arg_mul_norm])
  exact ⟨z, hz, fun i j => (hnear i j).trans hlarge.2⟩

/-- A turn about `Y` that is left out was small, and so were the entries off the diagonal. -/
theorem near_of_theta (hsmall : |u.zyz.theta| < Unitary2.angleEpsilon) :
    ∃ z : ℂ, ‖z‖ = 1 ∧ ∀ i j, ‖u.toMatrix i j -
      z * (Unitary2.rz (normalizeAngle (u.zyz.phi + u.zyz.lambda))).toMatrix i j‖ ≤
        1 / 10 ^ 12 := by
  obtain ⟨ha, -, -, hd⟩ := Unitary2.entries_eq hu
  obtain ⟨hna, -, hnc, hnd⟩ := Unitary2.norm_entries hu
  have hhalf : (u.zyz.phi + u.zyz.lambda) / 2 = u.toSpecial.d.toComplex.arg := by
    rw [Unitary2.zyz_eq]
    ring
  have hc : ‖u.c.toComplex‖ ≤ 1 / 10 ^ 12 := by
    have hsin : Real.sin (u.zyz.theta / 2) = ‖u.toSpecial.c.toComplex‖ :=
      ofReal_injective (Unitary2.halves_theta hu).2
    obtain ⟨hpos, -⟩ := Unitary2.theta_mem hu
    rw [abs_of_nonneg hpos, Unitary2.angleEpsilon_real] at hsmall
    rw [hnc, ← hsin]
    linarith [Real.sin_le (div_nonneg hpos zero_le_two)]
  obtain ⟨z, hz, hnear⟩ := exists_near_rz hu (norm_unitPhase u.zyz.phase)
    (by rw [hhalf, hna, ha, ← unitPhase_neg_arg_mul_norm]; ring)
    (by rw [hhalf, hnd, hd]; nth_rw 1 [← unitPhase_arg_mul_norm u.toSpecial.d.toComplex]; ring)
  exact ⟨z, hz, fun i j => (hnear i j).trans hc⟩

/-- Whole turns taken off the angles change the three rotations by a phase. -/
theorem exists_eq_euler : ∃ z : ℂ, ‖z‖ = 1 ∧ u.toMatrix =
    z • ((Unitary2.rz (normalizeAngle u.zyz.phi)).toMatrix * (Unitary2.ry u.zyz.theta).toMatrix *
      (Unitary2.rz (normalizeAngle u.zyz.lambda)).toMatrix) := by
  obtain ⟨s, hs, hphi⟩ := exists_rz_normalizeAngle u.zyz.phi
  obtain ⟨s', hs', hlambda⟩ := exists_rz_normalizeAngle u.zyz.lambda
  refine ⟨unitPhase u.zyz.phase * (s' * s), ?_, ?_⟩
  · rw [norm_mul, norm_mul, norm_unitPhase, hs, hs', mul_one, mul_one]
  · conv_lhs => rw [Unitary2.zyz_product hu, hphi, hlambda]
    simp only [Matrix.smul_mul, Matrix.mul_smul, smul_smul]

/-- One rotation that is near, or three that are exact. -/
theorem oneQubit_near (tolerance : ℝ) :
    ∃ (rs : List RuleStep) (z : ℂ), Yields (oneQubit tolerance u) rs ∧ ‖z‖ = 1 ∧
      (∀ i j : Fin 2, ‖u.toMatrix i j - z * stepProduct 1 rs i j‖ ≤ max tolerance (1 / 10 ^ 12)) ∧
      ((∃ t, rs = [turn .rz [t] 0]) ∨
        (∃ l t p, rs = [turn .rz [l] 0, turn .ry [t] 0, turn .rz [p] 0]) ∧
          u.toMatrix = z • stepProduct 1 rs) := by
  unfold oneQubit
  cases hphase : phaseAngle? tolerance u with
  | some t =>
    obtain ⟨z, hz, hnear⟩ := near_phaseAngle hu hphase
    refine ⟨_, z, yields_rz t, hz, fun i j => ?_, .inl ⟨t, rfl⟩⟩
    rw [stepProduct_rz]
    exact (hnear i j).trans (le_max_left _ _)
  | none =>
    unfold eulerSequence
    dsimp only
    split_ifs with hsmall
    · obtain ⟨z, hz, hnear⟩ := near_of_theta hu hsmall
      refine ⟨_, z, yields_rz _, hz, fun i j => ?_, .inl ⟨_, rfl⟩⟩
      rw [stepProduct_rz]
      exact (hnear i j).trans (le_max_right _ _)
    · obtain ⟨z, hz, hexact⟩ := exists_eq_euler hu
      rw [← stepProduct_euler] at hexact
      refine ⟨_, z, yields_euler _ _ _, hz, fun i j => ?_, .inr ⟨⟨_, _, _, rfl⟩, hexact⟩⟩
      have hentry := congrFun (congrFun hexact i) j
      rw [Matrix.smul_apply, smul_eq_mul] at hentry
      rw [hentry, sub_self, norm_zero]
      positivity

end Unitary

theorem decompose_toOperator [Eigensolver ℝ] (tolerance : ℝ) (u : Unitary2 ℝ) :
    (Decomposer.decompose { tolerance := tolerance } ⟨.unitary, [], some u.toOperator⟩).2 =
      SynthesisError.lift (oneQubit tolerance u) := by
  have hqubits : (⟨.unitary, [], some u.toOperator⟩ : Gate ℝ).qubits = 1 := by
    rw [Gate.qubits, Option.bind_some, u.qubits?_toOperator]
    rfl
  rw [(Decomposer.decompose_cases (Decomposer.fresh_sound tolerance) _).1]
  change fromMatrix tolerance ⟨.unitary, [], some u.toOperator⟩ u.toOperator = _
  rw [fromMatrix, hqubits]
  dsimp only
  rw [u.ofOperator?_toOperator]
  rfl

/-- In exact arithmetic, a one-qubit unitary has Euler angles that give it back, and its replacement
is one turn about `Z` that comes as near as the tolerance or three turns that are exact, up to a
phase. -/
theorem decompose_oneQubit [Eigensolver ℝ] (u : Unitary2 ℝ)
    (hu : u.toMatrix ∈ unitaryGroup (Fin 2) ℂ) :
    (0 ≤ u.zyz.theta ∧ u.zyz.theta ≤ Real.pi ∧
      u.toMatrix = unitPhase u.zyz.phase • ((Unitary2.rz u.zyz.phi).toMatrix *
        (Unitary2.ry u.zyz.theta).toMatrix * (Unitary2.rz u.zyz.lambda).toMatrix)) ∧
    ∃ g, Gate.ofMatrix u.toOperator = .ok g ∧ ∀ tolerance : ℝ,
      ∃ (seq : Sequence ℝ) (P : Matrix (Fin 2) (Fin 2) ℂ) (z : ℂ),
        (Decomposer.decompose { tolerance := tolerance } g).2 = .ok seq ∧
        timeProduct 1 (Sequence.actions seq) = some P ∧ ‖z‖ = 1 ∧
        (∀ i j, ‖u.toMatrix i j - z * P i j‖ ≤ max tolerance (1 / 10 ^ 12)) ∧
        (Sequence.outline seq = [(.rz, [0])] ∨
          Sequence.outline seq = [(.rz, [0]), (.ry, [0]), (.rz, [0])] ∧ u.toMatrix = z • P) := by
  refine ⟨⟨(u.theta_mem hu).1, (u.theta_mem hu).2, u.zyz_product hu⟩, _, u.ofMatrix_toOperator hu,
    fun tolerance => ?_⟩
  obtain ⟨rs, z, ⟨seq, hseq, houtline, hproduct⟩, hz, hnear, hcases⟩ := oneQubit_near hu tolerance
  refine ⟨seq, _, z, ?_, hproduct, hz, hnear, ?_⟩
  · rw [decompose_toOperator, hseq]
    rfl
  · rw [houtline]
    rcases hcases with ⟨t, rfl⟩ | ⟨⟨l, t, p, rfl⟩, hexact⟩
    · exact .inl rfl
    · exact .inr ⟨rfl, hexact⟩

attribute [local instance] Eigensolver.mixed

/-- The exchange of the two states, whose determinant is minus one and whose diagonal has no
angles. -/
theorem decompose_oneQubit_exchange :
    (⟨0, 1, 1, 0⟩ : Unitary2 ℝ).toMatrix ∈ unitaryGroup (Fin 2) ℂ ∧
      ∃ (g : Gate ℝ) (seq : Sequence ℝ) (P : Matrix (Fin 2) (Fin 2) ℂ) (z : ℂ),
        Gate.ofMatrix (⟨0, 1, 1, 0⟩ : Unitary2 ℝ).toOperator = .ok g ∧
        (({ tolerance := 0 } : Decomposer ℝ).decompose g).2 = .ok seq ∧
        timeProduct 1 (Sequence.actions seq) = some P ∧ ‖z‖ = 1 ∧
        ∀ i j, ‖(⟨0, 1, 1, 0⟩ : Unitary2 ℝ).toMatrix i j - z * P i j‖ ≤ max 0 (1 / 10 ^ 12) := by
  have hu : (⟨0, 1, 1, 0⟩ : Unitary2 ℝ).toMatrix ∈ unitaryGroup (Fin 2) ℂ := by
    rw [mem_unitaryGroup_iff, star_eq_conjTranspose]
    ext i j
    fin_cases i <;> fin_cases j <;>
      simp [Unitary2.toMatrix, vecMul, dotProduct, conjTranspose_apply]
  obtain ⟨-, g, hg, hdecompose⟩ := decompose_oneQubit ⟨0, 1, 1, 0⟩ hu
  obtain ⟨seq, P, z, hseq, hproduct, hz, hnear, -⟩ := hdecompose 0
  exact ⟨hu, g, seq, P, z, hg, hseq, hproduct, hz, hnear⟩

end Synthesis

end Interchange
end
