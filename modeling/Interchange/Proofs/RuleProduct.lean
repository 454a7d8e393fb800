import Mathlib.Tactic.FinCases
import Mathlib.Tactic.IntervalCases
import Interchange.Proofs.GateMatrix
import Interchange.Proofs.RuleTarget

noncomputable section
namespace Interchange
open Matrix Scalar

/-- A gate of a replacement, with numbers for its angles. -/
structure RuleStep where
  tag : Tag
  angles : List ℝ
  operands : List ℕ

namespace RuleStep

abbrev turn (tag : Tag) (angles : List ℝ) (q : ℕ) : RuleStep := ⟨tag, angles, [q]⟩

abbrev cx (control target : ℕ) : RuleStep := ⟨.cx, [], [control, target]⟩

def matrix (n : ℕ) (s : RuleStep) : QubitMatrix n :=
  embed n s.operands (s.tag.exactMatrix s.operands.length s.angles)

end RuleStep

/-- The product of the steps in time order, later ones further left. -/
def stepProduct (n : ℕ) : List RuleStep → QubitMatrix n
  | [] => 1
  | s :: rest => stepProduct n rest * s.matrix n

theorem stepProduct_nil_mulVec {n : ℕ} (v : Fin (2 ^ n) → ℂ) : stepProduct n [] *ᵥ v = v :=
  one_mulVec v

theorem stepProduct_cons_mulVec {n : ℕ} (s : RuleStep) (rest : List RuleStep)
    (v : Fin (2 ^ n) → ℂ) :
    stepProduct n (s :: rest) *ᵥ v = stepProduct n rest *ᵥ (s.matrix n *ᵥ v) :=
  (mulVec_mulVec v _ _).symm

theorem stepProduct_append (n : ℕ) (xs ys : List RuleStep) :
    stepProduct n (xs ++ ys) = stepProduct n ys * stepProduct n xs := by
  induction xs with
  | nil => exact (mul_one _).symm
  | cons x xs ih =>
    rw [List.cons_append, stepProduct, ih, stepProduct, mul_assoc]

namespace RuleStep

section

variable (tag : Tag) (angles : List ℝ) (a b c d e f g h : ℂ)

/-! ### Steps on one, two and three qubits, by the positions of their operands -/

theorem turn_only :
    (turn tag angles 0).matrix 1 *ᵥ ![a, b] =
      (let A : QubitMatrix 1 := tag.exactMatrix 1 angles
      ![A 0 0 * a + A 0 1 * b, A 1 0 * a + A 1 1 * b]) := by
  have hq : QubitList 1 1 [0] := ⟨rfl, by decide, by decide⟩
  funext i
  refine (embed_one_mulVec hq (tag.exactMatrix 1 angles) _ i).trans ?_
  fin_cases i <;> rfl

theorem turn_of_two {q : ℕ} (hq : q < 2) :
    (turn tag angles q).matrix 2 *ᵥ ![a, b, c, d] =
      (let A : QubitMatrix 1 := tag.exactMatrix 1 angles
      let m (r : Fin 2) (x y : ℂ) : ℂ := A r 0 * x + A r 1 * y
      match q with
      | 0 => ![m 0 a c, m 0 b d, m 1 a c, m 1 b d]
      | _ => ![m 0 a b, m 1 a b, m 0 c d, m 1 c d]) := by
  have hlist : QubitList 2 1 [q] := ⟨rfl, List.nodup_singleton q, List.forall_mem_singleton.mpr hq⟩
  funext i
  refine (embed_one_mulVec hlist (tag.exactMatrix 1 angles) _ i).trans ?_
  interval_cases q <;> fin_cases i <;> rfl

theorem turn_of_three {q : ℕ} (hq : q < 3) :
    (turn tag angles q).matrix 3 *ᵥ ![a, b, c, d, e, f, g, h] =
      (let A : QubitMatrix 1 := tag.exactMatrix 1 angles
      let m (r : Fin 2) (x y : ℂ) : ℂ := A r 0 * x + A r 1 * y
      match q with
      | 0 => ![m 0 a e, m 0 b f, m 0 c g, m 0 d h, m 1 a e, m 1 b f, m 1 c g, m 1 d h]
      | 1 => ![m 0 a c, m 0 b d, m 1 a c, m 1 b d, m 0 e g, m 0 f h, m 1 e g, m 1 f h]
      | _ => ![m 0 a b, m 1 a b, m 0 c d, m 1 c d, m 0 e f, m 1 e f, m 0 g h, m 1 g h]) := by
  have hlist : QubitList 3 1 [q] := ⟨rfl, List.nodup_singleton q, List.forall_mem_singleton.mpr hq⟩
  funext i
  refine (embed_one_mulVec hlist (tag.exactMatrix 1 angles) _ i).trans ?_
  interval_cases q <;> fin_cases i <;> rfl

theorem cx_of_two {p q : ℕ} (hp : p < 2) (hq : q < 2) (hne : p ≠ q) :
    (cx p q).matrix 2 *ᵥ ![a, b, c, d] =
      match p with
      | 0 => ![a, b, d, c]
      | _ => ![a, d, c, b] := by
  have hlist : QubitList 2 2 [p, q] := ⟨rfl, by simpa using hne,
    List.forall_mem_cons.mpr ⟨hp, List.forall_mem_singleton.mpr hq⟩⟩
  funext i
  refine (embed_cx_mulVec hlist _ i).trans ?_
  interval_cases p <;> interval_cases q <;> first | exact absurd rfl hne | (fin_cases i <;> rfl)

theorem cx_of_three {p q : ℕ} (hp : p < 3) (hq : q < 3) (hne : p ≠ q) :
    (cx p q).matrix 3 *ᵥ ![a, b, c, d, e, f, g, h] =
      match p, q with
      | 0, 1 => ![a, b, c, d, g, h, e, f]
      | 0, _ => ![a, b, c, d, f, e, h, g]
      | 1, 0 => ![a, b, g, h, e, f, c, d]
      | 1, _ => ![a, b, d, c, e, f, h, g]
      | _, 0 => ![a, f, c, h, e, b, g, d]
      | _, _ => ![a, d, c, b, e, h, g, f] := by
  have hlist : QubitList 3 2 [p, q] := ⟨rfl, by simpa using hne,
    List.forall_mem_cons.mpr ⟨hp, List.forall_mem_singleton.mpr hq⟩⟩
  funext i
  refine (embed_cx_mulVec hlist _ i).trans ?_
  interval_cases p <;> interval_cases q <;> first | exact absurd rfl hne | (fin_cases i <;> rfl)

end

end RuleStep

theorem ext_one {P Q : QubitMatrix 1} (h : ∀ a b : ℂ, P *ᵥ ![a, b] = Q *ᵥ ![a, b]) : P = Q := by
  apply mulVec_injective
  funext v
  rw [show v = ![v 0, v 1] from (FinVec.etaExpand_eq v).symm]
  exact h _ _

theorem ext_two {P Q : QubitMatrix 2}
    (h : ∀ a b c d : ℂ, P *ᵥ ![a, b, c, d] = Q *ᵥ ![a, b, c, d]) : P = Q := by
  apply mulVec_injective
  funext v
  rw [show v = ![v 0, v 1, v 2, v 3] from (FinVec.etaExpand_eq v).symm]
  exact h _ _ _ _

theorem ext_three {P Q : QubitMatrix 3}
    (h : ∀ a b c d e f g k : ℂ, P *ᵥ ![a, b, c, d, e, f, g, k] = Q *ᵥ ![a, b, c, d, e, f, g, k]) :
    P = Q := by
  apply mulVec_injective
  funext v
  rw [show v = ![v 0, v 1, v 2, v 3, v 4, v 5, v 6, v 7] from (FinVec.etaExpand_eq v).symm]
  exact h _ _ _ _ _ _ _ _

theorem smul_mulVec_one (z a b : ℂ) (M : QubitMatrix 1) :
    (z • M) *ᵥ ![a, b] = ![z * (M 0 0 * a + M 0 1 * b), z * (M 1 0 * a + M 1 1 * b)] := by
  rw [smul_mulVec]
  funext i
  have h : (M *ᵥ ![a, b]) i = M i 0 * a + M i 1 * b :=
    Fin.sum_univ_two fun j : Fin 2 => M i j * ![a, b] j
  rw [Pi.smul_apply, h]
  fin_cases i <;> rfl

theorem smul_mulVec_two (z a b c d : ℂ) (M : QubitMatrix 2) :
    (z • M) *ᵥ ![a, b, c, d] =
      ![z * (M 0 0 * a + M 0 1 * b + M 0 2 * c + M 0 3 * d),
        z * (M 1 0 * a + M 1 1 * b + M 1 2 * c + M 1 3 * d),
        z * (M 2 0 * a + M 2 1 * b + M 2 2 * c + M 2 3 * d),
        z * (M 3 0 * a + M 3 1 * b + M 3 2 * c + M 3 3 * d)] := by
  rw [smul_mulVec]
  funext i
  have h : (M *ᵥ ![a, b, c, d]) i = M i 0 * a + M i 1 * b + M i 2 * c + M i 3 * d :=
    Fin.sum_univ_four fun j : Fin 4 => M i j * ![a, b, c, d] j
  rw [Pi.smul_apply, h]
  fin_cases i <;> rfl

open RuleStep

theorem sx_steps :
    stepProduct 1 [turn .rx [halfPi] 0] =
      unitPhase (-(Real.pi / 4)) • Tag.exactMatrix 1 .sx [] := by
  refine ext_one fun a b => ?_
  simp only [stepProduct_cons_mulVec, stepProduct_nil_mulVec, turn_only, smul_mulVec_one,
    Tag.exactMatrix_rx, Tag.exactMatrix_sx, cosHalf_halfPi, sinHalf_halfPi, unitPhase_neg_quarterPi]
  have hI := Complex.I_sq
  simp
  constructor <;> grind

theorem sxdg_steps :
    stepProduct 1 [turn .rx [-halfPi] 0] =
      unitPhase (Real.pi / 4) • Tag.exactMatrix 1 .sxdg [] := by
  refine ext_one fun a b => ?_
  simp only [stepProduct_cons_mulVec, stepProduct_nil_mulVec, turn_only, smul_mulVec_one,
    Tag.exactMatrix_rx, Tag.exactMatrix_sxdg, cosHalf_neg, sinHalf_neg, cosHalf_halfPi,
    sinHalf_halfPi, unitPhase_quarterPi]
  have hI := Complex.I_sq
  simp
  constructor <;> grind

/-- The phase that a rotation about `Z` lacks. -/
theorem unitPhase_neg_half_mul (t : ℝ) :
    unitPhase (-(t / 2)) * unitPhase t = unitPhase (t / 2) := by
  rw [← unitPhase_add]
  ring_nf

theorem phase_steps (t : ℝ) :
    stepProduct 1 [turn .rz [t] 0] = unitPhase (-(t / 2)) • Tag.exactMatrix 1 .phase [t] := by
  refine ext_one fun a b => ?_
  simp only [stepProduct_cons_mulVec, stepProduct_nil_mulVec, turn_only, smul_mulVec_one,
    Tag.exactMatrix_rz, Tag.exactMatrix_phase]
  simp [← unitPhase_neg_half_mul, mul_assoc]

theorem u_steps (θ φ l : ℝ) :
    stepProduct 1 [turn .rz [l] 0, turn .ry [θ] 0, turn .rz [φ] 0] =
      unitPhase (-((φ + l) / 2)) • Tag.exactMatrix 1 .u [θ, φ, l] := by
  refine ext_one fun a b => ?_
  have hz : unitPhase (-((φ + l) / 2)) = unitPhase (-(φ / 2)) * unitPhase (-(l / 2)) := by
    rw [← unitPhase_add]
    ring_nf
  have hφ := unitPhase_neg_half_mul φ
  have hl := unitPhase_neg_half_mul l
  simp only [stepProduct_cons_mulVec, stepProduct_nil_mulVec, turn_only, smul_mulVec_one,
    Tag.exactMatrix_rz, Tag.exactMatrix_ry, Tag.exactMatrix_u, hz, unitPhase_add φ l]
  simp
  constructor <;> grind

theorem cy_steps :
    stepProduct 2 [turn .sdg [] 1, cx 0 1, turn .s [] 1] =
      (1 : ℂ) • Tag.exactMatrix 2 .cy [] := by
  refine ext_two fun a b c d => ?_
  rw [Tag.exactMatrix_controlled .y rfl rfl rfl]
  simp +decide only [stepProduct_cons_mulVec, stepProduct_nil_mulVec, turn_of_two, cx_of_two,
    smul_mulVec_two, Tag.exactMatrix_s, Tag.exactMatrix_sdg, Tag.exactMatrix_y]
  have hI := Complex.I_sq
  simp
  grind

theorem ch_steps :
    stepProduct 2 [turn .ry [quarterPi] 1, cx 0 1, turn .ry [-quarterPi] 1] =
      (1 : ℂ) • Tag.exactMatrix 2 .ch [] := by
  refine ext_two fun a b c d => ?_
  rw [Tag.exactMatrix_controlled .h rfl rfl rfl]
  -- `1 / √2` is the cosine and the sine of `π / 4`, hence of twice the half angle here
  have hq : (halfPi / 2 : ℝ) = quarterPi := halfPi_div_two
  have hc : rootHalf = cosHalf quarterPi ^ 2 - sinHalf quarterPi ^ 2 := by
    rw [← cosHalf_halfPi, cosHalf_eq, hq]
  have hs : rootHalf = 2 * sinHalf quarterPi * cosHalf quarterPi := by
    rw [← sinHalf_halfPi, sinHalf_eq, hq]
  have h1 := cosHalf_sq_add_sinHalf_sq quarterPi
  simp +decide only [stepProduct_cons_mulVec, stepProduct_nil_mulVec, turn_of_two, cx_of_two,
    smul_mulVec_two, Tag.exactMatrix_ry, Tag.exactMatrix_h, cosHalf_neg, sinHalf_neg]
  simp
  refine ⟨?_, ?_, ?_, ?_⟩ <;> grind

theorem cphase_steps (t : ℝ) :
    stepProduct 2 [turn .rz [t / two] 0, cx 0 1, turn .rz [-(t / two)] 1, cx 0 1,
        turn .rz [t / two] 1] = unitPhase (-(t / 4)) • Tag.exactMatrix 2 .cphase [t] := by
  refine ext_two fun a b c d => ?_
  rw [Tag.exactMatrix_controlled .phase rfl rfl rfl]
  simp +decide only [stepProduct_cons_mulVec, stepProduct_nil_mulVec, turn_of_two, cx_of_two,
    smul_mulVec_two, Tag.exactMatrix_rz, Tag.exactMatrix_phase, two_real]
  simp
  simp only [← mul_assoc, ← unitPhase_add]
  ring_nf
  trivial

def controlledTurnSteps (axis : Tag) (t : ℝ) : List RuleStep :=
  [turn axis [t / two] 1, cx 0 1, turn axis [-(t / two)] 1, cx 0 1]

theorem controlledTurn_rz (t : ℝ) (a b c d : ℂ) :
    stepProduct 2 (controlledTurnSteps .rz t) *ᵥ ![a, b, c, d] =
      ![a, b, unitPhase (-(t / 2)) * c, unitPhase (t / 2) * d] := by
  simp +decide only [controlledTurnSteps, stepProduct_cons_mulVec, stepProduct_nil_mulVec,
    turn_of_two, cx_of_two, Tag.exactMatrix_rz, two_real]
  simp
  simp only [← mul_assoc, ← unitPhase_add]
  ring_nf
  simp

theorem crz_steps (t : ℝ) :
    stepProduct 2 (controlledTurnSteps .rz t) = (1 : ℂ) • Tag.exactMatrix 2 .crz [t] := by
  refine ext_two fun a b c d => ?_
  rw [Tag.exactMatrix_controlled .rz rfl rfl rfl, controlledTurn_rz, smul_mulVec_two,
    Tag.exactMatrix_rz]
  simp

theorem cry_steps (t : ℝ) :
    stepProduct 2 (controlledTurnSteps .ry t) = (1 : ℂ) • Tag.exactMatrix 2 .cry [t] := by
  refine ext_two fun a b c d => ?_
  rw [Tag.exactMatrix_controlled .ry rfl rfl rfl]
  have h1 := cosHalf_sq_add_sinHalf_sq (t / 2)
  have hc := cosHalf_eq t
  have hs := sinHalf_eq t
  simp +decide only [controlledTurnSteps, stepProduct_cons_mulVec, stepProduct_nil_mulVec,
    turn_of_two, cx_of_two, smul_mulVec_two, Tag.exactMatrix_ry, cosHalf_neg, sinHalf_neg,
    two_real]
  simp
  refine ⟨?_, ?_, ?_, ?_⟩ <;> grind

/-- Between two Hadamard gates on the target the rotation about `Z` becomes one about `X`. -/
theorem crx_steps (t : ℝ) :
    stepProduct 2 (turn .h [] 1 :: controlledTurnSteps .rz t ++ [turn .h [] 1]) =
      (1 : ℂ) • Tag.exactMatrix 2 .crx [t] := by
  refine ext_two fun a b c d => ?_
  have hr := rootHalf_sq
  rw [Tag.exactMatrix_controlled .rx rfl rfl rfl, stepProduct_append, ← mulVec_mulVec]
  simp +decide only [stepProduct_cons_mulVec, stepProduct_nil_mulVec, turn_of_two,
    controlledTurn_rz, smul_mulVec_two, Tag.exactMatrix_h, Tag.exactMatrix_rx, unitPhase_half,
    unitPhase_neg_half]
  simp
  refine ⟨?_, ?_, ?_, ?_⟩ <;> grind

theorem swap_steps :
    stepProduct 2 [cx 0 1, cx 1 0, cx 0 1] = (1 : ℂ) • Tag.exactMatrix 2 .swap [] := by
  refine ext_two fun a b c d => ?_
  simp +decide only [stepProduct_cons_mulVec, stepProduct_nil_mulVec, cx_of_two, smul_mulVec_two,
    Tag.exactMatrix_swap]
  simp

theorem iswap_steps :
    stepProduct 2 [turn .s [] 0, turn .s [] 1, turn .h [] 0, cx 0 1, cx 1 0, turn .h [] 1] =
      (1 : ℂ) • Tag.exactMatrix 2 .iswap [] := by
  refine ext_two fun a b c d => ?_
  have hI := Complex.I_sq
  have hr := rootHalf_sq
  simp +decide only [stepProduct_cons_mulVec, stepProduct_nil_mulVec, turn_of_two, cx_of_two,
    smul_mulVec_two, Tag.exactMatrix_s, Tag.exactMatrix_h, Tag.exactMatrix_iswap]
  simp
  refine ⟨?_, ?_, ?_, ?_⟩ <;> grind

def zzSteps (t : ℝ) : List RuleStep := [cx 0 1, turn .rz [t] 1, cx 0 1]

theorem zzSteps_mulVec (t : ℝ) (a b c d : ℂ) :
    stepProduct 2 (zzSteps t) *ᵥ ![a, b, c, d] =
      ![unitPhase (-(t / 2)) * a, unitPhase (t / 2) * b, unitPhase (t / 2) * c,
        unitPhase (-(t / 2)) * d] := by
  simp +decide only [zzSteps, stepProduct_cons_mulVec, stepProduct_nil_mulVec, turn_of_two,
    cx_of_two, Tag.exactMatrix_rz]
  simp

theorem rzz_steps (t : ℝ) :
    stepProduct 2 (zzSteps t) = (1 : ℂ) • Tag.exactMatrix 2 .rzz [t] := by
  refine ext_two fun a b c d => ?_
  rw [zzSteps_mulVec, smul_mulVec_two, Tag.exactMatrix_rzz]
  simp

theorem rxx_steps (t : ℝ) :
    stepProduct 2
        ([turn .h [] 0, turn .h [] 1] ++ zzSteps t ++ [turn .h [] 0, turn .h [] 1]) =
      (1 : ℂ) • Tag.exactMatrix 2 .rxx [t] := by
  refine ext_two fun a b c d => ?_
  have hr := rootHalf_sq
  rw [stepProduct_append, stepProduct_append, ← mulVec_mulVec, ← mulVec_mulVec]
  simp +decide only [stepProduct_cons_mulVec, stepProduct_nil_mulVec, turn_of_two,
    zzSteps_mulVec, smul_mulVec_two, Tag.exactMatrix_h, Tag.exactMatrix_rxx, unitPhase_half,
    unitPhase_neg_half]
  simp
  refine ⟨?_, ?_, ?_, ?_⟩ <;> grind

theorem ryy_steps (t : ℝ) :
    stepProduct 2 ([turn .rx [halfPi] 0, turn .rx [halfPi] 1] ++ zzSteps t ++
        [turn .rx [-halfPi] 0, turn .rx [-halfPi] 1]) =
      (1 : ℂ) • Tag.exactMatrix 2 .ryy [t] := by
  refine ext_two fun a b c d => ?_
  have hI := Complex.I_sq
  have hr := rootHalf_sq
  rw [stepProduct_append, stepProduct_append, ← mulVec_mulVec, ← mulVec_mulVec]
  simp +decide only [stepProduct_cons_mulVec, stepProduct_nil_mulVec, turn_of_two,
    zzSteps_mulVec, smul_mulVec_two, Tag.exactMatrix_rx, Tag.exactMatrix_ryy, cosHalf_neg,
    sinHalf_neg, cosHalf_halfPi, sinHalf_halfPi, unitPhase_half, unitPhase_neg_half]
  simp
  refine ⟨?_, ?_, ?_, ?_⟩ <;> grind

def toffoliSteps : List RuleStep :=
  [turn .h [] 2, cx 1 2, turn .tdg [] 2, cx 0 2, turn .t [] 2, cx 1 2, turn .tdg [] 2, cx 0 2,
    turn .t [] 1, turn .t [] 2, turn .h [] 2, cx 0 1, turn .t [] 0, turn .tdg [] 1, cx 0 1]

theorem unitPhase_quarterPi_mul_neg :
    unitPhase (Real.pi / 4) * unitPhase (-(Real.pi / 4)) = 1 := by
  rw [← unitPhase_add, add_neg_cancel, unitPhase_zero]

theorem unitPhase_quarterPi_pow : unitPhase (Real.pi / 4) ^ 4 = -1 := by
  have h : unitPhase (Real.pi / 4) ^ 4 = unitPhase Real.pi := by
    rw [show Real.pi = Real.pi / 4 + Real.pi / 4 + Real.pi / 4 + Real.pi / 4 by ring]
    simp only [unitPhase_add]
    ring_nf
  exact h.trans Complex.exp_pi_mul_I

theorem toffoliSteps_mulVec (a b c d e f g h : ℂ) :
    stepProduct 3 toffoliSteps *ᵥ ![a, b, c, d, e, f, g, h] = ![a, b, c, d, e, f, h, g] := by
  simp +decide only [toffoliSteps, stepProduct_cons_mulVec, stepProduct_nil_mulVec, turn_of_three,
    cx_of_three, Tag.exactMatrix_h,
    Tag.exactMatrix_t, Tag.exactMatrix_tdg]
  -- only three facts on the numbers are used: `w u = 1`, `w ^ 4 = -1` and `rootHalf ^ 2 = 1 / 2`
  have hwu := unitPhase_quarterPi_mul_neg
  have hw := unitPhase_quarterPi_pow
  have hr := rootHalf_sq
  generalize unitPhase (Real.pi / 4) = w at hwu hw ⊢
  generalize unitPhase (-(Real.pi / 4)) = u at hwu hw ⊢
  simp
  refine ⟨?_, ?_, ?_, ?_, ?_, ?_, ?_, ?_⟩ <;> grind

theorem ccx_steps :
    stepProduct 3 toffoliSteps = (1 : ℂ) • Tag.exactMatrix 3 .ccx [] := by
  rw [one_smul]
  refine ext_three fun a b c d e f g h => ?_
  rw [toffoliSteps_mulVec, Tag.exactMatrix_ccx_mulVec]

theorem cswap_steps :
    stepProduct 3 (cx 2 1 :: toffoliSteps ++ [cx 2 1]) = (1 : ℂ) • Tag.exactMatrix 3 .cswap [] := by
  rw [one_smul]
  refine ext_three fun a b c d e f g h => ?_
  rw [stepProduct_append, ← mulVec_mulVec]
  simp +decide only [stepProduct_cons_mulVec, stepProduct_nil_mulVec, cx_of_three,
    toffoliSteps_mulVec, Tag.exactMatrix_cswap_mulVec]

end Interchange
end
