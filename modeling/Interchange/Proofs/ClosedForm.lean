import Mathlib.Data.Real.Basic
import Interchange.Proofs.Replacement
import Interchange.Proofs.RuleProduct
import Interchange.Proofs.StandardGate
import Interchange.Synthesis.Rules

noncomputable section
namespace Interchange
open Scalar

namespace Param

theorem value?_neg {p : Param ℝ} {v : ℝ} (h : p.value? = some v) : (-p).value? = some (-v) :=
  value?_simplify (congrArg (Option.map _) h)

theorem value?_halved {p : Param ℝ} {v : ℝ} (h : p.value? = some v) :
    (Synthesis.halved p).value? = some (v / two) := by
  refine value?_simplify ?_
  simp [value?, h, two_real]

end Param

namespace Gate

/-- Exact numbers are finite, so a gate can be built once its parameters have values. -/
theorem new_of_values {tag : Tag} {params : List (Param ℝ)} {values : List ℝ}
    (hu : tag ≠ .unitary) (hl : params.length = tag.paramCount)
    (hv : values? params = some values) :
    new tag params = .ok ⟨tag, params.map Param.simplify, tag.matrix? values⟩ := by
  have hs := values?_simplify hv
  refine new_eq_ok_iff.mpr ⟨hu, hl, ?_, ?_⟩
  · intro p hp
    obtain ⟨v, -, hpv⟩ := exists_of_forall₂_left (mapM_eq_some_iff.mp hs) hp
    simp [Param.isAdmissible, hpv, isFinite]
  · rw [hs]
    rfl

end Gate

namespace RuleStep

/-- A step of a rule is the gate with the given numbers, and the gate is in the common core. -/
def Emitted (x : Except (CircuitError ℝ) (Substitute ℝ)) (s : RuleStep) : Prop :=
  ∃ g m, x = .ok ⟨g, s.operands⟩ ∧ g.tag = s.tag ∧ s.tag ∈ Tag.commonCore ∧ g.matrix = some m ∧
    s.tag.matrix? s.angles = some m

theorem emitted_new {tag : Tag} {params : List (Param ℝ)} {values : List ℝ} (ops : List ℕ)
    (ht : tag ∈ Tag.commonCore) (hl : params.length = tag.paramCount)
    (hv : Gate.values? params = some values) :
    Emitted (Substitute.new tag params ops) ⟨tag, values, ops⟩ := by
  have hlen : values.length = tag.paramCount :=
    (mapM_eq_some_iff.mp hv).length_eq.symm.trans hl
  have hu : tag ≠ .unitary := by
    rintro rfl
    simp [Tag.commonCore] at ht
  have hmeasure : tag ≠ .measure := by
    rintro rfl
    simp [Tag.commonCore] at ht
  obtain ⟨m, hm⟩ := Tag.exists_matrix hu hmeasure hlen
  refine ⟨⟨tag, params.map Param.simplify, tag.matrix? values⟩, m, ?_, rfl, ht, hm, hm⟩
  rw [Substitute.new, Gate.new_of_values hu hl hv]
  rfl

theorem emitted_fixed {tag : Tag} (ops : List ℕ)
    (ht : tag ∈ Tag.commonCore ∧ tag.paramCount = 0) :
    Emitted (Substitute.fixed tag ops) ⟨tag, [], ops⟩ :=
  emitted_new ops ht.1 ht.2.symm rfl

theorem emitted_turn {tag : Tag} {p : Param ℝ} {v : ℝ} (q : ℕ)
    (ht : tag ∈ Tag.commonCore ∧ tag.paramCount = 1) (hv : p.value? = some v) :
    Emitted (Substitute.turn tag p q) ⟨tag, [v], [q]⟩ :=
  emitted_new [q] ht.1 ht.2.symm (mapM_eq_some_iff.mpr (.cons hv .nil))

theorem emitted_const {tag : Tag} {v : ℝ} (q : ℕ)
    (ht : tag ∈ Tag.commonCore ∧ tag.paramCount = 1) :
    Emitted (Substitute.turn tag (.const v) q) ⟨tag, [v], [q]⟩ := emitted_turn q ht rfl

end RuleStep

namespace Synthesis
open RuleStep

def ruleTags : List Tag :=
  [.sx, .sxdg, .phase, .u, .cy, .ch, .cphase, .crx, .cry, .crz, .swap, .iswap, .rxx, .ryy, .rzz,
    .ccx, .cswap]

def ruleSteps : Tag → List ℝ → List RuleStep
  | .sx, _ => [turn .rx [halfPi] 0]
  | .sxdg, _ => [turn .rx [-halfPi] 0]
  | .phase, [t] => [turn .rz [t] 0]
  | .u, [θ, φ, l] => [turn .rz [l] 0, turn .ry [θ] 0, turn .rz [φ] 0]
  | .cy, _ => [turn .sdg [] 1, cx 0 1, turn .s [] 1]
  | .ch, _ => [turn .ry [quarterPi] 1, cx 0 1, turn .ry [-quarterPi] 1]
  | .cphase, [t] =>
    [turn .rz [t / two] 0, cx 0 1, turn .rz [-(t / two)] 1, cx 0 1, turn .rz [t / two] 1]
  | .crz, [t] => controlledTurnSteps .rz t
  | .cry, [t] => controlledTurnSteps .ry t
  | .crx, [t] => turn .h [] 1 :: controlledTurnSteps .rz t ++ [turn .h [] 1]
  | .swap, _ => [cx 0 1, cx 1 0, cx 0 1]
  | .iswap, _ => [turn .s [] 0, turn .s [] 1, turn .h [] 0, cx 0 1, cx 1 0, turn .h [] 1]
  | .rzz, [t] => zzSteps t
  | .rxx, [t] => [turn .h [] 0, turn .h [] 1] ++ zzSteps t ++ [turn .h [] 0, turn .h [] 1]
  | .ryy, [t] =>
    [turn .rx [halfPi] 0, turn .rx [halfPi] 1] ++ zzSteps t ++
      [turn .rx [-halfPi] 0, turn .rx [-halfPi] 1]
  | .ccx, _ => toffoliSteps
  | .cswap, _ => cx 2 1 :: toffoliSteps ++ [cx 2 1]
  | _, _ => []

theorem values?_singleton {params : List (Param ℝ)} {values : List ℝ} (hl : params.length = 1)
    (hv : Gate.values? params = some values) :
    ∃ p v, params = [p] ∧ values = [v] ∧ p.value? = some v := by
  obtain ⟨p, rfl⟩ := List.length_eq_one_iff.mp hl
  obtain ⟨v, r, hpv, hr, rfl⟩ := List.forall₂_cons_left_iff.mp (mapM_eq_some_iff.mp hv)
  exact ⟨p, v, rfl, by rw [List.forall₂_nil_left_iff.mp hr], hpv⟩

theorem zzRotation_emitted {p : Param ℝ} {v : ℝ} (hp : p.value? = some v) :
    List.Forall₂ Emitted (zzRotation p) (zzSteps v) := by
  simp (disch := first | decide | assumption) [zzRotation, zzSteps, emitted_fixed, emitted_turn]

theorem controlledTurn_emitted {axis : Tag} (ha : axis ∈ [Tag.ry, Tag.rz]) {p : Param ℝ} {v : ℝ}
    (hp : p.value? = some v) :
    List.Forall₂ Emitted (controlledTurn axis p) (controlledTurnSteps axis v) := by
  have hh := Param.value?_halved hp
  have hn := Param.value?_neg hh
  simp only [List.mem_cons, List.not_mem_nil, or_false] at ha
  rcases ha with rfl | rfl
  all_goals
    simp (disch := first | decide | assumption) [controlledTurn, controlledTurnSteps, emitted_fixed,
      emitted_turn]

theorem toffoli_emitted : List.Forall₂ Emitted (toffoli 0 1 2) toffoliSteps := by
  simp (disch := decide) [toffoli, toffoliSteps, emitted_fixed]

theorem rule?_emitted {tag : Tag} (ht : tag ∈ ruleTags) {params : List (Param ℝ)}
    {values : List ℝ} (hl : params.length = tag.paramCount)
    (hv : Gate.values? params = some values) :
    ∃ steps, rule? tag params = some steps ∧
      List.Forall₂ Emitted steps (ruleSteps tag values) := by
  cases tag with
  | sx | sxdg | cy | ch | swap | iswap =>
    refine ⟨_, rfl, ?_⟩
    simp (disch := decide) [ruleSteps, emitted_fixed, emitted_const]
  | phase =>
    obtain ⟨p, v, rfl, rfl, hp⟩ := values?_singleton hl hv
    refine ⟨_, rfl, ?_⟩
    exact .cons (emitted_turn 0 (by decide) hp) .nil
  | u =>
    obtain ⟨p, q, r, rfl⟩ := List.length_eq_three.mp hl
    simp only [Gate.values?, mapM_eq_some_iff, List.forall₂_cons_left_iff,
      List.forall₂_nil_left_iff] at hv
    obtain ⟨θ, _, hp, ⟨φ, _, hq, ⟨l, _, hr, rfl, rfl⟩, rfl⟩, rfl⟩ := hv
    refine ⟨_, rfl, ?_⟩
    simp (disch := first | decide | assumption) [ruleSteps, emitted_turn]
  | cphase =>
    obtain ⟨p, v, rfl, rfl, hp⟩ := values?_singleton hl hv
    have hh := Param.value?_halved hp
    have hn := Param.value?_neg hh
    refine ⟨_, rfl, ?_⟩
    simp (disch := first | decide | assumption) [ruleSteps, emitted_fixed, emitted_turn]
  | crz | cry =>
    obtain ⟨p, v, rfl, rfl, hp⟩ := values?_singleton hl hv
    exact ⟨_, rfl, controlledTurn_emitted (by decide) hp⟩
  | crx =>
    obtain ⟨p, v, rfl, rfl, hp⟩ := values?_singleton hl hv
    refine ⟨_, rfl, .cons (emitted_fixed [1] (by decide)) ?_⟩
    exact List.rel_append (controlledTurn_emitted (by decide) hp)
      (.cons (emitted_fixed [1] (by decide)) .nil)
  | rzz =>
    obtain ⟨p, v, rfl, rfl, hp⟩ := values?_singleton hl hv
    exact ⟨_, rfl, zzRotation_emitted hp⟩
  | rxx =>
    obtain ⟨p, v, rfl, rfl, hp⟩ := values?_singleton hl hv
    have hh : List.Forall₂ Emitted (onBoth fun q => Substitute.fixed .h [q])
        [turn .h [] 0, turn .h [] 1] := by
      simp (disch := decide) [onBoth, emitted_fixed]
    exact ⟨_, rfl, List.rel_append (List.rel_append hh (zzRotation_emitted hp)) hh⟩
  | ryy =>
    obtain ⟨p, v, rfl, rfl, hp⟩ := values?_singleton hl hv
    have hx (w : ℝ) : List.Forall₂ Emitted (onBoth (Substitute.turn .rx (.const w)))
        [turn .rx [w] 0, turn .rx [w] 1] := by
      simp (disch := decide) [onBoth, emitted_const]
    exact ⟨_, rfl, List.rel_append (List.rel_append (hx _) (zzRotation_emitted hp)) (hx _)⟩
  | ccx => exact ⟨_, rfl, toffoli_emitted⟩
  | cswap =>
    refine ⟨_, rfl, .cons (emitted_fixed [2, 1] (by decide)) ?_⟩
    exact List.rel_append toffoli_emitted (.cons (emitted_fixed [2, 1] (by decide)) .nil)
  | _ => simp [ruleTags] at ht

def ruleQubits (tag : Tag) : ℕ := tag.qubits?.getD 0

/-- Each rule multiplies out to the matrix of its tag, with the phase that the rotations lack. -/
theorem ruleSteps_product {tag : Tag} (ht : tag ∈ ruleTags) {values : List ℝ}
    (hl : values.length = tag.paramCount) :
    ∃ (m : Operator ℝ) (z : ℂ), tag.matrix? values = some m ∧ ‖z‖ = 1 ∧
      stepProduct (ruleQubits tag) (ruleSteps tag values) = z • m.toMatrix (ruleQubits tag) := by
  cases tag with
  | sx =>
    obtain rfl := List.length_eq_zero_iff.mp hl
    exact ⟨_, _, rfl, norm_unitPhase _, sx_steps⟩
  | sxdg =>
    obtain rfl := List.length_eq_zero_iff.mp hl
    exact ⟨_, _, rfl, norm_unitPhase _, sxdg_steps⟩
  | phase =>
    obtain ⟨t, rfl⟩ := List.length_eq_one_iff.mp hl
    exact ⟨_, _, rfl, norm_unitPhase _, phase_steps t⟩
  | u =>
    obtain ⟨θ, φ, l, rfl⟩ := List.length_eq_three.mp hl
    exact ⟨_, _, rfl, norm_unitPhase _, u_steps θ φ l⟩
  | cy =>
    obtain rfl := List.length_eq_zero_iff.mp hl
    exact ⟨_, 1, rfl, norm_one, cy_steps⟩
  | ch =>
    obtain rfl := List.length_eq_zero_iff.mp hl
    exact ⟨_, 1, rfl, norm_one, ch_steps⟩
  | cphase =>
    obtain ⟨t, rfl⟩ := List.length_eq_one_iff.mp hl
    exact ⟨_, _, rfl, norm_unitPhase _, cphase_steps t⟩
  | crx =>
    obtain ⟨t, rfl⟩ := List.length_eq_one_iff.mp hl
    exact ⟨_, 1, rfl, norm_one, crx_steps t⟩
  | cry =>
    obtain ⟨t, rfl⟩ := List.length_eq_one_iff.mp hl
    exact ⟨_, 1, rfl, norm_one, cry_steps t⟩
  | crz =>
    obtain ⟨t, rfl⟩ := List.length_eq_one_iff.mp hl
    exact ⟨_, 1, rfl, norm_one, crz_steps t⟩
  | swap =>
    obtain rfl := List.length_eq_zero_iff.mp hl
    exact ⟨_, 1, rfl, norm_one, swap_steps⟩
  | iswap =>
    obtain rfl := List.length_eq_zero_iff.mp hl
    exact ⟨_, 1, rfl, norm_one, iswap_steps⟩
  | rxx =>
    obtain ⟨t, rfl⟩ := List.length_eq_one_iff.mp hl
    exact ⟨_, 1, rfl, norm_one, rxx_steps t⟩
  | ryy =>
    obtain ⟨t, rfl⟩ := List.length_eq_one_iff.mp hl
    exact ⟨_, 1, rfl, norm_one, ryy_steps t⟩
  | rzz =>
    obtain ⟨t, rfl⟩ := List.length_eq_one_iff.mp hl
    exact ⟨_, 1, rfl, norm_one, rzz_steps t⟩
  | ccx =>
    obtain rfl := List.length_eq_zero_iff.mp hl
    exact ⟨_, 1, rfl, norm_one, ccx_steps⟩
  | cswap =>
    obtain rfl := List.length_eq_zero_iff.mp hl
    exact ⟨_, 1, rfl, norm_one, cswap_steps⟩
  | _ => simp [ruleTags] at ht

theorem sequence_of_emitted {steps : List (Except (CircuitError ℝ) (Substitute ℝ))}
    {rs : List RuleStep} (h : List.Forall₂ Emitted steps rs) (n : ℕ) :
    ∃ seq, steps.mapM (fun step => step) = .ok seq ∧
      (∀ s ∈ seq, s.gate.tag ∈ Tag.commonCore) ∧
      timeProduct n (Sequence.actions seq) = some (stepProduct n rs) := by
  simp only [mapM_eq_ok_iff]
  induction h with
  | nil => exact ⟨[], .nil, by simp, rfl⟩
  | @cons x r steps rs hx _ ih =>
    obtain ⟨g, m, hx, htag, hcore, hm, hr⟩ := hx
    obtain ⟨seq, hseq, htags, hprod⟩ := ih
    refine ⟨⟨g, r.operands⟩ :: seq, .cons hx hseq, ?_, ?_⟩
    · rw [List.forall_mem_cons]
      exact ⟨htag ▸ hcore, htags⟩
    · refine timeProduct_cons.mpr ⟨m, _, hm, hprod, ?_⟩
      rw [stepProduct, RuleStep.matrix, Tag.exactMatrix, hr, Option.getD_some]

theorem rule?_eq_none {tag : Tag} (ht : tag ∉ ruleTags) (params : List (Param ℝ)) :
    rule? tag params = none := by
  cases tag with
  | h | x | y | z | s | sdg | t | tdg | id | rx | ry | rz | cx | cz | unitary | measure => rfl
  | _ => simp [ruleTags] at ht

theorem closedForm_of_rule {tag : Tag} (ht : tag ∈ ruleTags) {params : List (Param ℝ)}
    {values : List ℝ} (hl : params.length = tag.paramCount)
    (hv : Gate.values? params = some values) :
    ∃ seq, closedForm ⟨tag, params, tag.matrix? values⟩ = .ok (some seq) ∧
      Realizes seq ⟨tag, params, tag.matrix? values⟩ ∧ ∀ s ∈ seq, s.gate.tag ∈ Tag.commonCore := by
  have hlv : values.length = tag.paramCount := (mapM_eq_some_iff.mp hv).length_eq.symm.trans hl
  have hu : tag ≠ .unitary := by
    rintro rfl
    simp [ruleTags] at ht
  obtain ⟨steps, hrule, hsteps⟩ := rule?_emitted ht hl hv
  obtain ⟨seq, hseq, hcore, hprod⟩ := sequence_of_emitted hsteps (ruleQubits tag)
  obtain ⟨m, z, hm, hz, hstep⟩ := ruleSteps_product ht hlv
  refine ⟨seq, ?_, ⟨m, z, hm, hz, ?_⟩, hcore⟩
  · rw [closedForm, hrule]
    exact bind_eq_ok_iff.mpr ⟨seq, hseq, rfl⟩
  · rw [Gate.qubits_of_tag hu]
    exact hprod.trans (congrArg some hstep)

theorem decompose_of_rule [Eigensolver ℝ] {g : Gate ℝ} {seq : Sequence ℝ}
    (h : closedForm g = .ok (some seq))
    {tolerance : ℝ} : decompose tolerance g = .ok seq := by
  rw [decompose, h]
  rfl

/-- Every rule is right for all angles: a gate of a tag with a rule has the matrix of its tag, its
rule gives a sequence of common gates, and the sequence multiplies out to that matrix up to a phase.
No other tag has a rule. -/
theorem closedForm_realizes (tag : Tag) (hu : tag ≠ .unitary) {params : List (Param ℝ)}
    {values : List ℝ} (hl : params.length = tag.paramCount)
    (hv : Gate.values? params = some values) :
    ∃ g, Gate.new tag params = .ok g ∧ g.matrix = tag.matrix? values ∧
      (tag ∉ ruleTags → closedForm g = .ok none) ∧
      (tag ∈ ruleTags → ∃ seq, closedForm g = .ok (some seq) ∧ Realizes seq g ∧
        ∀ s ∈ seq, s.gate.tag ∈ Tag.commonCore) := by
  refine ⟨_, Gate.new_of_values hu hl hv, rfl, ?_, ?_⟩
  · intro ht
    rw [closedForm, rule?_eq_none ht]
  · intro ht
    exact closedForm_of_rule ht (by rwa [List.length_map]) (Gate.values?_simplify hv)

theorem closedForm_realizes_u :
    ∃ g seq, Gate.new .u [.const 1, .pi, .neg .pi] = .ok g ∧
      g.matrix = Tag.u.matrix? [1, Real.pi, -Real.pi] ∧ closedForm g = .ok (some seq) ∧
      Realizes seq g ∧ ∀ s ∈ seq, s.gate.tag ∈ Tag.commonCore := by
  have hv : Gate.values? [Param.const 1, .pi, .neg .pi] = some [1, Real.pi, -Real.pi] := rfl
  obtain ⟨g, hg, hm, -, hrule⟩ := closedForm_realizes .u (by decide) rfl hv
  obtain ⟨seq, hseq, hreal, hcore⟩ := hrule (by decide)
  exact ⟨g, seq, hg, hm, hseq, hreal, hcore⟩

end Synthesis

end Interchange
end
