import Interchange.Proofs.LoweredParameters
import Interchange.Proofs.ParamRereading
import Interchange.Proofs.RepeatedLowering

namespace Interchange

variable {F : Type} [Scalar F] {table : GateTable} {b : Bindings F}

/-- Bindings without a value for any of the parameters do nothing but simplify. -/
theorem Param.substitute_of_unbound {p : Param F} (h : p.RefsAll fun r => b.get? r.name = none) :
    p.substitute b = p.substitute {} := by
  induction p with
  | const | pi => rfl
  | ref r =>
    rw [substitute, show b.get? r.name = none from h]
    rfl
  | neg e ih => rw [substitute, substitute, ih h]
  | add x y ihx ihy | sub x y ihx ihy | mul x y ihx ihy | div x y ihx ihy =>
    rw [substitute, substitute, ihx h.1, ihy h.2]

namespace Gate

def Unbound (b : Bindings F) (g : Gate F) : Prop :=
  ∀ p ∈ g.params, p.RefsAll fun r => b.get? r.name = none

theorem Unbound.substitute_eq {g : Gate F} (h : g.Unbound b) :
    g.substitute b = g.substitute {} := by
  have hparams : g.params.map (·.substitute b) = g.params.map (·.substitute {}) :=
    List.map_congr_left fun p hp => Param.substitute_of_unbound (h p hp)
  rw [substitute, substitute, hparams]

theorem unbound_of_substitute {g g' : Gate F} (h : g.substitute b = .ok g') : g'.Unbound b := by
  rw [substitute] at h
  split_ifs at h with hg
  · refine refsAll_of_new h fun p hp => ?_
    obtain ⟨q, -, rfl⟩ := List.mem_map.mp hp
    exact Param.refsAll_substitute.mpr (Param.refsAll_of_forall (fun _ => id) q)
  · obtain rfl := Except.ok.inj h
    intro p hp
    refine .of_not_symbolic (Bool.eq_false_iff.mpr fun hsymbolic => hg ?_)
    exact List.any_eq_true.mpr ⟨p, hp, hsymbolic⟩

theorem substitute_empty_of_substitute [FiniteAngles F] {g g' : Gate F}
    (h : g.substitute b = .ok g') : g'.substitute {} = .ok g' := by
  rw [← (unbound_of_substitute h).substitute_eq]
  exact substitute_substitute h

theorem substitute_measure {g g' : Gate F} (hm : g.tag = .measure) (h : g.substitute b = .ok g') :
    g' = g := by
  rw [substitute] at h
  split_ifs at h with hg
  · obtain ⟨p, hp, -⟩ := List.any_eq_true.mp hg
    obtain ⟨-, hlength, -⟩ := new_eq_ok_iff.mp h
    rw [hm, List.length_map] at hlength
    exact absurd hlength (List.length_pos_of_mem hp).ne'
  · exact (Except.ok.inj h).symm

end Gate

namespace Lowering

variable {tolerance : F} {levels : ℕ}

theorem bindFor_of_unbound {g : Gate F} (h : g.Unbound b) :
    bindFor table b g = bindFor table {} g := by
  rw [bindFor, h.substitute_eq]
  rfl

theorem bindFor_of_substitute [FiniteAngles F] {g g' : Gate F} (h : g.substitute b = .ok g') :
    bindFor table b g = bindFor table {} g' := by
  rw [bindFor, bindFor, h, Gate.substitute_empty_of_substitute h]

theorem unbound_of_bindFor {g g' : Gate F} (h : bindFor table b g = .ok g') : g'.Unbound b := by
  obtain ⟨bound, hbound, h⟩ := bind_eq_ok_iff.mp h
  split at h
  · cases h
  · obtain rfl := Except.ok.inj h
    exact Gate.unbound_of_substitute (ConvertError.lift_eq_ok_iff.mp hbound)

variable [Eigensolver F]

/-- A gate that comes to be the same with and without the bindings is replaced by the same gates,
if the gates without bound parameters are. -/
theorem instruction_step {i : Instruction F} {g : Gate F} (hi : i.isMeasure = false)
    (hg : g.tag = i.gate.tag) (hbind : bindFor table b i.gate = bindFor table {} g)
    (hnext : ∀ n < levels, ∀ k : Instruction F, k.gate.Unbound b →
      instruction table b tolerance n k = instruction table {} tolerance n k) :
    instruction table b tolerance levels i =
      instruction table {} tolerance levels { i with gate := g } := by
  have hi' : ({ i with gate := g } : Instruction F).isMeasure = false := by
    rw [← hi, Instruction.isMeasure, Instruction.tag, hg]
    rfl
  unfold instruction
  rw [hi, hi', if_neg Bool.false_ne_true, if_neg Bool.false_ne_true, ← hbind]
  refine bind_congr_ok fun bound hbound => ?_
  split
  · rfl
  cases levels with
  | zero => rfl
  | succ rest =>
    dsimp only
    split
    · rfl
    next seq hseq =>
      refine bind_congr_ok fun placed hplaced => ?_
      rw [ConvertError.lift_eq_ok_iff, Substitute.placeAll, mapM_eq_ok_iff] at hplaced
      refine congrArg (· >>= _) (mapM_congr_forall₂ (List.forall₂_same.mpr fun k hk => ?_))
      obtain ⟨s, hs, hplace⟩ := exists_of_forall₂_right hplaced hk
      obtain ⟨-, -, -, rfl⟩ := Substitute.place_eq_ok_iff.mp hplace
      refine hnext rest (Nat.lt_succ_self rest) _ ?_
      exact Synthesis.refsAll_of_decompose (unbound_of_bindFor hbound) hseq s hs

/-- Bindings without a value for any parameter of a gate do nothing at any level. -/
theorem instruction_of_unbound {i : Instruction F} (h : i.gate.Unbound b) :
    instruction table b tolerance levels i = instruction table {} tolerance levels i := by
  induction levels using Nat.strong_induction_on generalizing i with
  | _ levels ih =>
    cases hm : i.isMeasure with
    | false => exact instruction_step hm rfl (bindFor_of_unbound h) fun n hn k hk => ih n hn hk
    | true => rw [instruction_of_isMeasure hm, instruction_of_isMeasure hm]

theorem instruction_of_substitute [FiniteAngles F] {i : Instruction F} {g : Gate F}
    (h : i.gate.substitute b = .ok g) :
    instruction table b tolerance levels i =
      instruction table {} tolerance levels { i with gate := g } := by
  cases hm : i.isMeasure with
  | false =>
    exact instruction_step hm (Gate.tag_of_substitute h) (bindFor_of_substitute h)
      fun n _ k hk => instruction_of_unbound hk
  | true =>
    obtain rfl := Gate.substitute_measure (beq_iff_eq.mp hm) h
    rw [instruction_of_isMeasure hm, instruction_of_isMeasure hm]

/-- Binding a circuit and lowering it then gives what lowering with the bindings gives, circuit or
error, also where the bindings leave parameters free. -/
theorem circuit_of_bind [FiniteAngles F] (table : GateTable) (b : Bindings F) (tolerance : F)
    (c c' : Circuit F) (h : c.bind b = .ok c') :
    circuit table b tolerance c = circuit table {} tolerance c' := by
  obtain ⟨bound, hbound, h⟩ := bind_eq_ok_iff.mp h
  obtain ⟨-, rfl⟩ := Circuit.withInstructions_eq_ok_iff.mp h
  have hsame : c.instructions.mapM (instruction table b tolerance maxDepth) =
      bound.mapM (instruction table {} tolerance maxDepth) := by
    refine mapM_congr_forall₂ ((mapM_eq_ok_iff.mp hbound).imp fun i j hij => ?_)
    obtain ⟨g, hg, hj⟩ := bind_eq_ok_iff.mp hij
    obtain ⟨-, rfl⟩ := Instruction.withGate_eq_ok_iff.mp hj
    exact instruction_of_substitute hg
  rw [circuit_eq, circuit_eq, hsame]
  rfl

/-- The offset is bound to nothing and the angle to a quarter, so that a turn by a number is left
and the controlled turn is still replaced. -/
theorem circuit_of_bind_turnBack :
    ∃ c' lowered, turnBack.bind ⟨[("offset", 0.0), ("angle", 0.25)]⟩ = .ok c' ∧
      c'.freeParameters = [] ∧ circuit Cirq.table {} 1e-7 c' = .ok lowered ∧
      lowered.instructions.map (·.gate.tag) = [.rx, .h, .rz, .cx, .rz, .cx, .h, .measure] ∧
      circuit Cirq.table ⟨[("offset", 0.0), ("angle", 0.25)]⟩ 1e-7 turnBack = .ok lowered := by
  obtain ⟨c', lowered, hbind, hfree, hlowered, htags⟩ :
      ∃ c' lowered, turnBack.bind ⟨[("offset", 0.0), ("angle", 0.25)]⟩ = .ok c' ∧
        c'.freeParameters = [] ∧ circuit Cirq.table {} 1e-7 c' = .ok lowered ∧
        lowered.instructions.map (·.gate.tag) = [.rx, .h, .rz, .cx, .rz, .cx, .h, .measure] :=
    ⟨_, _, rfl, rfl, rfl, rfl⟩
  refine ⟨c', lowered, hbind, hfree, hlowered, htags, ?_⟩
  exact (circuit_of_bind Cirq.table _ 1e-7 turnBack c' hbind).trans hlowered

end Lowering

namespace Param
open Scalar

variable {b : Bindings Float} {p p' : Param Float} {v : Float}

/-- A simplified expression has a finite value under the bindings, which stands in its place unless
it is without parameters from the start. -/
def BindsTo (b : Bindings Float) (p p' : Param Float) : Prop :=
  p.Folded ∧ ∃ v, p.evaluate b = .ok v ∧ isFinite v = true ∧
    p' = if p.isSymbolic then .const v else p

namespace BindsTo

theorem const (hv : isFinite v = true) : BindsTo b (.const v) (.const v) :=
  ⟨trivial, v, rfl, hv, rfl⟩

theorem neg (h : BindsTo b p p') : BindsTo b (-p) (-p') := by
  obtain ⟨hp, v, hv, hfinite, rfl⟩ := h
  refine ⟨folded_simplify _, -v, ?_, FiniteAngles.isFinite_neg hfinite, ?_⟩
  · exact evaluate_simplify_of_folded (fun hvalue => ⟨hvalue, hp⟩)
      (evaluate_neg_eq_ok.mpr ⟨v, hv, rfl⟩)
  · change _ = if (Param.neg p).simplify.isSymbolic then _ else _
    rw [isSymbolic_simplify, isSymbolic]
    split_ifs <;> rfl

theorem halved (h : BindsTo b p p') : BindsTo b (Synthesis.halved p) (Synthesis.halved p') := by
  obtain ⟨hp, v, hv, hfinite, rfl⟩ := h
  refine ⟨folded_simplify _, v / two, ?_, FiniteAngles.isFinite_half hfinite, ?_⟩
  · exact evaluate_simplify_of_folded (fun hvalue => ⟨hvalue, rfl, hp, trivial⟩)
      (evaluate_div_eq_ok.mpr ⟨v, two, hv, rfl, rfl, rfl⟩)
  · change _ = if (Param.div p (.const two)).simplify.isSymbolic then _ else _
    rw [isSymbolic_simplify, isSymbolic, isSymbolic, Bool.or_false]
    split_ifs <;> rfl

theorem simplify (h : BindsTo b p p') : BindsTo b p.simplify p'.simplify := by
  obtain ⟨hp, v, hv, hfinite, rfl⟩ := h
  refine ⟨folded_simplify p, v, evaluate_simplify_of_folded (fun _ => hp) hv, hfinite, ?_⟩
  rw [isSymbolic_simplify]
  split_ifs <;> rfl

/-- Binding the parameters of an expression and simplifying what is left. -/
theorem of_substitute (hp : p.Folded) (hcovered : p.RefsAll fun r => (b.get? r.name).isSome = true)
    (ha : (p.substitute b).simplify.isAdmissible = true) :
    BindsTo b p (p.substitute b).simplify := by
  have hnumber : (p.substitute b).isSymbolic = false := by
    rw [isSymbolic_eq_false_iff, refsAll_substitute]
    exact hcovered.mono fun r hr hnone => by simp [hnone] at hr
  rw [isAdmissible, isSymbolic_simplify, hnumber, Bool.false_or, value?_simplified,
    Option.any_eq_true] at ha
  obtain ⟨v, hvalue, hfinite⟩ := ha
  have hv := value?_substitute_eq_some_iff.mp hvalue
  refine ⟨hp, v, hv, hfinite, ?_⟩
  split_ifs with hs
  · rw [substitute_eq_const hs hv]
    rfl
  · rw [Bool.not_eq_true] at hs
    rw [value?_substitute (.of_not_symbolic hs)] at hvalue
    rcases hp.eq_of_value? hvalue with rfl | ⟨rfl, -⟩ <;> rfl

end BindsTo

end Param

namespace Gate

variable {b : Bindings Float} {p p' : Param Float}

theorem substitute_of_bindsTo {tag : Tag} (htag : tag ≠ .unitary) (hcount : tag.paramCount = 1)
    (h : p.BindsTo b p') :
    ∃ g g', new tag [p] = .ok g ∧ g.substitute b = .ok g' ∧ new tag [p'] = .ok g' := by
  obtain ⟨-, v, hv, hfinite, hp'⟩ := h.simplify
  have hnew (q : Param Float) (hq : q.simplify.isAdmissible = true) :
      new tag [q] = .ok ⟨tag, [q.simplify], (values? [q.simplify]).bind tag.matrix?⟩ := by
    refine new_eq_ok_iff.mpr ⟨htag, hcount.symm, ?_, rfl⟩
    simpa using hq
  have hconst : (Param.const v).simplify.isAdmissible = true := by
    simpa [Param.isAdmissible, Param.simplify, Param.isSymbolic, Param.value?] using hfinite
  cases hs : p.simplify.isSymbolic with
  | true =>
    rw [hs, if_pos rfl] at hp'
    refine ⟨_, _, hnew p (by simp [Param.isAdmissible, hs]), ?_, hnew p' (hp' ▸ hconst)⟩
    rw [substitute, if_pos (by simp [isParameterized, hs]), hp']
    dsimp only [List.map]
    rw [Param.substitute_eq_const hs hv]
    exact hnew (.const v) hconst
  | false =>
    rw [hs, if_neg Bool.false_ne_true] at hp'
    have hvalue := Param.value?_substitute_eq_some_iff.mpr hv
    rw [Param.value?_substitute (.of_not_symbolic hs)] at hvalue
    have ha : p.simplify.isAdmissible = true := by
      simpa [Param.isAdmissible, hs, hvalue] using hfinite
    refine ⟨_, _, hnew p ha, substitute_of_not_parameterized (by simp [isParameterized, hs]) b, ?_⟩
    rw [hnew p' (hp' ▸ ha), hp']

theorem bindsTo_of_substitute {g g' : Gate Float} (hg : g.IsBuilt)
    (hcovered : ∀ p ∈ g.params, p.RefsAll fun r => (b.get? r.name).isSome = true)
    (h : g.substitute b = .ok g') : List.Forall₂ (Param.BindsTo b) g.params g'.params := by
  have hfolded : ∀ p ∈ g.params, p.Folded := by
    obtain ⟨params, _, hnew, hparams⟩ := hg
    obtain ⟨-, -, -, rfl⟩ := new_eq_ok_iff.mp hnew
    rw [hparams]
    exact List.forall_mem_map.mpr fun p _ => Param.folded_simplify p
  rw [substitute] at h
  split_ifs at h with hparameterized
  · obtain ⟨-, -, hadmissible, rfl⟩ := new_eq_ok_iff.mp h
    dsimp only at hadmissible ⊢
    rw [List.map_map, List.forall₂_map_right_iff, List.forall₂_same]
    intro p hp
    exact .of_substitute (hfolded p hp) (hcovered p hp)
      (hadmissible _ (List.mem_map_of_mem (List.mem_map_of_mem hp)))
  · obtain rfl := Except.ok.inj h
    rw [Bool.not_eq_true] at hparameterized
    refine List.forall₂_same.mpr fun p hp => ?_
    obtain ⟨v, hv, hfinite⟩ := hg.exists_finite hparameterized hp
    refine ⟨hfolded p hp, v, Param.evaluate_of_value? hv b, hfinite, ?_⟩
    rw [Param.isSymbolic_eq_false_of_value? hv, if_neg Bool.false_ne_true]

end Gate

def Substitute.substitute {F : Type} [Scalar F] (s : Substitute F) (b : Bindings F) :
    Except (CircuitError F) (Substitute F) := do return ⟨← s.gate.substitute b, s.operands⟩

namespace Synthesis
open Scalar Substitute

/-- Two steps give a gate each, the second that of the first with its parameters bound. -/
def StepBindsTo (b : Bindings Float) (x x' : Except (CircuitError Float) (Substitute Float)) :
    Prop := ∃ s s', x = .ok s ∧ s.substitute b = .ok s' ∧ x' = .ok s'

variable {b : Bindings Float} {p p' : Param Float}

theorem stepBindsTo_turn {tag : Tag} (htag : tag ≠ .unitary ∧ tag.paramCount = 1) (q : ℕ)
    (h : p.BindsTo b p') : StepBindsTo b (turn tag p q) (turn tag p' q) := by
  obtain ⟨g, g', hg, hbind, hg'⟩ := Gate.substitute_of_bindsTo htag.1 htag.2 h
  refine ⟨⟨g, [q]⟩, ⟨g', [q]⟩, ?_, ?_, ?_⟩
  · rw [turn, new, hg]
    rfl
  · rw [Substitute.substitute, hbind]
    rfl
  · rw [turn, new, hg']
    rfl

theorem stepBindsTo_fixed {tag : Tag} (htag : tag ≠ .unitary ∧ tag.paramCount = 0) (ops : List ℕ) :
    StepBindsTo b (fixed tag ops) (fixed tag ops) := by
  have hnew : Gate.new tag ([] : List (Param Float)) = .ok ⟨tag, [], tag.matrix? []⟩ :=
    Gate.new_eq_ok_iff.mpr ⟨htag.1, htag.2.symm, by simp, rfl⟩
  refine ⟨⟨⟨tag, [], tag.matrix? []⟩, ops⟩, _, ?_, rfl, ?_⟩ <;>
  · rw [fixed, new, hnew]
    rfl

theorem stepBindsTo_const {tag : Tag} (htag : tag ≠ .unitary ∧ tag.paramCount = 1) (q : ℕ)
    {v : Float} (hv : isFinite v = true) :
    StepBindsTo b (turn tag (.const v) q) (turn tag (.const v) q) :=
  stepBindsTo_turn htag q (.const hv)

theorem stepBindsTo_zzRotation (h : p.BindsTo b p') :
    List.Forall₂ (StepBindsTo b) (zzRotation p) (zzRotation p') := by
  simp (disch := first | decide | assumption) [zzRotation, stepBindsTo_fixed, stepBindsTo_turn]

theorem stepBindsTo_controlledTurn {axis : Tag} (haxis : axis ≠ .unitary ∧ axis.paramCount = 1)
    (h : p.BindsTo b p') :
    List.Forall₂ (StepBindsTo b) (controlledTurn axis p) (controlledTurn axis p') := by
  have hhalf := h.halved
  have hneg := hhalf.neg
  simp (disch := first | decide | assumption) [controlledTurn, stepBindsTo_fixed, stepBindsTo_turn]

theorem stepBindsTo_toffoli :
    List.Forall₂ (StepBindsTo b) (toffoli 0 1 2) (toffoli 0 1 2) := by
  simp (disch := decide) [toffoli, stepBindsTo_fixed]

/-- The rule for bound parameters consists of the steps of the rule with their parameters bound. -/
theorem rule?_bindsTo {tag : Tag} {ps ps' : List (Param Float)}
    {steps : List (Except (CircuitError Float) (Substitute Float))}
    (hl : ps.length = tag.paramCount) (hps : List.Forall₂ (Param.BindsTo b) ps ps')
    (h : rule? tag ps = some steps) :
    ∃ steps', rule? tag ps' = some steps' ∧ List.Forall₂ (StepBindsTo b) steps steps' := by
  have hone (hl : ps.length = 1) : ∃ p p', ps = [p] ∧ ps' = [p'] ∧ p.BindsTo b p' := by
    obtain ⟨p, rfl⟩ := List.length_eq_one_iff.mp hl
    obtain ⟨p', rest, hp, hrest, rfl⟩ := List.forall₂_cons_left_iff.mp hps
    exact ⟨p, p', rfl, by rw [List.forall₂_nil_left_iff.mp hrest], hp⟩
  have hfixed {ops : List ℕ} : StepBindsTo b (fixed .h ops) (fixed .h ops) :=
    stepBindsTo_fixed (by decide) ops
  cases tag with
  | sx | sxdg | cy | ch | swap | iswap =>
    obtain rfl := Option.some.inj h
    refine ⟨_, rfl, ?_⟩
    simp (disch := first | decide | rfl) [stepBindsTo_fixed, stepBindsTo_const]
  | phase =>
    obtain ⟨p, p', rfl, rfl, hp⟩ := hone hl
    obtain rfl := Option.some.inj h
    exact ⟨_, rfl, .cons (stepBindsTo_turn (by decide) 0 hp) .nil⟩
  | u =>
    obtain ⟨p, q, r, rfl⟩ := List.length_eq_three.mp hl
    simp only [List.forall₂_cons_left_iff, List.forall₂_nil_left_iff] at hps
    obtain ⟨p', _, hp, ⟨q', _, hq, ⟨r', _, hr, rfl, rfl⟩, rfl⟩, rfl⟩ := hps
    obtain rfl := Option.some.inj h
    refine ⟨_, rfl, ?_⟩
    simp (disch := first | decide | assumption) [stepBindsTo_turn]
  | cphase =>
    obtain ⟨p, p', rfl, rfl, hp⟩ := hone hl
    obtain rfl := Option.some.inj h
    have hhalf := hp.halved
    have hneg := hhalf.neg
    refine ⟨_, rfl, ?_⟩
    simp (disch := first | decide | assumption) [stepBindsTo_fixed, stepBindsTo_turn]
  | crz | cry =>
    obtain ⟨p, p', rfl, rfl, hp⟩ := hone hl
    obtain rfl := Option.some.inj h
    exact ⟨_, rfl, stepBindsTo_controlledTurn (by decide) hp⟩
  | crx =>
    obtain ⟨p, p', rfl, rfl, hp⟩ := hone hl
    obtain rfl := Option.some.inj h
    refine ⟨_, rfl, .cons hfixed ?_⟩
    exact List.rel_append (stepBindsTo_controlledTurn (by decide) hp) (.cons hfixed .nil)
  | rzz =>
    obtain ⟨p, p', rfl, rfl, hp⟩ := hone hl
    obtain rfl := Option.some.inj h
    exact ⟨_, rfl, stepBindsTo_zzRotation hp⟩
  | rxx =>
    obtain ⟨p, p', rfl, rfl, hp⟩ := hone hl
    obtain rfl := Option.some.inj h
    have hboth : List.Forall₂ (StepBindsTo b) (onBoth fun q => fixed .h [q])
        (onBoth fun q => fixed .h [q]) := .cons hfixed (.cons hfixed .nil)
    exact ⟨_, rfl, List.rel_append (List.rel_append hboth (stepBindsTo_zzRotation hp)) hboth⟩
  | ryy =>
    obtain ⟨p, p', rfl, rfl, hp⟩ := hone hl
    obtain rfl := Option.some.inj h
    have hboth {v : Float} (hv : isFinite v = true) : List.Forall₂ (StepBindsTo b)
        (onBoth (turn .rx (.const v))) (onBoth (turn .rx (.const v))) :=
      .cons (stepBindsTo_const (by decide) 0 hv) (.cons (stepBindsTo_const (by decide) 1 hv) .nil)
    exact ⟨_, rfl, List.rel_append (List.rel_append (hboth rfl) (stepBindsTo_zzRotation hp))
      (hboth rfl)⟩
  | ccx =>
    obtain rfl := Option.some.inj h
    exact ⟨_, rfl, stepBindsTo_toffoli⟩
  | cswap =>
    obtain rfl := Option.some.inj h
    have hcx : StepBindsTo b (fixed .cx [2, 1]) (fixed .cx [2, 1]) :=
      stepBindsTo_fixed (by decide) [2, 1]
    exact ⟨_, rfl, .cons hcx (List.rel_append stepBindsTo_toffoli (.cons hcx .nil))⟩
  | _ => cases h

theorem mapM_of_stepBindsTo {xs xs' : List (Except (CircuitError Float) (Substitute Float))}
    (h : List.Forall₂ (StepBindsTo b) xs xs') :
    ∃ seq seq', xs.mapM (fun x => x) = .ok seq ∧ seq.mapM (·.substitute b) = .ok seq' ∧
      xs'.mapM (fun x => x) = .ok seq' := by
  simp only [mapM_eq_ok_iff]
  induction h with
  | nil => exact ⟨[], [], .nil, .nil, .nil⟩
  | cons hx _ ih =>
    obtain ⟨s, s', hs, hbind, hs'⟩ := hx
    obtain ⟨seq, seq', hseq, hbinds, hseq'⟩ := ih
    exact ⟨s :: seq, s' :: seq', .cons hs hseq, .cons hbind hbinds, .cons hs' hseq'⟩

/-- Replacing a gate by its rule and binding all parameters then gives, without fail, what
replacing the bound gate gives: the same gates on the same operands, parameter values and matrices
included. -/
theorem closedForm_substitute (g g' : Gate Float) (b : Bindings Float) (hg : g.IsBuilt)
    (hrule : closedForm g ≠ .ok none)
    (hcovered : ∀ p ∈ g.params, p.RefsAll fun r => (b.get? r.name).isSome = true)
    (h : g.substitute b = .ok g') :
    ∃ seq seq', closedForm g = .ok (some seq) ∧ seq.mapM (·.substitute b) = .ok seq' ∧
      closedForm g' = .ok (some seq') := by
  cases hsteps : rule? g.tag g.params with
  | none => exact absurd (by rw [closedForm, hsteps]) hrule
  | some steps =>
    obtain ⟨steps', hsteps', hbinds⟩ :=
      rule?_bindsTo hg.length_params (Gate.bindsTo_of_substitute hg hcovered h) hsteps
    obtain ⟨seq, seq', hseq, hbound, hseq'⟩ := mapM_of_stepBindsTo hbinds
    refine ⟨seq, seq', ?_, hbound, ?_⟩
    · rw [closedForm, hsteps]
      dsimp only
      rw [hseq]
      rfl
    · rw [closedForm, Gate.tag_of_substitute h, hsteps']
      dsimp only
      rw [hseq']
      rfl

/-- A controlled turn by an angle that is negated twice, which the rule for it is not. -/
def negatedTwice : Gate Float :=
  ⟨.crx, [.sub (.neg (.neg (.ref ⟨0, "angle"⟩))) (.ref ⟨1, "offset"⟩)], none⟩

theorem closedForm_substitute_negatedTwice :
    Gate.new .crx [.sub (.sub (.const 0.0) (.neg (.ref ⟨0, "angle"⟩))) (.ref ⟨1, "offset"⟩)] =
        .ok negatedTwice ∧
      ∃ g' seq seq', negatedTwice.substitute ⟨[("offset", 0.25), ("angle", 0.75)]⟩ = .ok g' ∧
        closedForm negatedTwice = .ok (some seq) ∧
        seq.mapM (·.substitute ⟨[("offset", 0.25), ("angle", 0.75)]⟩) = .ok seq' ∧
        closedForm g' = .ok (some seq') ∧
        seq'.map (·.gate.params) = [[], [.const ((- -0.75 - 0.25) / two)], [],
          [.const (-((- -0.75 - 0.25) / two))], [], []] := by
  have hnew : Gate.new .crx [.sub (.sub (.const 0.0) (.neg (.ref ⟨0, "angle"⟩)))
      (.ref ⟨1, "offset"⟩)] = .ok negatedTwice := rfl
  obtain ⟨g', seq', hg', hseq', hparams⟩ :
      ∃ g' seq', negatedTwice.substitute ⟨[("offset", 0.25), ("angle", 0.75)]⟩ = .ok g' ∧
        closedForm g' = .ok (some seq') ∧
        seq'.map (·.gate.params) = [[], [.const ((- -0.75 - 0.25) / two)], [],
          [.const (-((- -0.75 - 0.25) / two))], [], []] :=
    ⟨_, _, rfl, rfl, rfl⟩
  have hcovered : ∀ p ∈ negatedTwice.params, p.RefsAll fun r =>
      (Bindings.get? ⟨[("offset", 0.25), ("angle", 0.75)]⟩ r.name).isSome = true :=
    List.forall_mem_singleton.mpr ⟨rfl, rfl⟩
  have hbuilt : negatedTwice.IsBuilt := ⟨_, negatedTwice, hnew, rfl⟩
  have hrule : closedForm negatedTwice ≠ .ok none := fun h => by cases h
  obtain ⟨seq, _, hseq, hbound, h⟩ :=
    closedForm_substitute negatedTwice g' _ hbuilt hrule hcovered hg'
  obtain rfl := Option.some.inj (Except.ok.inj (h.symm.trans hseq'))
  exact ⟨hnew, g', seq, _, hg', hseq, hbound, hseq', hparams⟩

end Synthesis

end Interchange
