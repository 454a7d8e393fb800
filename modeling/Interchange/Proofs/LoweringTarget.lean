import Interchange.Proofs.LoweringSteps
import Interchange.Proofs.Replacement
import Interchange.Proofs.SettledParam
import Interchange.IonQ.Circuit

namespace Interchange
open Scalar

variable {F : Type} [Scalar F] {table : GateTable} {b : Bindings F}

/-- A gate of a tag, with as many parameters as the tag takes, all of them settled. -/
structure Gate.Settled (table : GateTable) (b : Bindings F) (g : Gate F) : Prop where
  tag_ne : g.tag ≠ .unitary
  length_params : g.params.length = g.tag.paramCount
  params : ∀ p ∈ g.params, p.Settled table b

/-- A substitute that is a settled gate of the common core, on as many different ones of `n`
positions as it acts on. -/
structure Substitute.Fits (table : GateTable) (b : Bindings F) (n : ℕ) (s : Substitute F) :
    Prop where
  core : s.gate.tag ∈ Tag.commonCore
  settled : s.gate.Settled table b
  operands : QubitList n s.gate.qubits s.operands

def Synthesis.Emits (table : GateTable) (b : Bindings F) (n : ℕ)
    (x : Except (CircuitError F) (Substitute F)) : Prop :=
  ∃ s, x = .ok s ∧ s.Fits table b n

namespace Lowering

variable {tolerance : F} {levels : ℕ} {i : Instruction F}

/-- An instruction that lowering may give in place of `i`: `i` itself if it is a measurement that
the framework does not make by itself, or a gate of the table. -/
def Lands (table : GateTable) (i j : Instruction F) : Prop :=
  (j = i ∧ i.isMeasure = true ∧ table.implicitMeasurement = false) ∨
    (j.isMeasure = false ∧ table.supports j.tag = true ∧
      (j.gate.isParameterized = true → table.freeParameters = true))

theorem not_parameterized_of_bindFor {g g' : Gate F} (h : bindFor table b g = .ok g')
    (hp : g'.isParameterized = true) : table.freeParameters = true := by
  obtain ⟨bound, -, h⟩ := bind_eq_ok_iff.mp h
  split at h
  · cases h
  next hallowed =>
    obtain rfl := Except.ok.inj h
    simpa [hp] using hallowed

variable [Eigensolver F]

theorem instruction_lands {out : List (Instruction F)}
    (h : instruction table b tolerance levels i = .ok out) : ∀ j ∈ out, Lands table i j := by
  induction levels using Nat.strong_induction_on generalizing i out with
  | _ levels ih =>
    rcases instruction_cases h with ⟨hm, rfl⟩ | ⟨hm, g, hg, hcases⟩
    · intro j hj
      split_ifs at hj with himplicit
      · exact absurd hj List.not_mem_nil
      · exact .inl ⟨List.mem_singleton.mp hj, hm, Bool.eq_false_iff.mpr himplicit⟩
    rcases hcases with
      ⟨hs, j, hj, rfl⟩ | ⟨-, rest, seq, placed, outs, rfl, hseq, hplaced, houts, rfl⟩
    · obtain ⟨-, rfl⟩ := Instruction.withGate_eq_ok_iff.mp hj
      refine List.forall_mem_singleton.mpr (.inr ⟨?_, hs, not_parameterized_of_bindFor hg⟩)
      rw [Instruction.isMeasure, Instruction.tag, tag_bindFor hg]
      exact hm
    · intro j hj
      obtain ⟨out, hout, hj⟩ := List.mem_flatten.mp hj
      obtain ⟨k, hk, hkout⟩ := exists_of_forall₂_right (mapM_eq_ok_iff.mp houts) hout
      rcases ih rest (Nat.lt_succ_self rest) hkout j hj with ⟨-, hmeasure, -⟩ | hgate
      · rw [isMeasure_of_placed hseq hplaced k hk] at hmeasure
        cases hmeasure
      · exact .inr hgate

theorem mem_qubits_of_instruction {out : List (Instruction F)}
    (h : instruction table b tolerance levels i = .ok out) :
    ∀ j ∈ out, ∀ q ∈ j.qubits, q ∈ i.qubits := by
  refine forall_mem_instruction (P := fun j => ∀ q ∈ j.qubits, q ∈ i.qubits)
    (fun hk hj => ?_) (fun hk hj q hq => ?_) (fun _ => id) h
  · obtain ⟨-, rfl⟩ := Instruction.withGate_eq_ok_iff.mp hj
    exact hk
  · obtain ⟨hlt, -, -, rfl⟩ := Substitute.place_eq_ok_iff.mp hj
    obtain ⟨p, hp, rfl⟩ := List.mem_map.mp hq
    rw [List.getD_eq_getElem _ _ (hlt p hp)]
    exact hk _ (List.getElem_mem _)

theorem exists_instruction_of_supports {n : ℕ} (hw : i.WellFormed n) (hu : i.gate.tag ≠ .unitary)
    (hm : i.isMeasure = false) {g : Gate F} (hg : bindFor table b i.gate = .ok g)
    (hs : table.supports g.tag = true) :
    ∃ out, instruction table b tolerance levels i = .ok out := by
  have htag := tag_bindFor hg
  have hqubits : i.qubits.length = g.qubits := by
    rw [Gate.qubits_of_tag (htag ▸ hu), htag, ← Gate.qubits_of_tag hu]
    exact hw.length_eq
  have hwith : i.withGate g = .ok { i with gate := g } :=
    Instruction.withGate_eq_ok_iff.mpr ⟨⟨hqubits, hw.nodup⟩, rfl⟩
  unfold instruction
  simp only [hm, hg, hs, hwith, ConvertError.lift, bind, Except.bind]
  exact ⟨_, rfl⟩

/-- With enough levels for one replacement, the nesting error cannot occur. -/
theorem circuit_raises (hcore : ∀ tag ∈ Tag.commonCore, table.supports tag = true)
    (c : Circuit F) : Raises (circuit table b tolerance c) fun e => ¬ e.IsNesting := by
  rw [circuit_eq]
  refine .bind (.mapM fun i _ => instruction_raises hcore (.inl (by decide))) fun _ _ => ?_
  exact ConvertError.lift_raises _ _

theorem exists_circuit_of_forall {c : Circuit F} (hw : c.WellFormed)
    (h : ∀ i ∈ c.instructions, ∃ out, instruction table b tolerance maxDepth i = .ok out) :
    ∃ c', circuit table b tolerance c = .ok c' := by
  obtain ⟨outs, houts⟩ := exists_mapM_eq_ok h
  refine ⟨_, circuit_eq_ok_iff.mpr ⟨outs, houts, fun j hj q hq => ?_, rfl⟩⟩
  obtain ⟨i, hi, out, hout, hj⟩ := exists_of_mem_flatten houts hj
  exact (hw i hi).lt q (mem_qubits_of_instruction hout j hj q hq)

theorem exists_lands {c c' : Circuit F} (h : circuit table b tolerance c = .ok c') :
    ∀ j ∈ c'.instructions, ∃ i ∈ c.instructions, Lands table i j := by
  obtain ⟨outs, houts, -, rfl⟩ := circuit_eq_ok_iff.mp h
  intro j hj
  obtain ⟨out, hout, hj⟩ := List.mem_flatten.mp hj
  obtain ⟨i, hi, hiout⟩ := exists_of_forall₂_right (mapM_eq_ok_iff.mp houts) hout
  exact ⟨i, hi, instruction_lands hiout j hj⟩

end Lowering

variable [FiniteAngles F]

theorem Gate.exists_new_settled {tag : Tag} {params : List (Param F)} (hu : tag ≠ .unitary)
    (hl : params.length = tag.paramCount) (hp : ∀ p ∈ params, p.Settled table b) :
    ∃ g, new tag params = .ok g ∧ g.tag = tag ∧ g.Settled table b := by
  have hsimplified : ∀ p ∈ params.map Param.simplify, p.Settled table b := by
    intro p hmem
    obtain ⟨q, hq, rfl⟩ := List.mem_map.mp hmem
    exact (hp q hq).simplify
  have hadmissible p hmem := (hsimplified p hmem).admissible
  exact ⟨_, new_eq_ok_iff.mpr ⟨hu, hl, hadmissible, rfl⟩, rfl, hu,
    (List.length_map _).trans hl, hsimplified⟩

namespace Synthesis

theorem emits_new {tag : Tag} {params : List (Param F)} {ops : List ℕ} {n : ℕ}
    (ht : tag ∈ Tag.commonCore) (hl : params.length = tag.paramCount)
    (hops : QubitList n (tag.qubits?.getD 0) ops) (hp : ∀ p ∈ params, p.Settled table b) :
    Emits table b n (Substitute.new tag params ops) := by
  have hu : tag ≠ .unitary := by
    rintro rfl
    simp [Tag.commonCore] at ht
  obtain ⟨g, hg, rfl, hsettled⟩ := Gate.exists_new_settled hu hl hp
  refine ⟨⟨g, ops⟩, bind_eq_ok_iff.mpr ⟨g, hg, rfl⟩, ht, hsettled, ?_⟩
  rwa [Gate.qubits_of_tag hu]

theorem emits_fixed {tag : Tag} {ops : List ℕ} {n : ℕ}
    (h : (tag ∈ Tag.commonCore ∧ tag.paramCount = 0) ∧ ops.length = tag.qubits?.getD 0 ∧
      ops.Nodup ∧ ∀ q ∈ ops, q < n) :
    Emits table b n (Substitute.fixed tag ops : Except _ (Substitute F)) :=
  emits_new h.1.1 h.1.2.symm ⟨h.2.1, h.2.2.1, h.2.2.2⟩ fun _ hp => absurd hp List.not_mem_nil

theorem emits_turn {tag : Tag} {q n : ℕ} {p : Param F}
    (h : (tag ∈ Tag.commonCore ∧ tag.paramCount = 1) ∧ tag.qubits? = some 1 ∧ q < n)
    (hp : p.Settled table b) : Emits table b n (Substitute.turn tag p q) := by
  refine emits_new h.1.1 h.1.2.symm ⟨?_, List.nodup_singleton q, ?_⟩
    (List.forall_mem_singleton.mpr hp)
  · rw [h.2.1]
    rfl
  · exact List.forall_mem_singleton.mpr h.2.2

/-- Every gate outside the common core that a tag describes has a rule, and each step of the rule
succeeds. -/
theorem exists_rule {g : Gate F} (hg : g.Settled table b) (hcore : g.tag ∉ Tag.commonCore)
    (hm : g.tag ≠ .measure) :
    ∃ steps, rule? g.tag g.params = some steps ∧ ∀ x ∈ steps, Emits table b g.qubits x := by
  have hhalf : Param.Settled table b (.const (halfPi : F)) :=
    .of_const FiniteAngles.isFinite_halfPi
  have hminusHalf : Param.Settled table b (.const (-halfPi : F)) :=
    .of_const (FiniteAngles.isFinite_neg FiniteAngles.isFinite_halfPi)
  have hquarter : Param.Settled table b (.const (quarterPi : F)) :=
    .of_const FiniteAngles.isFinite_quarterPi
  have hminusQuarter : Param.Settled table b (.const (-quarterPi : F)) :=
    .of_const (FiniteAngles.isFinite_neg FiniteAngles.isFinite_quarterPi)
  rw [Gate.qubits_of_tag hg.tag_ne]
  obtain ⟨tag, params, matrix⟩ := g
  obtain ⟨hu, hl, hp⟩ := hg
  dsimp only at *
  cases tag with
  | unitary => exact absurd rfl hu
  | measure => exact absurd rfl hm
  | h | x | y | z | s | sdg | t | tdg | id | rx | ry | rz | cx | cz | swap =>
    exact absurd (by decide) hcore
  | sx | sxdg | cy | ch | iswap | ccx | cswap =>
    refine ⟨_, rfl, ?_⟩
    simp (disch := first | decide | assumption) [emits_fixed, emits_turn, toffoli, Tag.qubits?]
  | u =>
    obtain ⟨p, q, r, rfl⟩ := List.length_eq_three.mp hl
    obtain ⟨hp, hq, hr⟩ : p.Settled table b ∧ q.Settled table b ∧ r.Settled table b := by
      simpa using hp
    refine ⟨_, rfl, ?_⟩
    simp (disch := first | decide | assumption) [emits_turn, Tag.qubits?]
  | phase | cphase | crx | cry | crz | rxx | ryy | rzz =>
    obtain ⟨p, rfl⟩ := List.length_eq_one_iff.mp hl
    have hp := List.forall_mem_singleton.mp hp
    have hhalved := hp.halved
    have hopposite := hhalved.neg
    refine ⟨_, rfl, ?_⟩
    simp (disch := first | decide | assumption) [emits_fixed, emits_turn, controlledTurn,
      zzRotation, onBoth, Tag.qubits?]

theorem exists_decompose [Eigensolver F] {g : Gate F} (tolerance : F) (hg : g.Settled table b)
    (hcore : g.tag ∉ Tag.commonCore) (hm : g.tag ≠ .measure) :
    ∃ seq, decompose tolerance g = .ok seq ∧ ∀ s ∈ seq, s.Fits table b g.qubits := by
  obtain ⟨steps, hrule, hsteps⟩ := exists_rule hg hcore hm
  have hok : ∀ x ∈ steps, ∃ s, (fun step => step) x = .ok s :=
    fun x hx => (hsteps x hx).imp fun s hs => hs.1
  obtain ⟨seq, hseq⟩ := exists_mapM_eq_ok hok
  refine ⟨seq, ?_, ?_⟩
  · rw [decompose, closedForm, hrule]
    simp only [hseq]
    rfl
  · intro s hs
    obtain ⟨x, hx, rfl⟩ := exists_of_forall₂_right (mapM_eq_ok_iff.mp hseq) hs
    obtain ⟨s', hs', hfits⟩ := hsteps _ hx
    obtain rfl := Except.ok.inj hs'
    exact hfits

end Synthesis

namespace Lowering

variable {tolerance : F} {levels : ℕ} {i : Instruction F}

/-- Binding succeeds when it leaves a finite number or a free parameter of a table that has them. -/
theorem exists_bindFor {g : Gate F} (hu : g.tag ≠ .unitary)
    (hl : g.params.length = g.tag.paramCount)
    (hp : ∀ p ∈ g.params, (p.substitute b).isAdmissible = true)
    (hbound : table.freeParameters = true ∨
      ∀ p ∈ g.params, p.RefsAll fun r => (b.get? r.name).isSome = true) :
    ∃ g', bindFor table b g = .ok g' ∧ g'.tag = g.tag ∧ g'.Settled table b := by
  cases hsymbolic : g.isParameterized with
  | false =>
    refine ⟨g, bindFor_of_not_parameterized hsymbolic, rfl, hu, hl, fun p hmem => ?_⟩
    have hconst : p.isSymbolic = false := by simpa using List.any_eq_false.mp hsymbolic p hmem
    exact .of_not_symbolic hconst (hp p hmem)
  | true =>
    have hsettled : ∀ p ∈ g.params.map (·.substitute b), p.Settled table b := by
      intro p hmem
      obtain ⟨q, hq, rfl⟩ := List.mem_map.mp hmem
      exact .of_substitute (hp q hq) (hbound.imp_right fun h => h q hq)
    obtain ⟨g', hnew, htag, hg'⟩ :=
      Gate.exists_new_settled hu ((List.length_map _).trans hl) hsettled
    refine ⟨g', ?_, htag, hg'⟩
    have hallowed : (g'.isParameterized && !table.freeParameters) = false := by
      rw [Bool.and_eq_false_iff, Bool.not_eq_false', Gate.isParameterized, List.any_eq_false]
      by_cases hfree : table.freeParameters = true
      · exact .inr hfree
      · exact .inl fun p hmem => by simp [((hg'.params p hmem).allowed).resolve_left hfree]
    rw [bindFor, Gate.substitute, if_pos hsymbolic, hnew]
    simp only [ConvertError.lift, bind, Except.bind, hallowed]
    rfl

theorem exists_bindFor_of_settled {g : Gate F} (hg : g.Settled table b) :
    ∃ g', bindFor table b g = .ok g' ∧ g'.tag = g.tag ∧ g'.Settled table b := by
  refine exists_bindFor hg.tag_ne hg.length_params
    (fun p hp => (hg.params p hp).isAdmissible_substitute) ?_
  by_cases hfree : table.freeParameters = true
  · exact .inl hfree
  · exact .inr fun p hp => .of_not_symbolic ((hg.params p hp).allowed.resolve_left hfree)

/-- One level of replacement is enough when the table has the common core. -/
theorem exists_instruction [Eigensolver F] {n : ℕ}
    (hcore : ∀ tag ∈ Tag.commonCore, table.supports tag = true)
    (hw : i.WellFormed n) (hm : i.isMeasure = false) {g : Gate F}
    (hg : bindFor table b i.gate = .ok g) (hsettled : g.Settled table b) :
    ∃ out, instruction table b tolerance (levels + 1) i = .ok out := by
  have htag := tag_bindFor hg
  have hu : i.gate.tag ≠ .unitary := htag ▸ hsettled.tag_ne
  cases hs : table.supports g.tag with
  | true => exact exists_instruction_of_supports hw hu hm hg hs
  | false =>
    have hnotCore : g.tag ∉ Tag.commonCore := fun hmem => by simp [hcore _ hmem] at hs
    have hnotMeasure : g.tag ≠ .measure := by
      rw [htag]
      simpa [Instruction.isMeasure, Instruction.tag] using hm
    obtain ⟨seq, hseq, hfits⟩ := Synthesis.exists_decompose tolerance hsettled hnotCore hnotMeasure
    have hqubits : g.qubits = i.gate.qubits := by
      rw [Gate.qubits_of_tag hsettled.tag_ne, htag, ← Gate.qubits_of_tag hu]
    have hoperands : ∀ s ∈ seq, QubitList n s.gate.qubits (compose i.qubits s.operands) :=
      fun s hmem => QubitList.compose hw (hqubits ▸ (hfits s hmem).operands)
    have hplace : ∀ s ∈ seq, ∃ j, s.place i.qubits = .ok j := by
      intro s hmem
      have hops := (hfits s hmem).operands
      refine ⟨_, Substitute.place_eq_ok_iff.mpr ⟨fun p hp => ?_, hops.length_eq,
        (hoperands s hmem).nodup, rfl⟩⟩
      rw [hw.length_eq, ← hqubits]
      exact hops.lt p hp
    obtain ⟨placed, hplaced⟩ := exists_mapM_eq_ok hplace
    have hlower : ∀ j ∈ placed, ∃ out, instruction table b tolerance levels j = .ok out := by
      intro j hj
      obtain ⟨s, hmem, hj⟩ := exists_of_forall₂_right (mapM_eq_ok_iff.mp hplaced) hj
      obtain ⟨-, -, -, rfl⟩ := Substitute.place_eq_ok_iff.mp hj
      have hfit := hfits s hmem
      obtain ⟨g', hg', htag', -⟩ := exists_bindFor_of_settled hfit.settled
      refine exists_instruction_of_supports (hoperands s hmem) hfit.settled.tag_ne ?_ hg'
        (htag' ▸ hcore _ hfit.core)
      rw [Instruction.isMeasure, Instruction.tag, beq_eq_false_iff_ne]
      intro hmeasure
      exact absurd (hmeasure ▸ hfit.core) (by decide)
    obtain ⟨outs, houts⟩ := exists_mapM_eq_ok hlower
    refine ⟨outs.flatten, ?_⟩
    unfold instruction
    simp only [hm, hg, hs, hseq, Substitute.placeAll, hplaced, houts, ConvertError.lift, bind,
      Except.bind]
    rfl

theorem exists_circuit [Eigensolver F] (hcore : ∀ tag ∈ Tag.commonCore, table.supports tag = true)
    {c : Circuit F} (hw : c.WellFormed)
    (hi : ∀ i ∈ c.instructions, i.isMeasure = false →
      ∃ g, bindFor table b i.gate = .ok g ∧ g.Settled table b) :
    ∃ c', circuit table b tolerance c = .ok c' := by
  have hinstruction : ∀ i ∈ c.instructions,
      ∃ out, instruction table b tolerance maxDepth i = .ok out := by
    intro i hmem
    cases hm : i.isMeasure with
    | true => exact ⟨_, instruction_of_isMeasure hm⟩
    | false =>
      obtain ⟨g, hg, hsettled⟩ := hi i hmem hm
      exact exists_instruction hcore (hw i hmem) hm hg hsettled
  exact exists_circuit_of_forall hw hinstruction

/-- Where lowering lands when the table has the common core. What it gives is in the table: gates
that the table has, without free parameters unless the table allows them, and measurements of the
circuit unless the framework makes them; the rest of the circuit stays. Replacements never nest too
deep. And it succeeds unless a gate is given by its matrix, an angle is bound to no finite number,
or a parameter is left free that the table does not allow. -/
theorem circuit_lands [Eigensolver F] (table : GateTable) (b : Bindings F) (tolerance : F)
    (c : Circuit F)
    (hcore : table.missingCommonCore = []) (hw : c.WellFormed)
    (hparams : ∀ i ∈ c.instructions, i.gate.params.length = i.gate.tag.paramCount) :
    (∀ c', circuit table b tolerance c = .ok c' →
      (∀ j ∈ c'.instructions,
        (j.isMeasure = true ∧ j ∈ c.instructions ∧ table.implicitMeasurement = false) ∨
          (j.isMeasure = false ∧ table.supports j.tag = true)) ∧
      (table.freeParameters = false → ∀ j ∈ c'.instructions, j.gate.isParameterized = false) ∧
      c'.qubits = c.qubits ∧ c'.clbits = c.clbits ∧ c'.registry = c.registry ∧
      c'.layout = c.layout) ∧
    (∀ e, circuit table b tolerance c = .error e → ¬ e.IsNesting) ∧
    ((∀ i ∈ c.instructions, i.tag ≠ .unitary) →
      (∀ i ∈ c.instructions, ∀ p ∈ i.gate.params, (p.substitute b).isAdmissible = true) →
      (table.freeParameters = true ∨ ∀ i ∈ c.instructions, ∀ p ∈ i.gate.params,
        p.RefsAll fun r => (b.get? r.name).isSome = true) →
      ∃ c', circuit table b tolerance c = .ok c') := by
  have hsupports := supports_of_missingCommonCore hcore
  refine ⟨fun c' h => ?_, circuit_raises hsupports c, fun hu hp hbound => ?_⟩
  · have hrest : c' = { c with instructions := c'.instructions } := by
      obtain ⟨outs, -, -, rfl⟩ := circuit_eq_ok_iff.mp h
      rfl
    refine ⟨fun j hj => ?_, fun hfree j hj => ?_, by rw [hrest], by rw [hrest], by rw [hrest],
      by rw [hrest]⟩
    · obtain ⟨i, hi, ⟨rfl, hm, himplicit⟩ | ⟨hm, hs, -⟩⟩ := exists_lands h j hj
      · exact .inl ⟨hm, hi, himplicit⟩
      · exact .inr ⟨hm, hs⟩
    · obtain ⟨i, hi, ⟨rfl, hm, -⟩ | ⟨-, -, hp⟩⟩ := exists_lands h j hj
      -- a measurement takes no parameter
      · have htag : j.gate.tag = .measure := beq_iff_eq.mp hm
        have hnil := hparams j hi
        rw [htag] at hnil
        rw [Gate.isParameterized, List.length_eq_zero_iff.mp hnil]
        rfl
      · rw [hfree] at hp
        exact Bool.eq_false_iff.mpr fun h => Bool.noConfusion (hp h)
  · refine exists_circuit hsupports hw fun i hi _ => ?_
    obtain ⟨g, hg, -, hsettled⟩ := exists_bindFor (hu i hi) (hparams i hi) (hp i hi)
      (hbound.imp_right fun h => h i hi)
    exact ⟨g, hg, hsettled⟩

/-- A controlled phase by a third of a free parameter, on qubits out of order, then a
measurement. -/
def boundPhase : Circuit Float where
  qubits := 2
  clbits := 1
  instructions :=
    [⟨⟨.cphase, [.div (.ref ⟨0, "theta"⟩) (.const 3.0)], none⟩, [1, 0], []⟩, .measure 1 0]
  registry := ⟨["theta"]⟩

theorem circuit_lands_boundPhase :
    boundPhase.WellFormed ∧
      ∃ c', circuit IonQ.table ⟨[("theta", 0.5)]⟩ 1e-7 boundPhase = .ok c' ∧ c'.qubits = 2 ∧
        ∀ j ∈ c'.instructions, j.isMeasure = false ∧ IonQ.table.supports j.tag = true ∧
          j.gate.isParameterized = false := by
  have hw : boundPhase.WellFormed :=
    List.forall_mem_cons.mpr ⟨⟨rfl, by decide, by decide⟩,
      List.forall_mem_singleton.mpr ⟨rfl, by decide, by decide⟩⟩
  obtain ⟨hlands, -, hsucceeds⟩ := circuit_lands IonQ.table ⟨[("theta", 0.5)]⟩ 1e-7 boundPhase
    (by decide) hw (List.forall_mem_cons.mpr ⟨rfl, List.forall_mem_singleton.mpr rfl⟩)
  obtain ⟨c', hc'⟩ := hsucceeds
    (List.forall_mem_cons.mpr ⟨by decide, List.forall_mem_singleton.mpr (by decide)⟩)
    (List.forall_mem_cons.mpr ⟨List.forall_mem_singleton.mpr rfl,
      List.forall_mem_singleton.mpr fun _ hp => absurd hp List.not_mem_nil⟩)
    (.inr (List.forall_mem_cons.mpr ⟨List.forall_mem_singleton.mpr ⟨rfl, trivial⟩,
      List.forall_mem_singleton.mpr fun _ hp => absurd hp List.not_mem_nil⟩))
  obtain ⟨htags, hfree, hqubits, -⟩ := hlands c' hc'
  refine ⟨hw, c', hc', hqubits, fun j hj => ?_⟩
  -- the framework measures by itself
  obtain ⟨hm, hs⟩ := (htags j hj).resolve_left fun h => Bool.noConfusion h.2.2
  exact ⟨hm, hs, hfree rfl j hj⟩

end Lowering

end Interchange
