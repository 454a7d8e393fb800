import Interchange.Proofs.LoweringTarget
import Interchange.Proofs.NormalParam
import Interchange.Proofs.ParameterNames

namespace Interchange

variable {F : Type}

namespace Bindings

/-- The first name without a value that the parameters mention, each from left to right. -/
def firstUnbound? (b : Bindings F) (ps : List (Param F)) : Option String :=
  (ps.flatMap Param.names).find? fun name => (b.get? name).isNone

theorem firstUnbound?_eq_none_iff {b : Bindings F} {ps : List (Param F)} :
    b.firstUnbound? ps = none ↔ ∀ p ∈ ps, ∀ name ∈ p.names, (b.get? name).isSome = true := by
  rw [firstUnbound?, List.find?_eq_none, ← List.forall_mem_flatMap]
  simp [Option.isSome_iff_ne_none]

theorem firstUnbound?_params (b : Bindings F) (c : Circuit F) :
    b.firstUnbound? c.params = c.instructions.findSome? fun i => b.firstUnbound? i.gate.params := by
  rw [firstUnbound?, Circuit.params, List.flatMap_assoc, List.find?_flatMap]
  rfl

variable [Scalar F]

/-- Every parameter whose names all have values is a finite number under the bindings. -/
def FiniteWhereBound (b : Bindings F) (ps : List (Param F)) : Prop :=
  ∀ p ∈ ps, (∀ name ∈ p.names, (b.get? name).isSome = true) →
    ∃ v, p.evaluate b = .ok v ∧ Scalar.isFinite v = true

theorem FiniteWhereBound.isAdmissible [FiniteAngles F] {b : Bindings F} {ps : List (Param F)}
    (h : b.FiniteWhereBound ps) : ∀ p ∈ ps, (p.substitute b).isAdmissible = true := by
  intro p hp
  rw [Param.isAdmissible, Bool.or_eq_true, or_iff_not_imp_left, Bool.not_eq_true]
  intro hnumber
  rw [← Param.names_eq_nil_iff, Param.names_substitute, List.filter_eq_nil_iff] at hnumber
  obtain ⟨v, hv, hfinite⟩ := h p hp fun name hname => by
    simpa [Option.isSome_iff_ne_none] using hnumber name hname
  rw [Param.value?_substitute_eq_some_iff.mpr hv]
  exact hfinite

end Bindings

namespace Lowering

variable [Scalar F] [FiniteAngles F] {table : GateTable} {b : Bindings F} {tolerance : F}

section Point

variable (hfree : table.freeParameters = false)

include hfree

/-- Without free parameters, a gate is refused for the first name that has no value. -/
theorem bindFor_of_firstUnbound {g : Gate F} (hu : g.tag ≠ .unitary)
    (hl : g.params.length = g.tag.paramCount) (hfinite : b.FiniteWhereBound g.params)
    {name : String} (h : b.firstUnbound? g.params = some name) :
    bindFor table b g = .error (.unboundParameter table.framework name) := by
  have hsymbolic : g.isParameterized = true := by
    rw [Gate.isParameterized_iff]
    exact List.ne_nil_of_mem (List.mem_of_find?_eq_some h)
  have hadmissible : ∀ p ∈ (g.params.map (·.substitute b)).map Param.simplify,
      p.isAdmissible = true := by
    simp only [List.map_map, List.forall_mem_map, Function.comp_apply]
    intro p hp
    rw [Param.isAdmissible_congr (Param.isSymbolic_simplify _)
      (Param.simplify_value? FiniteAngles.beq_one_of_beq_zero _)]
    exact hfinite.isAdmissible p hp
  obtain ⟨g', hnew, hparams⟩ : ∃ g', Gate.new g.tag (g.params.map (·.substitute b)) = .ok g' ∧
      g'.params = (g.params.map (·.substitute b)).map Param.simplify :=
    ⟨_, Gate.new_eq_ok_iff.mpr ⟨hu, (List.length_map _).trans hl, hadmissible, rfl⟩, rfl⟩
  -- neither substitution nor simplification moves a name, so that the first one left is the first
  -- without a value
  have hhead : (g'.params.flatMap Param.names).head? = some name := by
    rw [← h, Bindings.firstUnbound?, ← List.head?_filter, List.filter_flatMap, hparams,
      List.flatMap_map, List.flatMap_map]
    simp only [Param.names_simplify, Param.names_substitute]
  have hleft : g'.isParameterized = true := by
    rw [Gate.isParameterized_iff]
    intro hnil
    rw [hnil] at hhead
    cases hhead
  rw [bindFor, Gate.substitute, if_pos hsymbolic, hnew]
  change (if g'.isParameterized && !table.freeParameters then _ else _) = _
  rw [hleft, hfree]
  change Except.error (ConvertError.unboundParameter _
    ((g'.refs.head?.map Handle.name).getD "")) = _
  rw [Gate.head?_refs, hhead]
  rfl

theorem instruction_of_firstUnbound [Eigensolver F] {levels : ℕ} {i : Instruction F}
    (hu : i.gate.tag ≠ .unitary)
    (hl : i.gate.params.length = i.gate.tag.paramCount)
    (hfinite : b.FiniteWhereBound i.gate.params) {name : String}
    (h : b.firstUnbound? i.gate.params = some name) :
    instruction table b tolerance levels i =
      .error (.unboundParameter table.framework name) := by
  have hm : i.isMeasure = false := by
    rw [Instruction.isMeasure, beq_eq_false_iff_ne]
    -- a measurement takes no parameters
    intro htag
    rw [show i.gate.tag = .measure from htag] at hl
    rw [List.length_eq_zero_iff.mp hl] at h
    cases h
  unfold instruction
  rw [hm, if_neg Bool.false_ne_true, bindFor_of_firstUnbound hfree hu hl hfinite h]
  rfl

end Point

theorem exists_instruction_of_bound [Eigensolver F]
    (hcore : ∀ tag ∈ Tag.commonCore, table.supports tag = true)
    {levels n : ℕ} {i : Instruction F} (hw : i.WellFormed n) (hu : i.gate.tag ≠ .unitary)
    (hl : i.gate.params.length = i.gate.tag.paramCount)
    (hfinite : b.FiniteWhereBound i.gate.params) (h : b.firstUnbound? i.gate.params = none) :
    ∃ out, instruction table b tolerance (levels + 1) i = .ok out := by
  cases hm : i.isMeasure with
  | true => exact ⟨_, instruction_of_isMeasure hm⟩
  | false =>
    have hnames := Bindings.firstUnbound?_eq_none_iff.mp h
    obtain ⟨g, hg, -, hsettled⟩ :
        ∃ g, bindFor table b i.gate = .ok g ∧ g.tag = i.gate.tag ∧ g.Settled table b :=
      exists_bindFor hu hl hfinite.isAdmissible
        (.inr fun p hp => Param.refsAll_iff.mpr (hnames p hp))
    exact exists_instruction hcore hw hm hg hsettled

/-- On a table with the common core and without free parameters, lowering a circuit without gates
of matrices fails exactly if a gate mentions a name without a value, as long as the parameters that
have all their values are finite. The error then names the first such name: in the order of the
instructions, of the parameters of each, and from left to right in each parameter. -/
theorem circuit_reports_firstUnbound [Eigensolver F] (table : GateTable) (b : Bindings F)
    (tolerance : F)
    (c : Circuit F) (hfree : table.freeParameters = false) (hcore : table.missingCommonCore = [])
    (hw : c.WellFormed)
    (hparams : ∀ i ∈ c.instructions, i.gate.params.length = i.gate.tag.paramCount)
    (hu : ∀ i ∈ c.instructions, i.tag ≠ .unitary) (hfinite : b.FiniteWhereBound c.params) :
    ((∃ e, circuit table b tolerance c = .error e) ↔
      ∃ i ∈ c.instructions, ∃ p ∈ i.gate.params, ∃ name ∈ p.names, b.get? name = none) ∧
    ∀ e, circuit table b tolerance c = .error e →
      ∃ name, b.firstUnbound? c.params = some name ∧
        e = .unboundParameter table.framework name := by
  have hsupports := supports_of_missingCommonCore hcore
  have hfinite' : ∀ i ∈ c.instructions, b.FiniteWhereBound i.gate.params :=
    fun i hi p hp => hfinite p (List.mem_flatMap.mpr ⟨i, hi, hp⟩)
  have hbound {i : Instruction F} (hi : i ∈ c.instructions)
      (h : b.firstUnbound? i.gate.params = none) :
      ∃ out, instruction table b tolerance maxDepth i = .ok out :=
    exists_instruction_of_bound hsupports (hw i hi) (hu i hi) (hparams i hi) (hfinite' i hi) h
  have hsome : (∃ i ∈ c.instructions, ∃ p ∈ i.gate.params, ∃ name ∈ p.names,
      b.get? name = none) ↔ b.firstUnbound? c.params ≠ none := by
    rw [ne_eq, Bindings.firstUnbound?_eq_none_iff, Circuit.params, List.forall_mem_flatMap]
    simp [Option.isSome_iff_ne_none]
  rw [hsome]
  cases hfirst : b.firstUnbound? c.params with
  | none =>
    rw [Bindings.firstUnbound?_params, List.findSome?_eq_none_iff] at hfirst
    obtain ⟨c', hc'⟩ := exists_circuit_of_forall hw fun i hi => hbound hi (hfirst i hi)
    simp [hc']
  | some name =>
    rw [Bindings.firstUnbound?_params] at hfirst
    obtain ⟨before, i, after, hsplit, hi, hbefore⟩ := List.findSome?_eq_some_iff.mp hfirst
    have hmem : i ∈ c.instructions := by simp [hsplit]
    have herror : circuit table b tolerance c =
        .error (.unboundParameter table.framework name) := by
      rw [circuit_eq]
      refine bind_eq_error_iff.mpr (.inl (mapM_eq_error_iff.mpr
        ⟨before, i, after, hsplit, fun j hj => hbound (by simp [hsplit, hj]) (hbefore j hj), ?_⟩))
      exact instruction_of_firstUnbound hfree (hu i hmem) (hparams i hmem) (hfinite' i hmem) hi
    refine ⟨iff_of_true ⟨_, herror⟩ (Option.some_ne_none name), fun e he => ⟨name, rfl, ?_⟩⟩
    exact (Except.error.inj (herror.symm.trans he)).symm

/-- A controlled turn by a bound angle, a measurement, and a gate of three angles: the first is a
number, the second mentions a bound name and then two others, with a division by zero beside
them. -/
def halfBound : Circuit Float where
  qubits := 2
  clbits := 1
  registry := ⟨["theta", "phi", "omega"]⟩
  instructions :=
    [⟨⟨.crx, [.div (.ref ⟨0, "theta"⟩) (.const 3.0)], none⟩, [1, 0], []⟩, .measure 1 0,
      ⟨⟨.u, [.const 0.5,
        .add (.sub (.mul (.ref ⟨0, "theta"⟩) (.ref ⟨1, "phi"⟩)) (.ref ⟨2, "omega"⟩))
          (.div (.const 1.0) (.const 0.0)),
        .neg (.ref ⟨2, "omega"⟩)], none⟩, [0], []⟩]

theorem circuit_reports_firstUnbound_halfBound :
    halfBound.WellFormed ∧
      circuit IonQ.table ⟨[("theta", 1.0)]⟩ 1e-7 halfBound =
        .error (.unboundParameter .ionq "phi") := by
  have hw : halfBound.WellFormed := by
    simp only [Circuit.WellFormed, halfBound, List.forall_mem_cons, List.not_mem_nil, false_imp_iff,
      implies_true, and_true]
    exact ⟨⟨rfl, by decide, by decide⟩, ⟨rfl, by decide, by decide⟩, ⟨rfl, by decide, by decide⟩⟩
  have hfinite : Bindings.FiniteWhereBound ⟨[("theta", 1.0)]⟩ halfBound.params := by
    refine List.forall_mem_cons.mpr ⟨fun _ => ⟨1.0 / 3.0, rfl, rfl⟩, List.forall_mem_cons.mpr
      ⟨fun _ => ⟨0.5, rfl, rfl⟩, List.forall_mem_cons.mpr ⟨fun h => ?_,
        List.forall_mem_singleton.mpr fun h => ?_⟩⟩⟩
    · exact absurd (h "phi" (.tail _ (.head _))) (by decide)
    · exact absurd (h "omega" (.head _)) (by decide)
  obtain ⟨hiff, hnames⟩ := circuit_reports_firstUnbound IonQ.table ⟨[("theta", 1.0)]⟩ 1e-7 halfBound
    rfl (by decide) hw (by decide) (by decide) hfinite
  obtain ⟨e, he⟩ := hiff.mpr ⟨_, .tail _ (.tail _ (.head _)), _, .tail _ (.head _), "phi",
    .tail _ (.head _), rfl⟩
  obtain ⟨name, hname, rfl⟩ := hnames e he
  obtain rfl : "phi" = name := Option.some.inj hname
  exact ⟨hw, he⟩

end Lowering

end Interchange
