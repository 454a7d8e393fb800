import Interchange.Proofs.ParamRereading
import Interchange.Proofs.ParameterPassage

noncomputable section
namespace Interchange

/-- What is read back from an instruction: the same tag on the same qubits and bits, the same matrix
where the tag says nothing, and parameters of the same values. -/
structure Instruction.ReadsAs (i j : Instruction Float) : Prop where
  tag : j.tag = i.tag
  qubits : j.qubits = i.qubits
  clbits : j.clbits = i.clbits
  matrix : i.tag = .unitary → j.gate.matrix = i.gate.matrix
  params : List.Forall₂ Param.SameValues i.gate.params j.gate.params

theorem Param.written_of_finite {p : Param Float} (h : p.FiniteNumbers) : p.written = p.names := by
  rw [written]
  split_ifs with hs
  · exact words_of_finite h
  · exact (names_eq_nil_iff.mpr (Bool.eq_false_iff.mpr hs)).symm

theorem Gate.IsBuilt.folded {g : Gate Float} (h : g.IsBuilt) : ∀ p ∈ g.params, p.Folded := by
  obtain ⟨params, g', hnew, hparams⟩ := h
  obtain ⟨-, -, -, rfl⟩ := new_eq_ok_iff.mp hnew
  rw [hparams]
  exact List.forall_mem_map.mpr fun p _ => Param.folded_simplify p

structure Gate.ReadsAs (g h : Gate Float) : Prop where
  tag : h.tag = g.tag
  matrix : g.tag = .unitary → h.matrix = g.matrix
  params : List.Forall₂ Param.SameValues g.params h.params

/-- A gate is built again from what its parameters are read as, and has the same values. -/
theorem Gate.IsBuilt.exists_rebuilt {g : Gate Float} (h : g.IsBuilt)
    (hreadable : ∀ p ∈ g.params, p.Readable) (hfinite : ∀ p ∈ g.params, p.FiniteNumbers)
    (c : Circuit Float) :
    ∃ registry qs g', Angle.readAll c (g.params.map .ofParam) =
        .ok ({ c with registry := registry }, qs) ∧ Gate.new g.tag qs = .ok g' ∧ g.ReadsAs g' := by
  obtain ⟨registry, qs, g', hread, hnew, -⟩ := h.exists_readAll hreadable c
  refine ⟨registry, qs, g', hread, hnew, tag_of_new hnew, fun hu => absurd hu h.tag_ne, ?_⟩
  obtain ⟨-, -, -, rfl⟩ := Gate.new_eq_ok_iff.mp hnew
  exact Angle.forall₂_of_readAll (fun p hp => ⟨h.folded p hp, hreadable p hp, hfinite p hp⟩) hread

theorem Gate.IsMade.readsAs_of_unitary {g : Gate Float} (h : g.IsMade) (hu : g.tag = .unitary) :
    g.ReadsAs g := by
  refine ⟨rfl, fun _ => rfl, ?_⟩
  rw [h.params_of_unitary hu]
  exact .nil

theorem Instruction.Passes.rebuilds_readsAs {i : Instruction Float} {qubits : ℕ}
    (h : i.Passes qubits) (hfinite : ∀ p ∈ i.gate.params, p.FiniteNumbers) :
    i.Rebuilds i.gate.ReadsAs where
  matrix := h.made.readsAs_of_unitary
  built hbuilt := hbuilt.exists_rebuilt h.readable hfinite

namespace Circuit

variable {F : Type} {c : Circuit F}

def extended (c : Circuit F) (js : List (Instruction F)) (registry : Registry) : Circuit F :=
  { c with instructions := c.instructions ++ js, registry := registry }

/-- Where each of several instructions is read back from what it is written as, so are all of them,
one after the other. The states that are read into may hold more than a circuit. -/
theorem exists_run_appended {σ α ε ε' : Type} (circuit : σ → Circuit F) {good : σ → Prop}
    {write : Instruction F → Except ε α} {read : σ → α → Except ε' σ}
    {R : Instruction F → Instruction F → Prop} {is : List (Instruction F)}
    (h : ∀ i ∈ is, ∃ o, write i = .ok o ∧ ∀ s, good s → ∃ j s', R i j ∧ good s' ∧
      (circuit s').instructions = (circuit s).instructions ++ [j] ∧ read s o = .ok s') :
    ∃ os, is.mapM write = .ok os ∧ ∀ s, good s → ∃ js s', List.Forall₂ R is js ∧ good s' ∧
      (circuit s').instructions = (circuit s).instructions ++ js ∧ os.foldlM read s = .ok s' := by
  induction is with
  | nil => exact ⟨[], rfl, fun s hs => ⟨[], s, .nil, hs, (List.append_nil _).symm, rfl⟩⟩
  | cons i is ih =>
    obtain ⟨⟨o, ho, hread⟩, his⟩ := List.forall_mem_cons.mp h
    obtain ⟨os, hos, hreads⟩ := ih his
    refine ⟨o :: os, mapM_eq_ok_iff.mpr (.cons ho (mapM_eq_ok_iff.mp hos)), fun s hs => ?_⟩
    obtain ⟨j, s₁, hij, hs₁, hj, hfirst⟩ := hread s hs
    obtain ⟨js, s₂, hsame, hs₂, hjs, hrest⟩ := hreads s₁ hs₁
    refine ⟨j :: js, s₂, .cons hij hsame, hs₂, ?_, bind_eq_ok_iff.mpr ⟨s₁, hfirst, hrest⟩⟩
    rw [hjs, hj, List.append_assoc, List.singleton_append]

theorem exists_run_extended {α ε ε' : Type} {write : Instruction F → Except ε α}
    {read : Circuit F → α → Except ε' (Circuit F)} {R : Instruction F → Instruction F → Prop}
    {qubits clbits : ℕ} {is : List (Instruction F)}
    (h : ∀ i ∈ is, ∃ o, write i = .ok o ∧ ∀ c : Circuit F, c.qubits = qubits → c.clbits = clbits →
      ∃ j registry, R i j ∧ read c o = .ok (c.extended [j] registry)) :
    ∃ os, is.mapM write = .ok os ∧ ∀ c : Circuit F, c.qubits = qubits ∧ c.clbits = clbits →
      ∃ js c', List.Forall₂ R is js ∧ (c'.qubits = qubits ∧ c'.clbits = clbits) ∧
        c'.instructions = c.instructions ++ js ∧ os.foldlM read c = .ok c' := by
  refine exists_run_appended id fun i hi => ?_
  obtain ⟨o, ho, hread⟩ := h i hi
  refine ⟨o, ho, fun c hc => ?_⟩
  obtain ⟨j, registry, hij, hj⟩ := hread c hc.1 hc.2
  exact ⟨j, c.extended [j] registry, hij, hc, rfl, hj⟩

end Circuit

namespace Qiskit

section

variable {F : Type} [Scalar F] [Numeral F]

theorem Operation.exists_extended {i : Instruction F} {qubits clbits : ℕ} {P : Gate F → Prop}
    (hw : i.WellFormed qubits) (hmade : i.gate.IsMade) (hrecorded : i.Recorded clbits)
    (h : i.Rebuilds P) :
    ∃ o, Operation.ofInstruction i = .ok o ∧
      ∀ c : Circuit F, c.qubits = qubits → c.clbits = clbits → ∃ j registry,
        (j.qubits = i.qubits ∧ j.clbits = i.clbits ∧ P j.gate) ∧
          o.read c = .ok (c.extended [j] registry) := by
  have hmeasured (hm : i.isMeasure = true) : ∃ b, i.clbits = [b] := by
    obtain ⟨b, -, hb⟩ := hrecorded.exists_clbits hm
    exact ⟨b, hb⟩
  obtain ⟨o, ho, hread⟩ := exists_read hw hmade hmeasured h
  refine ⟨o, ho, fun c hc hb => ?_⟩
  obtain ⟨j, registry, ⟨hqubits, hclbits, hg⟩, hj⟩ := hread c hc
  have hsame : j.clbits = i.clbits := by
    rw [hclbits]
    split_ifs with hm
    · rfl
    · exact (hrecorded.clbits_eq_nil (Bool.eq_false_iff.mpr hm)).symm
  refine ⟨j, registry, ⟨hqubits, hsame, hg⟩, ?_⟩
  rw [hj, Circuit.pushed_of_lt (hsame ▸ hb ▸ hrecorded.lt)]
  rfl

theorem exists_decode_of_read {c : Circuit F} {R : Instruction F → Instruction F → Prop}
    (h : ∀ i ∈ c.instructions, ∃ o, Operation.ofInstruction i = .ok o ∧
      ∀ c' : Circuit F, c'.qubits = c.qubits → c'.clbits = c.clbits →
        ∃ j registry, R i j ∧ o.read c' = .ok (c'.extended [j] registry)) :
    ∃ d c', encode c = .ok d ∧ decode d = .ok c' ∧ c'.qubits = c.qubits ∧ c'.clbits = c.clbits ∧
      List.Forall₂ R c.instructions c'.instructions := by
  obtain ⟨os, hos, hread⟩ := Circuit.exists_run_extended h
  obtain ⟨js, c', hsame, ⟨hqubits, hclbits⟩, hjs, hc'⟩ := hread
    { qubits := c.qubits, clbits := c.clbits, registry := .ofNames (c.freeParameters.map (·.name)) }
    ⟨rfl, rfl⟩
  exact ⟨_, c', bind_eq_ok_iff.mpr ⟨os, hos, rfl⟩, hc', hqubits, hclbits, hjs ▸ hsame⟩

end

theorem Operation.exists_readsAs {i : Instruction Float} {qubits clbits : ℕ} (h : i.Passes qubits)
    (hrecorded : i.Recorded clbits) (hfinite : ∀ p ∈ i.gate.params, p.FiniteNumbers) :
    ∃ o, Operation.ofInstruction i = .ok o ∧
      ∀ c : Circuit Float, c.qubits = qubits → c.clbits = clbits →
        ∃ j registry, i.ReadsAs j ∧ o.read c = .ok (c.extended [j] registry) := by
  obtain ⟨o, ho, hread⟩ :=
    exists_extended h.wellFormed h.made hrecorded (h.rebuilds_readsAs hfinite)
  refine ⟨o, ho, fun c hc hb => ?_⟩
  obtain ⟨j, registry, ⟨hqubits, hclbits, hgate⟩, hj⟩ := hread c hc hb
  exact ⟨j, registry, ⟨hgate.tag, hqubits, hclbits, hgate.matrix, hgate.params⟩, hj⟩

/-- Circuits come back from the documents they are written as. Every circuit whose gates are made by
constructors, whose numbers are finite and whose parameters are registered under names of the
expression syntax can be written and read again. Its registers keep their sizes and its parameters
their names and order. Each instruction keeps its tag, its qubits and its bits, a matrix is the same
matrix, and the parameters have the same values under all bindings. -/
theorem decode_encode {c : Circuit Float} (h : c.Registered Param.IsName c.registry)
    (hrecorded : ∀ i ∈ c.instructions, i.Recorded c.clbits)
    (hfinite : ∀ p ∈ c.params, p.FiniteNumbers) :
    ∃ d c', encode c = .ok d ∧ decode d = .ok c' ∧
      c'.qubits = c.qubits ∧ c'.clbits = c.clbits ∧
      List.Forall₂ Instruction.ReadsAs c.instructions c'.instructions ∧
      c'.freeParameters.map Handle.name = c.freeParameters.map Handle.name := by
  have hparams : ∀ i ∈ c.instructions, ∀ p ∈ i.gate.params, p ∈ c.params :=
    fun i hi p hp => List.mem_flatMap.mpr ⟨i, hi, hp⟩
  have hpasses : ∀ i ∈ c.instructions, i.Passes c.qubits := fun i hi =>
    ⟨h.wellFormed i hi, fun hm => by
      obtain ⟨b, -, hb⟩ := (hrecorded i hi).exists_clbits hm
      exact ⟨b, hb⟩, h.made i hi,
      fun p hp => (h.known p (hparams i hi p hp)).mono fun _ hx => hx.2⟩
  obtain ⟨d, c', hd, hc', hqubits, hclbits, hsame⟩ := exists_decode_of_read fun i hi =>
    Operation.exists_readsAs (hpasses i hi) (hrecorded i hi)
      fun p hp => hfinite p (hparams i hi p hp)
  refine ⟨d, c', hd, hc', hqubits, hclbits, hsame, ?_⟩
  -- the names that were read are those that were written, each at its first place
  obtain ⟨_, _, hd', hback, hnames⟩ := exists_decode_encode hpasses
  obtain rfl := Except.ok.inj (hd.symm.trans hd')
  obtain rfl := Except.ok.inj (hc'.symm.trans hback)
  have hread : (Native.qiskit d).toCircuit = .ok c' := TranspileError.lift_eq_ok_iff.mpr hc'
  have hwritten : c.instructions.flatMap Instruction.written = c.params.flatMap Param.names := by
    rw [Circuit.params, List.flatMap_assoc]
    refine List.flatMap_congr fun i hi => List.flatMap_congr fun p hp => ?_
    exact Param.written_of_finite (hfinite p (hparams i hi p hp))
  rw [(Native.registered_of_toCircuit hread).map_name_freeParameters, hnames, hwritten,
    h.map_name_freeParameters]

def controlledNot : Operator Float := .controlled (.ofFn 2 fun i j => if i = j then 0 else 1) 1

theorem ofMatrix_controlledNot :
    Gate.ofMatrix controlledNot = .ok ⟨.unitary, [], some controlledNot⟩ := by
  have hqubits : controlledNot.qubits?.isNone = false := rfl
  have hunitary : controlledNot.isUnitary Gate.unitaryTolerance = true := by decide +kernel
  rw [Gate.ofMatrix, hqubits, hunitary]
  rfl

/-- A circuit whose parameters are not used in the order of their registration. -/
def outOfOrder : Circuit Float where
  qubits := 2
  clbits := 1
  registry := ⟨["phi", "theta"]⟩
  instructions :=
    [⟨⟨.rx, [.mul (.const (-0.1)) (.ref ⟨1, "theta"⟩)], none⟩, [1], []⟩,
      ⟨⟨.unitary, [], some controlledNot⟩, [0, 1], []⟩,
      ⟨⟨.rz, [.sub (.ref ⟨0, "phi"⟩) .pi], none⟩, [0], []⟩, .measure 1 0]

theorem params_outOfOrder : outOfOrder.params =
    [.mul (.const (-0.1)) (.ref ⟨1, "theta"⟩), .sub (.ref ⟨0, "phi"⟩) .pi] := rfl

theorem registered_outOfOrder : outOfOrder.Registered Param.IsName ⟨["phi", "theta"]⟩ := by
  have hphi : Param.IsName "phi" := ⟨Param.Token.isIdentifier_of_word 'p' ['h', 'i'] rfl, rfl⟩
  have htheta : Param.IsName "theta" :=
    ⟨Param.Token.isIdentifier_of_word 't' ['h', 'e', 't', 'a'] rfl, rfl⟩
  refine ⟨rfl, by decide, ?_, ?_, ?_⟩
  · simp only [Circuit.WellFormed, outOfOrder, List.forall_mem_cons, List.not_mem_nil,
      false_imp_iff, implies_true, and_true]
    exact ⟨⟨rfl, by decide, by decide⟩, ⟨rfl, by decide, by decide⟩, ⟨rfl, by decide, by decide⟩,
      ⟨rfl, by decide, by decide⟩⟩
  · simp only [outOfOrder, List.forall_mem_cons, List.not_mem_nil, false_imp_iff, implies_true,
      and_true]
    exact ⟨.inl (Qasm.isBuilt_of_simplified _ (by decide) rfl rfl (by decide)),
      .inr ⟨_, ofMatrix_controlledNot⟩,
      .inl (Qasm.isBuilt_of_simplified _ (by decide) rfl rfl (by decide)),
      .inl Gate.isBuilt_measure⟩
  · rw [params_outOfOrder, List.forall_mem_cons, List.forall_mem_singleton]
    exact ⟨⟨trivial, by decide, htheta⟩, ⟨by decide, hphi⟩, trivial⟩

theorem finiteNumbers_outOfOrder : ∀ p ∈ outOfOrder.params, p.FiniteNumbers := by
  rw [params_outOfOrder, List.forall_mem_cons, List.forall_mem_singleton]
  exact ⟨⟨show (-0.1 : Float).isFinite = true by decide +kernel, trivial⟩, trivial, trivial⟩

theorem decode_encode_outOfOrder :
    ∃ d c', encode outOfOrder = .ok d ∧ decode d = .ok c' ∧ c'.qubits = 2 ∧ c'.clbits = 1 ∧
      List.Forall₂ Instruction.ReadsAs outOfOrder.instructions c'.instructions ∧
      c'.freeParameters.map Handle.name = ["theta", "phi"] := by
  refine decode_encode registered_outOfOrder ?_ finiteNumbers_outOfOrder
  simp only [outOfOrder, List.forall_mem_cons, List.not_mem_nil, false_imp_iff, implies_true,
    and_true]
  exact ⟨rfl, rfl, rfl, 0, by decide, rfl⟩

end Qiskit

end Interchange
end
