import Interchange.Proofs.QiskitPassage

noncomputable section
namespace Interchange

/-- The qubits of a circuit, instruction by instruction. -/
theorem Circuit.isLeast_width {F : Type} {is : List (Instruction F)} {width : ℕ}
    (h : IsLeast {n | ∀ q ∈ is.flatMap (·.qubits), q < n} width) :
    IsLeast {n | ∀ i ∈ is, ∀ q ∈ i.qubits, q < n} width := by
  have hset : {n | ∀ i ∈ is, ∀ q ∈ i.qubits, q < n} = {n | ∀ q ∈ is.flatMap (·.qubits), q < n} := by
    ext n
    exact ⟨fun hn q hq => by
      obtain ⟨i, hi, hq⟩ := List.mem_flatMap.mp hq
      exact hn i hi q hq, fun hn i hi q hq => hn q (List.mem_flatMap.mpr ⟨i, hi, hq⟩)⟩
  rwa [hset]

namespace Braket

theorem Operation.exists_readsAs {i : Instruction Float} {qubits : ℕ} (h : i.Passes qubits)
    (hs : table.supports i.tag = true) (hfinite : ∀ p ∈ i.gate.params, p.FiniteNumbers) :
    ∃ o, Operation.ofInstruction i = .ok o ∧
      ∀ c : Circuit Float, c.qubits = qubits → c.clbits = 0 → ∃ j registry,
        Instruction.ReadsAs { i with clbits := [] } j ∧
          o.read c = .ok (c.extended [j] registry) := by
  obtain ⟨o, ho, hread⟩ := exists_read h.wellFormed h.made hs (h.rebuilds_readsAs hfinite)
  refine ⟨o, ho, fun c hc _ => ?_⟩
  obtain ⟨g, registry, hg, hj⟩ := hread c hc
  exact ⟨⟨g, i.qubits, []⟩, registry, ⟨hg.tag, rfl, rfl, hg.matrix, hg.params⟩, hj⟩

/-- Circuits come back from the programs they are written as. Every circuit over the gates of the
table whose gates are made by constructors, whose numbers are finite and whose parameters are
registered under names of the expression syntax can be written and read again. The width is then
the least that the qubits need. Each instruction keeps its tag and its qubits in their order, a
matrix is the same matrix, and an angle has the same value under all bindings. -/
theorem program_reads_back {c : Circuit Float} (h : c.Registered Param.IsName c.registry)
    (hs : ∀ i ∈ c.instructions, table.supports i.tag = true)
    (hindex : ∀ i ∈ c.instructions, ∀ q ∈ i.qubits, q + 1 < Number.indexLimit)
    (hfinite : ∀ p ∈ c.params, p.FiniteNumbers) :
    ∃ p c', encode c = .ok p ∧ decode p = .ok c' ∧
      IsLeast {n | ∀ i ∈ c.instructions, ∀ q ∈ i.qubits, q < n} c'.qubits ∧
      List.Forall₂ (fun i j => Instruction.ReadsAs { i with clbits := [] } j)
        c.instructions c'.instructions := by
  have hunsupported : table.supports .measure = false := by decide
  have hbound : ∀ q ∈ c.instructions.flatMap (·.qubits), q + 1 < Number.indexLimit := by
    intro q hq
    obtain ⟨i, hi, hq⟩ := List.mem_flatMap.mp hq
    exact hindex i hi q hq
  obtain ⟨width, hwidth, hleast⟩ := exists_widthOf (F := Float) (f := .braket) hbound
  have hpasses : ∀ i ∈ c.instructions, i.Passes width := by
    intro i hi
    have hwell := h.wellFormed i hi
    refine ⟨⟨hwell.length_eq, hwell.nodup, fun q hq => ?_⟩, fun hm => ?_, h.made i hi,
      fun p hp => ?_⟩
    · exact hleast.1 q (List.mem_flatMap.mpr ⟨i, hi, hq⟩)
    · have hmeasure : i.tag = .measure := beq_iff_eq.mp hm
      have := hs i hi
      rw [hmeasure, hunsupported] at this
      cases this
    · exact (h.known p (List.mem_flatMap.mpr ⟨i, hi, hp⟩)).mono fun _ hx => hx.2
  obtain ⟨os, hos, hread⟩ := Circuit.exists_run_extended fun i hi =>
    Operation.exists_readsAs (hpasses i hi) (hs i hi)
      fun p hp => hfinite p (List.mem_flatMap.mpr ⟨i, hi, hp⟩)
  obtain ⟨js, c', hsame, ⟨rfl, -⟩, hjs, hc'⟩ := hread { qubits := width, clbits := 0 } ⟨rfl, rfl⟩
  refine ⟨_, c', bind_eq_ok_iff.mpr ⟨os, hos, rfl⟩, ?_, Circuit.isLeast_width hleast, hjs ▸ hsame⟩
  unfold decode
  rw [if_neg (not_not.mpr rfl)]
  exact bind_eq_ok_iff.mpr ⟨_, qubits_of_ofInstruction hos ▸ hwidth, hc'⟩

/-- A circuit on two qubits of a wider register, without the measurement. -/
def wide : Circuit Float :=
  { Qiskit.outOfOrder with qubits := 9, instructions := Qiskit.outOfOrder.instructions.take 3 }

theorem registered_wide : wide.Registered Param.IsName ⟨["phi", "theta"]⟩ := by
  have h := Qiskit.registered_outOfOrder
  refine ⟨rfl, h.nodup, fun i hi => ?_, fun i hi => h.made i (List.mem_of_mem_take hi),
    fun p hp => h.known p hp⟩
  have hwell := h.wellFormed i (List.mem_of_mem_take hi)
  refine ⟨hwell.length_eq, hwell.nodup, fun q hq => (hwell.lt q hq).trans ?_⟩
  decide

theorem program_reads_back_wide :
    ∃ p c', encode wide = .ok p ∧ decode p = .ok c' ∧ c'.qubits = 2 ∧
      List.Forall₂ (fun i j => Instruction.ReadsAs { i with clbits := [] } j)
        wide.instructions c'.instructions := by
  have hlt : ∀ i ∈ wide.instructions, ∀ q ∈ i.qubits, q < 2 := by
    simp only [wide, Qiskit.outOfOrder, List.take_succ_cons, List.take_zero, List.forall_mem_cons,
      List.not_mem_nil, false_imp_iff, implies_true, and_true]
    decide
  have hs : ∀ i ∈ wide.instructions, table.supports i.tag = true := by
    simp only [wide, Qiskit.outOfOrder, List.take_succ_cons, List.take_zero, List.forall_mem_cons,
      List.not_mem_nil, false_imp_iff, implies_true, and_true]
    decide
  have hindex : ∀ i ∈ wide.instructions, ∀ q ∈ i.qubits, q + 1 < Number.indexLimit := by
    intro i hi q hq
    have := hlt i hi q hq
    rw [Number.indexLimit]
    omega
  obtain ⟨p, c', hp, hc', hwidth, hsame⟩ :=
    program_reads_back (c := wide) registered_wide hs hindex Qiskit.finiteNumbers_outOfOrder
  refine ⟨p, c', hp, hc', hwidth.unique ⟨hlt, fun n hn => ?_⟩, hsame⟩
  exact hn _ List.mem_cons_self 1 List.mem_cons_self

end Braket

namespace IonQ

variable {F : Type} [Scalar F]

theorem Operation.exists_read {i : Instruction F} {qubits : ℕ} (hw : i.WellFormed qubits)
    (hbuilt : i.gate.IsBuilt) (hs : table.supports i.tag = true) {values : List F}
    (hvalues : i.gate.numeric? = some values) :
    ∃ o, Operation.ofInstruction i = .ok o ∧
      ∀ c : Circuit F, c.qubits = qubits → c.clbits = 0 → ∃ j registry,
        (j.tag = i.tag ∧ j.qubits = i.qubits ∧ j.gate.numeric? = i.gate.numeric?) ∧
          o.read c = .ok (c.extended [j] registry) := by
  have hall : ∀ e ∈ table.entries, e.1.paramCount ≤ 1 := by decide
  obtain ⟨name, hrequire⟩ := GateTable.exists_require (F := F) hs
  have hentry := GateTable.mem_entries_of_require hrequire
  have hlength : values.length = i.tag.paramCount :=
    (mapM_eq_some_iff.mp hvalues).length_eq.symm.trans hbuilt.length_params
  have hqubits : i.qubits.length = i.tag.qubits?.getD 0 := by
    rw [hw.length_eq, Gate.qubits_of_tag hbuilt.tag_ne]
    rfl
  -- the numbers of a gate are finite, so they make it again
  have hfinite : ∀ v ∈ values, Scalar.isFinite v = true := by
    intro v hv
    obtain ⟨p, hp, hpv⟩ := exists_of_forall₂_right (mapM_eq_some_iff.mp hvalues) hv
    obtain ⟨w, hw, hfinite⟩ :=
      hbuilt.exists_finite (Gate.isParameterized_of_numeric hvalues) hp
    rwa [Option.some.inj (hpv.symm.trans hw)]
  obtain ⟨g, hnew, htag, hg⟩ := Gate.exists_new_of_values hbuilt.tag_ne
    (by rw [List.length_map, hlength]; rfl) (Gate.values?_const values) hfinite
  refine ⟨_, bind_eq_ok_iff.mpr ⟨name, hrequire,
    bind_eq_ok_iff.mpr ⟨_, mapM_rotationOf hvalues, rfl⟩⟩, fun c hc _ => ?_⟩
  have hlist : QubitList c.qubits g.qubits i.qubits := by
    rw [hc, Gate.qubits_of_tag hg.tag_ne, htag, ← Gate.qubits_of_tag hbuilt.tag_ne]
    exact hw
  refine ⟨⟨g, i.qubits, []⟩, c.registry, ⟨htag, rfl, hg.params.trans hvalues.symm⟩,
    bind_eq_ok_iff.mpr ⟨i.tag, tag_of_written hentry rfl hqubits _, bind_eq_ok_iff.mpr
      ⟨_, params_of_rotation hlength (hall _ hentry) rfl, ?_⟩⟩⟩
  rw [Operands.qubits_ofQubits, ConvertError.lift_eq_ok_iff]
  exact Circuit.apply_of_new hnew hlist

/-- Circuits with numbers come back from the documents they are written as: the width is the same,
and each instruction keeps its tag, its qubits in their order and the numbers of its parameters. -/
theorem document_reads_back {c : Circuit F} (hw : c.WellFormed)
    (hbuilt : ∀ i ∈ c.instructions, i.gate.IsBuilt)
    (hs : ∀ i ∈ c.instructions, table.supports i.tag = true)
    (hn : ∀ i ∈ c.instructions, ∃ values, i.gate.numeric? = some values) :
    ∃ d c', encode c = .ok d ∧ decode d = .ok c' ∧ c'.qubits = c.qubits ∧
      List.Forall₂ (fun i j => j.tag = i.tag ∧ j.qubits = i.qubits ∧
        j.gate.numeric? = i.gate.numeric?) c.instructions c'.instructions := by
  obtain ⟨os, hos, hread⟩ := Circuit.exists_run_extended fun i hi => by
    obtain ⟨values, hvalues⟩ := hn i hi
    exact Operation.exists_read (hw i hi) (hbuilt i hi) (hs i hi) hvalues
  obtain ⟨js, c', hsame, ⟨hqubits, -⟩, hjs, hc'⟩ :=
    hread { qubits := c.qubits, clbits := 0 } ⟨rfl, rfl⟩
  refine ⟨_, c', bind_eq_ok_iff.mpr ⟨os, hos, rfl⟩, ?_, hqubits, hjs ▸ hsame⟩
  unfold decode
  rw [if_neg (not_not.mpr rfl), if_neg (not_not.mpr rfl)]
  exact hc'

/-- Rotations with and without a control, on qubits that are not in order. -/
def rotations : Circuit Float where
  qubits := 3
  clbits := 0
  instructions :=
    [⟨⟨.crz, [.const 0.1], none⟩, [2, 0], []⟩, ⟨⟨.cx, [], none⟩, [1, 0], []⟩,
      ⟨⟨.sxdg, [], none⟩, [1], []⟩, ⟨⟨.rxx, [.pi], none⟩, [2, 1], []⟩]

theorem document_reads_back_rotations :
    ∃ d c', encode rotations = .ok d ∧ decode d = .ok c' ∧ c'.qubits = 3 ∧
      List.Forall₂ (fun i j => j.tag = i.tag ∧ j.qubits = i.qubits ∧
        j.gate.numeric? = i.gate.numeric?) rotations.instructions c'.instructions := by
  refine document_reads_back ?_ ?_ ?_ ?_ <;>
    simp only [Circuit.WellFormed, rotations, List.forall_mem_cons, List.not_mem_nil, false_imp_iff,
      implies_true, and_true]
  · exact ⟨⟨rfl, by decide, by decide⟩, ⟨rfl, by decide, by decide⟩, ⟨rfl, by decide, by decide⟩,
      ⟨rfl, by decide, by decide⟩⟩
  · exact ⟨Qasm.isBuilt_of_simplified _ (by decide) rfl rfl (by decide +kernel),
      Qasm.isBuilt_of_simplified _ (by decide) rfl rfl (by decide),
      Qasm.isBuilt_of_simplified _ (by decide) rfl rfl (by decide),
      Qasm.isBuilt_of_simplified _ (by decide) rfl rfl (by decide +kernel)⟩
  · decide
  · exact ⟨⟨[0.1], rfl⟩, ⟨[], rfl⟩, ⟨[], rfl⟩, ⟨_, rfl⟩⟩

end IonQ

end Interchange
end
