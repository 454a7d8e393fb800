import Interchange.Proofs.QubitReversal
import Interchange.Proofs.TranspileEquivalence
import Interchange.Proofs.WrittenNames

namespace Interchange

namespace Operator

variable {F : Type} [Scalar F]

theorem flatten_rows (m : Operator F) : m.rows.flatten = m.entries.toList := by
  have hrange {α : Type} (n : ℕ) (f : ℕ → α) :
      (List.range n).map f = List.ofFn fun i : Fin n => f i := by
    rw [List.ofFn_eq_map, ← List.map_coe_finRange_eq_range, List.map_map]
    rfl
  have hentries : m.entries.toList =
      List.ofFn fun k : Fin (m.dim * m.dim) => m.entries.getD k 0 := by
    refine List.ext_getElem (by simp [m.size_entries]) fun k hk _ => ?_
    simp at hk
    simp [Array.getD, hk]
  rw [hentries, List.ofFn_mul, rows, hrange]
  simp only [hrange]
  rfl

theorem ofRows?_rows (m : Operator F) : ofRows? m.rows = some m := by
  have hlength : m.rows.length = m.dim := by simp [rows]
  have hall : m.rows.all (·.length == m.rows.length) = true := by
    rw [hlength, List.all_eq_true]
    intro row hrow
    obtain ⟨i, -, rfl⟩ := List.mem_map.mp hrow
    simp
  have hflatten : m.rows.flatten.length = m.rows.length * m.rows.length := by
    rw [flatten_rows, hlength, Array.length_toList, m.size_entries]
  rw [ofRows?, dif_pos hflatten, if_pos hall]
  refine congrArg some (ext_get hlength fun i _ j _ => ?_)
  simp only [get, flatten_rows, hlength, Array.toArray_toList]

theorem ofPairs?_toPairs (m : Operator F) : ofPairs? m.toPairs = some m := by
  have hpairs : (m.toPairs.map (·.map fun x => (⟨x.1, x.2⟩ : Amplitude F))) = m.rows := by
    rw [toPairs, List.map_map]
    refine (List.map_congr_left fun row _ => ?_).trans m.rows.map_id
    rw [Function.comp_apply, List.map_map]
    exact row.map_id
  rw [ofPairs?, hpairs, ofRows?_rows]

end Operator

def Instruction.written (i : Instruction Float) : List String := i.gate.params.flatMap Param.written

/-- An instruction as lowering gives it, whose parameters can be read back. -/
structure Instruction.Passes (qubits : ℕ) (i : Instruction Float) : Prop where
  wellFormed : i.WellFormed qubits
  measured : i.isMeasure = true → ∃ b, i.clbits = [b]
  made : i.gate.IsMade
  readable : ∀ p ∈ i.gate.params, p.Readable

theorem Gate.IsMade.params_of_unitary {F : Type} [Scalar F] {g : Gate F} (h : g.IsMade)
    (hu : g.tag = .unitary) : g.params = [] := by
  obtain ⟨m, hm⟩ := h.resolve_left fun hbuilt => hbuilt.tag_ne hu
  rw [eq_of_ofMatrix hm]

theorem Instruction.WellFormed.exists_qubit {F : Type} [Scalar F] {i : Instruction F} {qubits : ℕ}
    (h : i.WellFormed qubits) (hmade : i.gate.IsMade) (hm : i.isMeasure = true) :
    i.gate.IsBuilt ∧ i.gate.params = [] ∧ ∃ q, i.qubits = [q] := by
  have htag : i.gate.tag = .measure := beq_iff_eq.mp hm
  have hbuilt : i.gate.IsBuilt := by
    refine hmade.resolve_right ?_
    rintro ⟨m, hm⟩
    rw [Gate.eq_of_ofMatrix hm] at htag
    cases htag
  have hlength := h.length_eq
  rw [Gate.qubits_of_tag hbuilt.tag_ne, htag] at hlength
  refine ⟨hbuilt, List.eq_nil_of_length_eq_zero ?_, List.length_eq_one_iff.mp hlength⟩
  rw [hbuilt.length_params, htag]
  rfl

/-- A gate with the property comes back from what an instruction is written as: a matrix is the gate
that it was, and any other gate is built again from what its parameters are read as. -/
structure Instruction.Rebuilds {F : Type} [Scalar F] [Numeral F] (P : Gate F → Prop)
    (i : Instruction F) : Prop where
  matrix : i.tag = .unitary → P i.gate
  built : i.gate.IsBuilt → ∀ c : Circuit F, ∃ registry qs g,
    Angle.readAll c (i.gate.params.map .ofParam) = .ok ({ c with registry := registry }, qs) ∧
      Gate.new i.tag qs = .ok g ∧ P g

/-- A measurement has no parameters, so it is built again from none. -/
theorem Instruction.Rebuilds.measure {F : Type} [Scalar F] [Numeral F] {P : Gate F → Prop}
    {i : Instruction F} (h : i.Rebuilds P) (hbuilt : i.gate.IsBuilt) (hparams : i.gate.params = [])
    (hmeasure : i.tag = .measure) : P .measure := by
  obtain ⟨registry, qs, g, hread, hnew, hg⟩ := h.built hbuilt { qubits := 0, clbits := 0 }
  rw [hparams] at hread
  obtain rfl : [] = qs := congrArg Prod.snd (Except.ok.inj hread)
  rw [hmeasure] at hnew
  obtain rfl : Gate.measure = g := Except.ok.inj hnew
  exact hg

variable {i : Instruction Float} {qubits : ℕ}

theorem Instruction.Passes.rebuilds_written (h : i.Passes qubits) :
    i.Rebuilds fun g => g.params.flatMap Param.names = i.written where
  matrix hu := by
    rw [written, h.made.params_of_unitary hu]
    rfl
  built hbuilt c := by
    obtain ⟨registry, qs, g, hread, hnew, -, hnames⟩ := hbuilt.exists_readAll h.readable c
    exact ⟨registry, qs, g, hread, hnew, hnames⟩

namespace Qiskit

variable {F : Type} [Scalar F] {c : Circuit F} {o : Operation F} {g : Gate F}

theorem Operation.readGate_of_tag {tag : Tag} {c₁ : Circuit F} {params : List (Param F)}
    (htag : table.tag? o.name = some tag) (hu : tag ≠ .unitary) (hmatrix : o.matrix = none)
    (hread : Angle.readAll c o.params = .ok (c₁, params)) (hnew : Gate.new tag params = .ok g) :
    o.readGate c = .ok (c₁, g) := by
  have hfilter : (some tag).filter (· != .unitary) = some tag := by simp [hu]
  unfold readGate readMatrix?
  rw [hmatrix, htag, hfilter, hread]
  refine bind_eq_ok_iff.mpr ⟨none, rfl, bind_eq_ok_iff.mpr ⟨_, rfl, ?_⟩⟩
  exact bind_eq_ok_iff.mpr ⟨g, ConvertError.lift_eq_ok_iff.mpr hnew, rfl⟩

theorem Operation.readGate_of_matrix {m : Operator F} (hname : o.name = Tag.unitary.name)
    (hmatrix : o.matrix = some m.reverseQubits.toPairs) (hg : Gate.ofMatrix m = .ok g) :
    o.readGate c = .ok (c, g) := by
  have htag : (table.tag? o.name).filter (· != .unitary) = none := by
    rw [hname]
    decide +kernel
  have hgiven : o.readMatrix? = .ok (some m) := by
    rw [readMatrix?, hmatrix, Option.mapM_some, readMatrix, Operator.ofPairs?_toPairs]
    change Except.ok (some m.reverseQubits.reverseQubits) = _
    rw [Operator.reverseQubits_reverseQubits]
  unfold readGate
  rw [hgiven, htag]
  exact bind_eq_ok_iff.mpr ⟨some m, rfl, bind_eq_ok_iff.mpr
    ⟨g, ConvertError.lift_eq_ok_iff.mpr hg, rfl⟩⟩

/-- What is written for an instruction is read back on the same qubits, with the bits of a
measurement. -/
theorem Operation.exists_read [Numeral F] {i : Instruction F} {P : Gate F → Prop}
    (hw : i.WellFormed qubits) (hmade : i.gate.IsMade)
    (hmeasured : i.isMeasure = true → ∃ b, i.clbits = [b]) (h : i.Rebuilds P) :
    ∃ o, Operation.ofInstruction i = .ok o ∧ ∀ c : Circuit F, c.qubits = qubits → ∃ j registry,
      (j.qubits = i.qubits ∧ j.clbits = (if i.isMeasure then i.clbits else []) ∧ P j.gate) ∧
        o.read c = .ok ({ c with registry := registry }.pushed j) := by
  obtain ⟨hnative, hdirective, hname, htag⟩ := table_spec i.tag
  have hrequire : table.require (F := F) i.tag = .ok i.tag.name := by
    rw [GateTable.require, hnative]
  refine ⟨_, bind_eq_ok_iff.mpr ⟨_, hrequire, rfl⟩, fun c hc => ?_⟩
  unfold read
  dsimp only
  rw [hdirective, if_neg Bool.false_ne_true]
  cases hm : i.isMeasure with
  | true =>
    obtain ⟨hbuilt, hparams, q, hqubits⟩ := hw.exists_qubit hmade hm
    obtain ⟨b, hclbits⟩ := hmeasured hm
    have hmeasure : i.tag = .measure := beq_iff_eq.mp hm
    have hg := h.measure hbuilt hparams hmeasure
    have hrange := hw.lt
    rw [hqubits, ← hc] at hrange
    refine ⟨.measure q b, c.registry, ⟨hqubits.symm, hclbits.symm, hg⟩, ?_⟩
    rw [if_pos (congrArg Tag.name hmeasure), readMeasure, hqubits, hclbits]
    exact bind_eq_ok_iff.mpr ⟨_, ConvertError.lift_eq_ok_iff.mpr
      (Circuit.push_eq_ok_iff.mpr ⟨hrange, rfl⟩), rfl⟩
  | false =>
    have hne : i.tag ≠ .measure := by simpa [Instruction.isMeasure] using hm
    rw [if_neg fun heq => hne (hname heq)]
    rcases hmade with hbuilt | ⟨m, hm⟩
    · obtain ⟨registry, qs, g, hread, hnew, hg⟩ := h.built hbuilt c
      have hsame : g.tag = i.gate.tag := Gate.tag_of_new hnew
      have hlist : QubitList c.qubits g.qubits i.qubits := by
        rw [hc, Gate.qubits_of_tag (hsame ▸ hbuilt.tag_ne), hsame,
          ← Gate.qubits_of_tag hbuilt.tag_ne]
        exact hw
      exact ⟨⟨g, i.qubits, []⟩, registry, ⟨rfl, rfl, hg⟩, bind_eq_ok_iff.mpr
        ⟨_, readGate_of_tag htag hbuilt.tag_ne (if_neg hbuilt.tag_ne) hread hnew,
          ConvertError.lift_eq_ok_iff.mpr
            (Circuit.pushGate_of_qubitList (c := { c with registry := registry }) hlist)⟩⟩
    · have hgate : i.gate = ⟨.unitary, [], some m⟩ := Gate.eq_of_ofMatrix hm
      have hu : i.tag = .unitary := congrArg Gate.tag hgate
      refine ⟨⟨i.gate, i.qubits, []⟩, c.registry, ⟨rfl, rfl, h.matrix hu⟩,
        bind_eq_ok_iff.mpr ⟨_, readGate_of_matrix (congrArg Tag.name hu) ?_ hm,
          ConvertError.lift_eq_ok_iff.mpr (Circuit.pushGate_of_qubitList (hc ▸ hw))⟩⟩
      rw [if_pos hu, hgate, Option.map_some]

theorem Operation.exists_ofInstruction (h : i.Passes qubits) :
    ∃ o, Operation.ofInstruction i = .ok o ∧ ∀ c : Circuit Float, c.qubits = qubits →
      ∃ c', o.read c = .ok c' ∧ c.NamesMore i.written c' := by
  obtain ⟨o, ho, hread⟩ := exists_read h.wellFormed h.made h.measured h.rebuilds_written
  refine ⟨o, ho, fun c hc => ?_⟩
  obtain ⟨j, registry, ⟨-, -, hnames⟩, hj⟩ := hread c hc
  exact ⟨_, hj, hnames ▸ c.namesMore_pushed registry j⟩

theorem exists_decode_encode {c : Circuit Float}
    (h : ∀ i ∈ c.instructions, i.Passes c.qubits) :
    ∃ d c', encode c = .ok d ∧ decode d = .ok c' ∧
      c'.params.flatMap Param.names = c.instructions.flatMap Instruction.written := by
  obtain ⟨os, hwrite, hread⟩ :=
    Circuit.exists_run fun i hi => Operation.exists_ofInstruction (h i hi)
  obtain ⟨c', hc', hmore⟩ := hread
    { qubits := c.qubits, clbits := c.clbits, registry := .ofNames (c.freeParameters.map (·.name)) }
    rfl
  exact ⟨_, c', bind_eq_ok_iff.mpr ⟨os, hwrite, rfl⟩, hc', hmore.names⟩

end Qiskit

namespace Braket

theorem exists_widthOf {F : Type} {f : Framework} {qs : List ℕ}
    (h : ∀ q ∈ qs, q + 1 < Number.indexLimit) :
    ∃ width, widthOf (F := F) f qs = .ok width ∧ IsLeast {n | ∀ q ∈ qs, q < n} width := by
  unfold widthOf
  cases hmax : qs.max? with
  | none =>
    rw [List.max?_eq_none_iff.mp hmax]
    exact ⟨0, rfl, fun _ hq => absurd hq List.not_mem_nil, fun n _ => n.zero_le⟩
  | some highest =>
    obtain ⟨hmem, hle⟩ := List.max?_eq_some_iff.mp hmax
    exact ⟨highest + 1, if_pos (h highest hmem), fun q hq => Nat.lt_succ_of_le (hle q hq),
      fun n hn => hn highest hmem⟩

variable {F : Type} [Scalar F] {c : Circuit F} {o : Operation F} {g : Gate F}

theorem Operation.readGate_of_tag {tag : Tag} {c₁ : Circuit F} {params : List (Param F)}
    (htag : table.tag? o.type = some tag) (hu : tag ≠ .unitary)
    (hread : Angle.readAll c o.angle.toList = .ok (c₁, params))
    (hnew : Gate.new tag params = .ok g) : o.readGate c = .ok (c₁, g) := by
  unfold readGate
  rw [htag]
  split
  next heq => cases heq
  next heq => exact absurd (Option.some.inj heq) hu
  next heq =>
    obtain rfl := Option.some.inj heq
    exact bind_eq_ok_iff.mpr ⟨_, ConvertError.lift_eq_ok_iff.mpr hread, bind_eq_ok_iff.mpr
      ⟨g, ConvertError.lift_eq_ok_iff.mpr hnew, rfl⟩⟩

theorem Operation.readGate_of_matrix {m : Operator F} (htag : table.tag? o.type = some .unitary)
    (hmatrix : o.matrix = some m.toPairs) (hg : Gate.ofMatrix m = .ok g) :
    o.readGate c = .ok (c, g) := by
  have hread : readMatrix (F := F) .braket m.toPairs = .ok m := by
    rw [readMatrix, Operator.ofPairs?_toPairs]
  unfold readGate
  rw [htag, hmatrix]
  exact bind_eq_ok_iff.mpr ⟨m, hread, bind_eq_ok_iff.mpr
    ⟨g, ConvertError.lift_eq_ok_iff.mpr hg, rfl⟩⟩

/-- What is written for an instruction is read back on the same qubits, without bits. -/
theorem Operation.exists_read [Numeral F] {i : Instruction F} {P : Gate F → Prop}
    (hw : i.WellFormed qubits) (hmade : i.gate.IsMade) (hs : table.supports i.tag = true)
    (h : i.Rebuilds P) :
    ∃ o, Operation.ofInstruction i = .ok o ∧ ∀ c : Circuit F, c.qubits = qubits → ∃ g registry,
      P g ∧ o.read c = .ok ({ c with registry := registry }.pushed ⟨g, i.qubits, []⟩) := by
  have hall : ∀ e ∈ table.entries, table.tag? e.2 = some e.1 ∧ e.1.paramCount ≤ 1 := by
    decide +kernel
  obtain ⟨name, hrequire⟩ := GateTable.exists_require (F := F) hs
  obtain ⟨htag, hcount⟩ := hall _ (GateTable.mem_entries_of_require hrequire)
  refine ⟨_, bind_eq_ok_iff.mpr ⟨_, hrequire, rfl⟩, fun c hc => ?_⟩
  unfold read
  dsimp only
  rw [Operands.qubits_ofQubits]
  rcases hmade with hbuilt | ⟨m, hm⟩
  · obtain ⟨registry, qs, g, hread, hnew, hg⟩ := h.built hbuilt c
    have hangle : (i.gate.params.head?.map Angle.ofParam).toList = i.gate.params.map .ofParam := by
      rw [← List.head?_map, toList_head?]
      rw [List.length_map, hbuilt.length_params]
      exact hcount
    have hsame : g.tag = i.gate.tag := Gate.tag_of_new hnew
    have hlist : QubitList c.qubits g.qubits i.qubits := by
      rw [hc, Gate.qubits_of_tag (hsame ▸ hbuilt.tag_ne), hsame, ← Gate.qubits_of_tag hbuilt.tag_ne]
      exact hw
    exact ⟨g, registry, hg, bind_eq_ok_iff.mpr
      ⟨_, readGate_of_tag htag hbuilt.tag_ne (hangle ▸ hread) hnew, ConvertError.lift_eq_ok_iff.mpr
        (Circuit.pushGate_of_qubitList (c := { c with registry := registry }) hlist)⟩⟩
  · have hgate : i.gate = ⟨.unitary, [], some m⟩ := Gate.eq_of_ofMatrix hm
    have hu : i.tag = .unitary := congrArg Gate.tag hgate
    refine ⟨i.gate, c.registry, h.matrix hu, bind_eq_ok_iff.mpr ⟨_, readGate_of_matrix (hu ▸ htag)
      ?_ hm, ConvertError.lift_eq_ok_iff.mpr (Circuit.pushGate_of_qubitList (hc ▸ hw))⟩⟩
    rw [if_pos hu, hgate, Option.map_some]

theorem Operation.exists_ofInstruction (h : i.Passes qubits)
    (hs : table.supports i.tag = true) :
    ∃ o, Operation.ofInstruction i = .ok o ∧ ∀ c : Circuit Float, c.qubits = qubits →
      ∃ c', o.read c = .ok c' ∧ c.NamesMore i.written c' := by
  obtain ⟨o, ho, hread⟩ := exists_read h.wellFormed h.made hs h.rebuilds_written
  refine ⟨o, ho, fun c hc => ?_⟩
  obtain ⟨g, registry, hnames, hg⟩ := hread c hc
  exact ⟨_, hg, hnames ▸ c.namesMore_pushed registry ⟨g, i.qubits, []⟩⟩

theorem qubits_of_ofInstruction [Numeral F] {is : List (Instruction F)} {os : List (Operation F)}
    (h : is.mapM Operation.ofInstruction = .ok os) :
    os.flatMap (·.operands.qubits) = is.flatMap (·.qubits) := by
  rw [mapM_eq_ok_iff] at h
  induction h with
  | nil => rfl
  | cons ho _ ih =>
    obtain ⟨name, -, ho⟩ := bind_eq_ok_iff.mp ho
    obtain rfl := Except.ok.inj ho
    rw [List.flatMap_cons, List.flatMap_cons, ih, Operands.qubits_ofQubits]

theorem exists_decode_encode {c : Circuit Float}
    (h : ∀ i ∈ c.instructions, i.Passes c.qubits)
    (hs : ∀ i ∈ c.instructions, table.supports i.tag = true)
    (hq : c.qubits < Number.indexLimit) :
    ∃ p c', encode c = .ok p ∧ decode p = .ok c' ∧
      c'.params.flatMap Param.names = c.instructions.flatMap Instruction.written := by
  have hbound : ∀ q ∈ c.instructions.flatMap (·.qubits), q + 1 < Number.indexLimit := by
    intro q hmem
    obtain ⟨i, hi, hmem⟩ := List.mem_flatMap.mp hmem
    have := (h i hi).wellFormed.lt q hmem
    omega
  obtain ⟨width, hwidth, hlt, -⟩ := exists_widthOf (F := Float) (f := .braket) hbound
  have hpasses : ∀ i ∈ c.instructions, i.Passes width := fun i hi =>
    { h i hi with
      wellFormed := ⟨(h i hi).wellFormed.length_eq, (h i hi).wellFormed.nodup,
        fun q hmem => hlt q (List.mem_flatMap.mpr ⟨i, hi, hmem⟩)⟩ }
  obtain ⟨os, hwrite, hread⟩ :=
    Circuit.exists_run fun i hi => Operation.exists_ofInstruction (hpasses i hi) (hs i hi)
  obtain ⟨c', hc', hmore⟩ := hread { qubits := width, clbits := 0 } rfl
  refine ⟨_, c', bind_eq_ok_iff.mpr ⟨os, hwrite, rfl⟩, ?_, hmore.names⟩
  unfold decode
  rw [if_neg (not_not.mpr rfl)]
  exact bind_eq_ok_iff.mpr ⟨width, (qubits_of_ofInstruction hwrite) ▸ hwidth, hc'⟩

end Braket

namespace Circuit

/-- The names that are read back from a circuit: the words with which its parameters are written,
each once. -/
def writtenNames (c : Circuit Float) : List String :=
  (Registry.ofNames (c.params.flatMap Param.written)).names

section

variable {F : Type} [Scalar F] {c : Circuit F} {P : String → Prop} {r : Registry}

theorem Registered.map_name_freeParameters (h : c.Registered P r) :
    c.freeParameters.map Handle.name = (Registry.ofNames (c.params.flatMap Param.names)).names :=
  Circuit.map_name_freeParameters (fun _ _ ha hb => Registry.id_eq_iff h.nodup ha.1 hb.1) h.known

theorem Registered.forall_freeParameters_iff (h : c.Registered P r) {Q : String → Prop} :
    (∀ name ∈ c.freeParameters.map Handle.name, Q name) ↔
      ∀ p ∈ c.params, p.RefsAll fun x => Q x.name := by
  rw [h.map_name_freeParameters]
  simp only [Registry.ofNames, Registry.mem_registerAll, List.not_mem_nil, false_or,
    List.mem_flatMap, Param.refsAll_iff]
  exact ⟨fun hall p hp name hname => hall name ⟨p, hp, hname⟩,
    fun hall name ⟨p, hp, hname⟩ => hall p hp name hname⟩

end

end Circuit

namespace Native

/-- The free parameters come back from a framework under the same names and in the same order. -/
def KeepsNames (f : Framework) (c : Circuit Float) : Prop :=
  ∃ native back, ofLowered f c = .ok native ∧ native.toCircuit = .ok back ∧
    back.freeParameters.map Handle.name = c.freeParameters.map Handle.name

section

variable {n : Native Float} {f : Framework} {tolerance : Float} {c lowered : Circuit Float}
  (hf : f = .qiskit ∨ f = .braket) (hread : n.toCircuit = .ok c)
  (hlower : Lowering.circuit f.table {} tolerance c = .ok lowered)

include hread hlower

theorem registered_of_lowered :
    lowered.Registered (fun name => n.framework = .cirq ∨ Param.IsName name) c.registry :=
  Lowering.registered_circuit (registered_of_toCircuit hread) hlower

theorem passes_of_lowered
    (hnames : ∀ name ∈ lowered.freeParameters.map Handle.name, Param.IsName name) :
    ∀ i ∈ lowered.instructions, i.Passes lowered.qubits ∧ f.table.supports i.tag = true := by
  have hlowered := registered_of_lowered hread hlower
  have hrecorded := (asRead_of_toCircuit hread).recorded
  rw [hlowered.forall_freeParameters_iff] at hnames
  intro j hj
  have hmeasured : (j.isMeasure = true → ∃ b, j.clbits = [b]) ∧ f.table.supports j.tag = true := by
    obtain ⟨i, hi, ⟨rfl, hm, himplicit⟩ | ⟨hm, hsupports, -⟩⟩ := Lowering.exists_lands hlower j hj
    · obtain ⟨b, -, hb⟩ := (hrecorded j hi).exists_clbits hm
      rw [show j.tag = .measure from beq_iff_eq.mp hm]
      exact ⟨fun _ => ⟨b, hb⟩, f.supports_measure himplicit⟩
    · exact ⟨fun h => by simp [h] at hm, hsupports⟩
  exact ⟨⟨hlowered.wellFormed j hj, hmeasured.1, hlowered.made j hj,
    fun p hp => hnames p (List.mem_flatMap.mpr ⟨j, hj, hp⟩)⟩, hmeasured.2⟩

include hf

omit hread hlower in
theorem allows_of_textual :
    f.table.freeParameters = true ∧ f.table.supports .unitary = true := by
  rcases hf with rfl | rfl <;> decide

/-- A circuit whose parameters have names of the expression syntax is read back with the names that
are written. -/
theorem exists_names_readBack (hwidth : c.qubits < Number.indexLimit)
    (hnames : ∀ name ∈ lowered.freeParameters.map Handle.name, Param.IsName name) :
    ∃ native back, ofLowered f lowered = .ok native ∧ native.toCircuit = .ok back ∧
      back.freeParameters.map Handle.name = lowered.writtenNames := by
  have hpasses := passes_of_lowered hread hlower hnames
  have hqubits : lowered.qubits = c.qubits := by
    obtain ⟨outs, -, -, rfl⟩ := Lowering.circuit_eq_ok_iff.mp hlower
    rfl
  have hwritten : lowered.params.flatMap Param.written =
      lowered.instructions.flatMap Instruction.written := by
    rw [Circuit.params, List.flatMap_assoc]
    rfl
  rcases hf with rfl | rfl
  · obtain ⟨d, back, hencode, hdecode, hback⟩ :=
      Qiskit.exists_decode_encode fun i hi => (hpasses i hi).1
    have hto : (qiskit d).toCircuit = .ok back := TranspileError.lift_eq_ok_iff.mpr hdecode
    refine ⟨qiskit d, back, bind_eq_ok_iff.mpr ⟨d, hencode, rfl⟩, hto, ?_⟩
    rw [(registered_of_toCircuit hto).map_name_freeParameters, hback, ← hwritten]
    rfl
  · obtain ⟨p, back, hencode, hdecode, hback⟩ :=
      Braket.exists_decode_encode (fun i hi => (hpasses i hi).1) (fun i hi => (hpasses i hi).2)
        (hqubits ▸ hwidth)
    have hto : (braket p).toCircuit = .ok back := TranspileError.lift_eq_ok_iff.mpr hdecode
    refine ⟨braket p, back, bind_eq_ok_iff.mpr ⟨p, hencode, rfl⟩, hto, ?_⟩
    rw [(registered_of_toCircuit hto).map_name_freeParameters, hback, ← hwritten]
    rfl

omit hread hlower in
theorem isName_of_keepsNames (h : KeepsNames f lowered) :
    ∀ name ∈ lowered.freeParameters.map Handle.name, Param.IsName name := by
  obtain ⟨native, back, hwrite, hback, hnames⟩ := h
  have hregistered := registered_of_toCircuit hback
  have hframework : native.framework ≠ .cirq := by
    rcases hf with rfl | rfl <;>
    · obtain ⟨d, -, hd⟩ := bind_eq_ok_iff.mp hwrite
      obtain rfl := Except.ok.inj hd
      exact fun h => by cases h
  rw [← hnames, hregistered.forall_freeParameters_iff]
  intro p hp
  exact (hregistered.known p hp).mono fun x hx => hx.2.resolve_left hframework

end

/-- When the free parameters of a circuit come back from a framework that writes them as text. Any
circuit that was read can be lowered onto the gates of such a framework. If its width is an index,
its parameters come back under their names, in their order, exactly if every name is a single name
of the expression syntax and the texts contain no other names. The first holds of all circuits save
those of one framework, whose symbols are arbitrary texts, and the second where the numbers beside
parameters are finite. -/
theorem keepsNames_iff {n : Native Float} {c : Circuit Float} (hread : n.toCircuit = .ok c)
    (hwidth : c.qubits < Number.indexLimit) {f : Framework} (hf : f = .qiskit ∨ f = .braket)
    (tolerance : Float) :
    ∃ lowered, Lowering.circuit f.table {} tolerance c = .ok lowered ∧
      (KeepsNames f lowered ↔
        (∀ name ∈ lowered.freeParameters.map Handle.name, Param.IsName name) ∧
          lowered.writtenNames = lowered.freeParameters.map Handle.name) ∧
      (n.framework ≠ .cirq →
        ∀ name ∈ lowered.freeParameters.map Handle.name, Param.IsName name) ∧
      ((∀ p ∈ lowered.params, p.isSymbolic = true → p.FiniteNumbers) →
        lowered.writtenNames = lowered.freeParameters.map Handle.name) := by
  obtain ⟨hfree, hunitary⟩ := allows_of_textual hf
  have hlowers : ∃ lowered, Lowering.circuit f.table {} tolerance c = .ok lowered :=
    Lowering.exists_circuit_of_registered hfree f.supports_commonCore hunitary
      (registered_of_toCircuit hread)
  obtain ⟨lowered, hlower⟩ := hlowers
  have hregistered := registered_of_lowered hread hlower
  refine ⟨lowered, hlower, ⟨fun hkeeps => ?_, fun ⟨hnames, hwritten⟩ => ?_⟩, fun hcirq => ?_,
    fun hfinite => ?_⟩
  · have hnames := isName_of_keepsNames hf hkeeps
    refine ⟨hnames, ?_⟩
    -- writing and reading are functions, so what came back has the names that are written
    obtain ⟨native, back, hwrite, hback, heq⟩ := hkeeps
    obtain ⟨native', back', hwrite', hback', hwritten⟩ :=
      exists_names_readBack hf hread hlower hwidth hnames
    obtain rfl := Except.ok.inj (hwrite.symm.trans hwrite')
    obtain rfl := Except.ok.inj (hback.symm.trans hback')
    exact hwritten.symm.trans heq
  · obtain ⟨native, back, hwrite, hback, heq⟩ :=
      exists_names_readBack hf hread hlower hwidth hnames
    exact ⟨native, back, hwrite, hback, heq.trans hwritten⟩
  · rw [hregistered.forall_freeParameters_iff]
    exact fun p hp => (hregistered.known p hp).mono fun x hx => hx.2.resolve_left hcirq
  · rw [hregistered.map_name_freeParameters, Circuit.writtenNames]
    refine congrArg (fun names => (Registry.ofNames names).names)
      (List.flatMap_congr fun p hp => ?_)
    rw [Param.written]
    split_ifs with hs
    · exact Param.words_of_finite (hfinite p hp hs)
    · exact (Param.names_eq_nil_iff.mpr (Bool.eq_false_iff.mpr hs)).symm

/-- A document that turns the first qubit about the z axis. -/
def rotation (angle : Cirq.Expression Float) : Native Float :=
  .cirq { moments := [{ operations := [{
    gate := { type := "Rz", rads := some angle }
    qubits := [{ x := 0 }] }] }] }

theorem keepsNames_iff_scaledSum :
    ∃ c lowered,
      (rotation (.add [.mul [.number 0.5, .symbol "theta"], .symbol "phi"])).toCircuit = .ok c ∧
      c.qubits < Number.indexLimit ∧ Lowering.circuit Braket.table {} 1e-7 c = .ok lowered ∧
      lowered.freeParameters.map Handle.name = ["theta", "phi"] ∧ KeepsNames .braket lowered := by
  obtain ⟨c, hread, hwidth⟩ : ∃ c,
      (rotation (.add [.mul [.number 0.5, .symbol "theta"], .symbol "phi"])).toCircuit = .ok c ∧
        c.qubits < Number.indexLimit := ⟨_, rfl, by decide⟩
  obtain ⟨lowered, hlower, hkeeps, -⟩ := keepsNames_iff hread hwidth (.inr rfl) 1e-7
  obtain ⟨hnames, hwritten⟩ : lowered.freeParameters.map Handle.name = ["theta", "phi"] ∧
      lowered.writtenNames = ["theta", "phi"] := by
    obtain rfl := Except.ok.inj hread
    obtain rfl := Except.ok.inj hlower
    exact ⟨rfl, rfl⟩
  refine ⟨c, lowered, hread, hwidth, hlower, hnames, hkeeps.mpr ⟨?_, hwritten.trans hnames.symm⟩⟩
  rw [hnames, List.forall_mem_cons, List.forall_mem_singleton]
  exact ⟨⟨Param.Token.isIdentifier_of_word 't' ['h', 'e', 't', 'a'] rfl, rfl⟩,
    Param.Token.isIdentifier_of_word 'p' ['h', 'i'] rfl, rfl⟩

/-- A symbol may have a dash in its name, which a name of the expression syntax has not. -/
theorem not_keepsNames_dashed :
    ∃ c lowered, (rotation (.symbol "a-b")).toCircuit = .ok c ∧
      Lowering.circuit Braket.table {} 1e-7 c = .ok lowered ∧
      lowered.freeParameters.map Handle.name = ["a-b"] ∧ ¬KeepsNames .braket lowered := by
  refine ⟨_, _, rfl, rfl, rfl, fun hkeeps => ?_⟩
  have hname : Param.IsName "a-b" :=
    isName_of_keepsNames (.inr rfl) hkeeps "a-b" List.mem_cons_self
  obtain ⟨first, rest, htext, hshape⟩ := Param.Token.isIdentifier_iff.mp hname.1
  have hchars : ['a', '-', 'b'] = first :: rest := String.ofList_injective htext
  obtain ⟨rfl, rfl⟩ := List.cons.inj hchars
  have hdash : Param.Token.continuesName '-' = false :=
    Param.Token.continuesName_of_toNat_le (by decide)
  exact Bool.eq_false_iff.mp hdash (hshape.tail '-' List.mem_cons_self)

end Native

end Interchange
