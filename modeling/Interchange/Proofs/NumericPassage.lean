import Interchange.Proofs.DecodedCircuit
import Interchange.Proofs.StandardGate

namespace Interchange

variable {F : Type} [Scalar F]

/-- A measurement of one qubit into a bit, or a gate of a tag with numbers that writes no bit. -/
structure Instruction.Numeric (qubits clbits : ℕ) (i : Instruction F) : Prop where
  wellFormed : i.WellFormed qubits
  standard : i.gate.IsStandard
  recorded : i.Recorded clbits

namespace Instruction.Numeric

variable {qubits clbits : ℕ} {i : Instruction F}

theorem exists_measure (h : i.Numeric qubits clbits) (hm : i.isMeasure = true) :
    ∃ q, i.qubits = [q] ∧ (∃ b < clbits, i.clbits = [b]) ∧ ∀ b, i.Alike (.measure q b) := by
  have htag : i.gate.tag = .measure := beq_iff_eq.mp hm
  have hbit := h.recorded.exists_clbits hm
  obtain ⟨q, hq⟩ : ∃ q, i.qubits = [q] := by
    rw [← List.length_eq_one_iff, h.wellFormed.length_eq, Gate.qubits, htag]
    rfl
  have hvalues : i.gate.HasValues [] :=
    .of_no_params h.standard (congrArg Tag.paramCount htag)
  exact ⟨q, hq, hbit, fun b => .of_values hvalues Gate.hasValues_measure htag.symm hq.symm⟩

end Instruction.Numeric

/-- Where every instruction is read back from what it is written as, so is a list of them. -/
theorem Circuit.foldlM_alike {σ α ε ε' : Type} (circuit : σ → Circuit F) {I : σ → Prop}
    {write : Instruction F → Except ε α} {read : σ → α → Except ε' σ} {is : List (Instruction F)}
    (hread : ∀ i ∈ is, ∀ x, write i = .ok x → ∀ s s', I s → read s x = .ok s' →
      I s' ∧ ∃ j, i.Alike j ∧ (circuit s).Grows [j] (circuit s'))
    {xs : List α} (hxs : is.mapM write = .ok xs) {s s' : σ} (hs : I s)
    (h : xs.foldlM read s = .ok s') :
    ∃ js, List.Forall₂ Instruction.Alike is js ∧ (circuit s).Grows js (circuit s') := by
  rw [mapM_eq_ok_iff] at hxs
  induction hxs generalizing s with
  | nil =>
    obtain rfl := Except.ok.inj h
    exact ⟨[], .nil, .refl _⟩
  | cons hx _ ih =>
    obtain ⟨s₁, hs₁, h⟩ := bind_eq_ok_iff.mp h
    obtain ⟨hfirst, hrest⟩ := List.forall_mem_cons.mp hread
    obtain ⟨hinv, j, hj, hgrows⟩ := hfirst _ hx s s₁ hs hs₁
    obtain ⟨js, hjs, hrest⟩ := ih hrest hinv h
    exact ⟨j :: js, .cons hj hjs, hgrows.trans hrest⟩

theorem Instruction.alike_of_new {i : Instruction F} {tag : Tag} {params : List (Param F)}
    {values : List F} {g : Gate F} (hg : Gate.new tag params = .ok g)
    (hv : Gate.values? params = some values) (hmatrix : i.gate.matrix = tag.matrix? values)
    (hmeasure : i.isMeasure = (tag == .measure)) : i.Alike ⟨g, i.qubits, []⟩ := by
  have htag := Gate.tag_of_new hg
  have hstandard : g.HasValues values := .of_new hg hv
  refine ⟨rfl, ?_, ?_, values, hstandard⟩
  · rw [hmeasure, isMeasure, Instruction.tag, htag]
  · rw [hmatrix, hstandard.matrix, htag]

theorem Gate.values?_const (values : List F) :
    Gate.values? (values.map .const) = some values := by
  rw [Gate.values?, mapM_eq_some_iff, List.forall₂_map_left_iff, List.forall₂_same]
  exact fun _ _ => rfl

/-- A gate that is built again from its numbers does the same. -/
theorem Instruction.alike_of_values {i : Instruction F} {values : List F}
    (hi : i.gate.HasValues values) {g : Gate F}
    (hg : Gate.new i.tag (values.map .const) = .ok g) : i.Alike ⟨g, i.qubits, []⟩ :=
  alike_of_new hg (Gate.values?_const values) hi.matrix rfl

theorem Angle.map_ofParam_of_values [Numeral F] {params : List (Param F)} {values : List F}
    (h : Gate.values? params = some values) : params.map ofParam = values.map .value := by
  rw [← List.forall₂_eq_eq_eq, List.forall₂_map_left_iff, List.forall₂_map_right_iff]
  refine (mapM_eq_some_iff.mp h).imp fun p v hv => ?_
  rw [ofParam, hv]

theorem Angle.readAll_values (c : Circuit F) (values : List F) :
    readAll c (values.map .value) = .ok (c, values.map .const) := by
  induction values with
  | nil => rfl
  | cons v values ih =>
    change (readAll c (values.map .value) >>= _) = _
    rw [ih]
    rfl

omit [Scalar F] in
theorem GateTable.exists_require {t : GateTable} {tag : Tag} (h : t.supports tag = true) :
    ∃ name, t.require (F := F) tag = .ok name := by
  obtain ⟨name, hname⟩ := Option.isSome_iff_exists.mp h
  exact ⟨name, by rw [require, hname]⟩

omit [Scalar F] in
theorem GateTable.mem_entries_of_require {t : GateTable} {tag : Tag} {name : String}
    (h : t.require (F := F) tag = .ok name) : (tag, name) ∈ t.entries := by
  unfold require at h
  split at h
  next native hnative =>
    cases h
    obtain ⟨_, _, hentries, -⟩ := List.lookup_eq_some_iff.mp hnative
    simp [hentries]
  next => cases h

variable {i : Instruction F} {c c' : Circuit F} {qubits clbits : ℕ}

namespace Qiskit

/-- Every tag is written under its own name, by which it is found again. -/
theorem table_spec (tag : Tag) : table.native? tag = some tag.name ∧
    directives.contains tag.name = false ∧ (tag.name = Tag.measure.name → tag = .measure) ∧
    table.tag? tag.name = some tag := by
  cases tag <;> decide +kernel

theorem Operation.new_of_readGate {o : Operation F} {tag : Tag} {values : List F} {c₁ : Circuit F}
    {g : Gate F} (htag : table.tag? o.name = some tag) (hu : tag ≠ .unitary)
    (hparams : o.params = values.map .value) (hmatrix : o.matrix = none)
    (h : o.readGate c = .ok (c₁, g)) :
    c₁ = c ∧ Gate.new tag (values.map .const) = .ok g := by
  have hfilter : (some tag).filter (· != .unitary) = some tag := by simp [hu]
  unfold readGate readMatrix? at h
  rw [hmatrix, htag, hfilter] at h
  obtain ⟨given, hgiven, h⟩ := bind_eq_ok_iff.mp h
  obtain rfl : none = given := Except.ok.inj hgiven
  obtain ⟨⟨c₂, params⟩, hread, h⟩ := bind_eq_ok_iff.mp h
  rw [hparams, Angle.readAll_values] at hread
  cases hread
  obtain ⟨g', hg', h⟩ := bind_eq_ok_iff.mp h
  rw [ConvertError.lift_eq_ok_iff] at hg'
  cases h
  exact ⟨rfl, hg'⟩

variable [Numeral F]

theorem Operation.fields_of_ofInstruction {values : List F} (hi : i.gate.HasValues values)
    {o : Operation F} (ho : Operation.ofInstruction i = .ok o) :
    o = ⟨i.tag.name, i.qubits, i.clbits, values.map .value, none⟩ := by
  obtain ⟨name, hname, ho⟩ := bind_eq_ok_iff.mp ho
  obtain ⟨tag, -, htag⟩ := List.mem_map.mp (GateTable.mem_entries_of_require hname)
  obtain ⟨rfl, rfl⟩ := Prod.mk.inj htag
  rw [← Except.ok.inj ho, Angle.map_ofParam_of_values hi.params,
    if_neg (show i.tag ≠ .unitary from hi.tag_ne)]

theorem Operation.grows_of_ofInstruction (hi : i.Numeric qubits clbits) {o : Operation F}
    (ho : Operation.ofInstruction i = .ok o) (h : o.read c = .ok c') :
    ∃ j, i.Alike j ∧ c.Grows [j] c' := by
  obtain ⟨values, hvalues⟩ := hi.standard
  obtain rfl := fields_of_ofInstruction hvalues ho
  obtain ⟨-, hdirective, hname, htag⟩ := table_spec i.tag
  unfold read at h
  dsimp only at h
  rw [hdirective, if_neg Bool.false_ne_true] at h
  cases hm : i.isMeasure with
  | true =>
    obtain ⟨q, hq, ⟨b, -, hb⟩, halike⟩ := hi.exists_measure hm
    rw [if_pos (congrArg Tag.name (beq_iff_eq.mp hm)), readMeasure, hq, hb] at h
    obtain ⟨c₁, hmeasure, h⟩ := bind_eq_ok_iff.mp h
    obtain rfl := Except.ok.inj h
    rw [ConvertError.lift_eq_ok_iff] at hmeasure
    exact ⟨_, halike b, Circuit.grows_of_measure hmeasure⟩
  | false =>
    have hne : i.tag ≠ .measure := by simpa [Instruction.isMeasure] using hm
    rw [if_neg fun heq => hne (hname heq)] at h
    obtain ⟨⟨c₁, g⟩, hgate, hpush⟩ := bind_eq_ok_iff.mp h
    rw [ConvertError.lift_eq_ok_iff] at hpush
    obtain ⟨rfl, hnew⟩ := new_of_readGate htag hvalues.tag_ne rfl rfl hgate
    refine ⟨_, Instruction.alike_of_values hvalues hnew, Circuit.grows_of_pushGate hpush ?_⟩
    rwa [Gate.tag_of_new hnew]

end Qiskit

theorem toList_head? {α : Type} {xs : List α} (h : xs.length ≤ 1) : xs.head?.toList = xs := by
  rcases xs with _ | ⟨x, _ | ⟨y, ys⟩⟩
  · rfl
  · rfl
  · simp at h

namespace Braket

theorem Operation.new_of_readGate {o : Operation F} {tag : Tag} {values : List F} {c₁ : Circuit F}
    {g : Gate F} (htag : table.tag? o.type = some tag) (hu : tag ≠ .unitary)
    (hangle : o.angle.toList = values.map .value) (h : o.readGate c = .ok (c₁, g)) :
    Gate.new tag (values.map .const) = .ok g := by
  unfold readGate at h
  rw [htag] at h
  split at h
  next heq => cases heq
  next heq => exact absurd (Option.some.inj heq) hu
  next tag' _ heq =>
    obtain rfl := Option.some.inj heq
    obtain ⟨⟨c₂, params⟩, hread, h⟩ := bind_eq_ok_iff.mp h
    rw [hangle, Angle.readAll_values] at hread
    cases hread
    obtain ⟨g', hg', h⟩ := bind_eq_ok_iff.mp h
    rw [ConvertError.lift_eq_ok_iff] at hg'
    cases h
    exact hg'

variable [Numeral F]

theorem Operation.grows_of_ofInstruction (hi : i.Numeric qubits clbits) {o : Operation F}
    (ho : Operation.ofInstruction i = .ok o) (h : o.read c = .ok c') :
    ∃ j, i.Alike j ∧ c.Grows [j] c' := by
  have hall : ∀ e ∈ table.entries, table.tag? e.2 = some e.1 ∧ e.1.paramCount ≤ 1 := by
    decide +kernel
  obtain ⟨values, hvalues⟩ := hi.standard
  obtain ⟨name, hname, ho⟩ := bind_eq_ok_iff.mp ho
  obtain ⟨htag, hcount⟩ := hall _ (GateTable.mem_entries_of_require hname)
  obtain rfl := Except.ok.inj ho
  obtain ⟨c₁, g, hgate, hgrows⟩ := exists_gate_of_read h
  rw [Operands.qubits_ofQubits] at hgrows
  refine ⟨_, Instruction.alike_of_values hvalues
    (new_of_readGate htag hvalues.tag_ne ?_ hgate), hgrows⟩
  have hlength : i.gate.params.length ≤ 1 := hvalues.length_params ▸ hcount
  rw [← Angle.map_ofParam_of_values hvalues.params, ← List.head?_map,
    toList_head? (by simpa using hlength)]

end Braket

namespace IonQ

theorem controlQubits_ofQubits (controls : ℕ) (qs : List ℕ) :
    (Operands.ofQubits controls qs).controlQubits = qs.take controls := by
  have h (cs ts : List ℕ) : ((Operands.withControls {} cs).withTargets ts).controlQubits = cs := by
    rcases cs with _ | ⟨c, _ | ⟨d, cs⟩⟩ <;> rcases ts with _ | ⟨t, _ | ⟨u, ts⟩⟩ <;>
      simp [Operands.withTargets, Operands.withControls, Operands.controlQubits]
  exact h _ _

omit [Scalar F] in
/-- The name and the number of controls that a gate of the table is written with tell its tag. -/
theorem Operation.tag_of_written {tag : Tag} {native : String} (h : (tag, native) ∈ table.entries)
    {controls : ℕ} (hcontrols : controls = if tag.controls = 1 then 1 else 0) {qs : List ℕ}
    (hqs : qs.length = tag.qubits?.getD 0) (rotation : Option F) :
    Operation.tag ⟨writtenName native controls, .ofQubits controls qs, rotation⟩ = .ok tag := by
  have hall : ∀ e ∈ table.entries,
      let name := writtenName e.2 (if e.1.controls = 1 then 1 else 0)
      let base := if name = "not" ∨ name = "cnot" then "x" else name
      (if e.1.controls = 1 then
        1 ≤ e.1.qubits?.getD 0 ∧
          (if base = "x" then some .cx else table.tag? ("c" ++ base)) = some e.1
      else name ≠ "cnot" ∧ table.tag? base = some e.1) := by
    decide +kernel
  have hentry := hall _ h
  dsimp only at hentry
  rw [← hcontrols] at hentry
  unfold Operation.tag
  dsimp only
  rw [controlQubits_ofQubits, List.length_take, hqs]
  by_cases hc : tag.controls = 1
  · rw [if_pos hc] at hcontrols hentry
    rw [hcontrols] at hentry ⊢
    rw [Nat.min_eq_left hentry.1]
    simp only [hentry.2]
  · rw [if_neg hc] at hcontrols hentry
    rw [hcontrols] at hentry ⊢
    rw [Nat.zero_min]
    simp only [hentry.2, if_neg hentry.1]

theorem mapM_rotationOf {params : List (Param F)} {values : List F}
    (h : Gate.values? params = some values) :
    params.head?.mapM rotationOf = .ok values.head? := by
  rw [Gate.values?, mapM_eq_some_iff] at h
  cases h with
  | nil => rfl
  | cons hv _ =>
    rw [List.head?_cons, List.head?_cons, Option.mapM_some, rotationOf, hv]
    rfl

omit [Scalar F] in
theorem Operation.params_of_rotation {o : Operation F} {tag : Tag} {values : List F}
    (hlength : values.length = tag.paramCount) (hcount : tag.paramCount ≤ 1)
    (ho : o.rotation = values.head?) : o.params tag = .ok (values.map .const) := by
  unfold Operation.params
  rw [ho, ← hlength]
  rcases values with _ | ⟨v, _ | ⟨w, values⟩⟩
  · rfl
  · rfl
  · simp only [List.length_cons] at hlength
    omega

theorem Operation.grows_of_ofInstruction (hi : i.Numeric qubits clbits) {o : Operation F}
    (ho : Operation.ofInstruction i = .ok o) (h : o.read c = .ok c') :
    ∃ j, i.Alike j ∧ c.Grows [j] c' := by
  have hall : ∀ e ∈ table.entries, e.1.paramCount ≤ 1 := by decide
  obtain ⟨values, hvalues⟩ := hi.standard
  obtain ⟨native, hnative, ho⟩ := bind_eq_ok_iff.mp ho
  obtain ⟨rotation, hrotation, ho⟩ := bind_eq_ok_iff.mp ho
  have hentry := GateTable.mem_entries_of_require hnative
  have hqubits : i.qubits.length = i.tag.qubits?.getD 0 := by
    rw [hi.wellFormed.length_eq, Gate.qubits_of_tag hvalues.tag_ne]
    rfl
  obtain rfl := Except.ok.inj ho
  obtain ⟨tag, params, g, htag, hparams, hnew, hgrows⟩ := exists_gate_of_read h
  obtain rfl := Except.ok.inj (htag.symm.trans (tag_of_written hentry rfl hqubits rotation))
  have hvalue := Except.ok.inj (hrotation.symm.trans (mapM_rotationOf hvalues.params))
  obtain rfl := Except.ok.inj
    (hparams.symm.trans (params_of_rotation hvalues.length_eq (hall _ hentry) hvalue))
  rw [Operands.qubits_ofQubits] at hgrows
  exact ⟨_, Instruction.alike_of_values hvalues hnew, hgrows⟩

end IonQ

end Interchange
