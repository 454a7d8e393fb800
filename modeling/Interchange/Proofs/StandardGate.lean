import Interchange.Proofs.NumericGate

namespace Interchange

variable {F : Type} [Scalar F]

namespace Tag

variable {tag : Tag} {values : List F} {m : Operator F} {n : ℕ}

/-- The gate under the controls: it has no controls itself, takes the same parameters and acts on
the qubits that are not controls. -/
structure IsBase (tag base : Tag) : Prop where
  ne_unitary : base ≠ .unitary
  ne_measure : base ≠ .measure
  base?_eq : base.base? = none
  paramCount_eq : base.paramCount = tag.paramCount
  qubits?_eq : ∃ k, base.qubits? = some k ∧ tag.qubits? = some (tag.controls + k)

theorem isBase_of_base? {base : Tag} (h : tag.base? = some base) : tag.IsBase base := by
  cases tag <;> cases h <;> exact ⟨by decide, by decide, rfl, rfl, _, rfl, rfl⟩

theorem exists_qubits? (h : tag ≠ unitary) : ∃ k, tag.qubits? = some k := by
  cases tag with
  | unitary => exact absurd rfl h
  | _ => exact ⟨_, rfl⟩

theorem base?_isSome_iff : tag.base?.isSome = true ↔ 0 < tag.controls := by
  cases tag <;> decide

theorem dim_of_plainMatrix? (h : tag.plainMatrix? values = some m) (hn : tag.qubits? = some n) :
    m.dim = 2 ^ n := by
  unfold plainMatrix? at h
  split at h <;> cases h <;> cases hn <;> rfl

theorem matrix?_of_base (hl : values.length = tag.paramCount) {base : Tag}
    (hb : tag.base? = some base) :
    tag.matrix? values = (base.matrix? values).map (·.controlled tag.controls) := by
  have hbase := isBase_of_base? hb
  rw [matrix?, if_pos hl, hb, matrix?, if_pos (hl.trans hbase.paramCount_eq.symm), hbase.base?_eq]

theorem matrix?_of_plain (hl : values.length = tag.paramCount) (hb : tag.base? = none) :
    tag.matrix? values = tag.plainMatrix? values := by
  rw [matrix?, if_pos hl, hb]

theorem length_of_matrix? (h : tag.matrix? values = some m) : values.length = tag.paramCount := by
  by_contra hl
  rw [matrix?, if_neg hl] at h
  cases h

/-- A matrix has as many rows as the qubits of its tag have states. -/
theorem dim_of_matrix? (h : tag.matrix? values = some m) (hn : tag.qubits? = some n) :
    m.dim = 2 ^ n := by
  have hl := length_of_matrix? h
  cases hb : tag.base? with
  | none =>
    rw [matrix?_of_plain hl hb] at h
    exact dim_of_plainMatrix? h hn
  | some base =>
    have hbase := isBase_of_base? hb
    obtain ⟨k, hk, hqubits⟩ := hbase.qubits?_eq
    rw [matrix?_of_base hl hb, matrix?_of_plain (hl.trans hbase.paramCount_eq.symm) hbase.base?_eq]
      at h
    obtain ⟨m, hm, rfl⟩ := Option.map_eq_some_iff.mp h
    obtain rfl := Option.some.inj (hqubits.symm.trans hn)
    change m.dim * 2 ^ tag.controls = _
    rw [dim_of_plainMatrix? hm hk, ← Nat.pow_add, Nat.add_comm]

theorem matrix?_measure (values : List F) : measure.matrix? values = none := by
  cases values <;> rfl

theorem exists_matrix (hu : tag ≠ unitary) (hm : tag ≠ measure)
    (hl : values.length = tag.paramCount) : ∃ m, tag.matrix? values = some m := by
  cases tag with
  | unitary => exact absurd rfl hu
  | measure => exact absurd rfl hm
  | phase | rx | ry | rz | cphase | crx | cry | crz | rxx | ryy | rzz =>
    obtain ⟨t, rfl⟩ := List.length_eq_one_iff.mp hl
    exact ⟨_, rfl⟩
  | u =>
    obtain ⟨θ, φ, l, rfl⟩ := List.length_eq_three.mp hl
    exact ⟨_, rfl⟩
  | _ =>
    obtain rfl := List.length_eq_zero_iff.mp hl
    exact ⟨_, rfl⟩

end Tag

namespace Gate

/-- A gate of a tag with these numbers for its parameters, each simplified, and the matrix of the
tag for them. -/
structure HasValues (g : Gate F) (values : List F) : Prop where
  tag_ne : g.tag ≠ .unitary
  length_eq : values.length = g.tag.paramCount
  params : values? g.params = some values
  simple : ∀ p ∈ g.params, (∃ v, p = .const v) ∨ p = .pi
  finite : ∀ v ∈ values, Scalar.isFinite v = true
  matrix : g.matrix = g.tag.matrix? values

/-- A gate of a tag with numbers for its parameters. The measurement is one of them. -/
def IsStandard (g : Gate F) : Prop := ∃ values, g.HasValues values

theorem hasValues_measure : (measure : Gate F).HasValues [] :=
  ⟨show Tag.measure ≠ .unitary by decide, rfl, rfl, by simp [measure], by simp, rfl⟩

theorem isStandard_of_tag {tag : Tag} (htag : tag ≠ .unitary) (hcount : tag.paramCount = 0) :
    (⟨tag, [], tag.matrix? []⟩ : Gate F).IsStandard :=
  ⟨[], htag, hcount.symm, rfl, by simp, by simp, rfl⟩

theorem HasValues.length_params {g : Gate F} {values : List F} (h : g.HasValues values) :
    g.params.length = g.tag.paramCount := by
  rw [← h.length_eq]
  exact (mapM_eq_some_iff.mp h.params).length_eq

theorem HasValues.of_no_params {g : Gate F} (h : g.IsStandard) (hcount : g.tag.paramCount = 0) :
    g.HasValues [] := by
  obtain ⟨values, hvalues⟩ := h
  rwa [List.length_eq_zero_iff.mp (hvalues.length_eq.trans hcount)] at hvalues

theorem HasValues.exists_value {g : Gate F} {values : List F} (h : g.HasValues values) {p : Param F}
    (hp : p ∈ g.params) : ∃ v ∈ values, p.value? = some v :=
  exists_of_forall₂_left (mapM_eq_some_iff.mp h.params) hp

theorem HasValues.not_parameterized {g : Gate F} {values : List F} (h : g.HasValues values) :
    g.isParameterized = false := isParameterized_of_numeric h.params

theorem HasValues.of_new {tag : Tag} {params : List (Param F)} {g : Gate F} {values : List F}
    (h : new tag params = .ok g) (hv : values? params = some values) : g.HasValues values := by
  have hsimple := values?_simplify hv
  obtain ⟨hu, hl, hadmissible, rfl⟩ := new_eq_ok_iff.mp h
  refine ⟨hu, ?_, hsimple, ?_, ?_, ?_⟩
  · rw [← hl]
    exact (mapM_eq_some_iff.mp hv).length_eq.symm
  · intro p hp
    obtain ⟨p, hmem, rfl⟩ := List.mem_map.mp hp
    obtain ⟨v, -, hpv⟩ := exists_of_forall₂_left (mapM_eq_some_iff.mp hv) hmem
    exact (Param.simplify_of_value? hpv).imp_left fun heq => ⟨v, heq⟩
  · intro v hmem
    obtain ⟨p, hp, hpv⟩ := exists_of_forall₂_right (mapM_eq_some_iff.mp hsimple) hmem
    have hp := hadmissible p hp
    rwa [Param.isAdmissible, Param.isSymbolic_eq_false_of_value? hpv, hpv] at hp
  · dsimp only
    rw [hsimple]
    rfl

/-- Parameters with finite values make a gate with these values. -/
theorem exists_new_of_values {tag : Tag} {params : List (Param F)} {values : List F}
    (hu : tag ≠ .unitary) (hl : params.length = tag.paramCount)
    (hv : values? params = some values) (hf : ∀ v ∈ values, Scalar.isFinite v = true) :
    ∃ g, new tag params = .ok g ∧ g.tag = tag ∧ g.HasValues values := by
  have hnew : new tag params = .ok ⟨tag, params.map Param.simplify,
      (values? (params.map Param.simplify)).bind tag.matrix?⟩ := by
    refine new_eq_ok_iff.mpr ⟨hu, hl, ?_, rfl⟩
    intro p hp
    obtain ⟨v, hmem, hpv⟩ := exists_of_forall₂_left (mapM_eq_some_iff.mp (values?_simplify hv)) hp
    rw [Param.isAdmissible, hpv, Option.any_some, hf v hmem, Bool.or_true]
  exact ⟨_, hnew, rfl, .of_new hnew hv⟩

theorem HasValues.matrix_eq {g g' : Gate F} {values : List F} (h : g.HasValues values)
    (h' : g'.HasValues values) (htag : g'.tag = g.tag) : g'.matrix = g.matrix := by
  rw [h.matrix, h'.matrix, htag]

theorem exists_matrix_of_new {tag : Tag} {params : List (Param F)} {g : Gate F}
    (h : new tag params = .ok g) (hm : tag ≠ .measure) (hn : g.isParameterized = false) :
    ∃ m, g.matrix = some m := by
  obtain ⟨values, hvalues, hlength, -⟩ := (isBuilt_of_new h).exists_numeric hn
  obtain ⟨hu, -, -, rfl⟩ := new_eq_ok_iff.mp h
  obtain ⟨m, hm⟩ := Tag.exists_matrix hu hm hlength
  exact ⟨m, Option.bind_eq_some_iff.mpr ⟨values, hvalues, hm⟩⟩

end Gate

namespace Instruction

/-- Both measure, or have the same matrix, on the same qubits; the second has numbers only. -/
structure Alike (i j : Instruction F) : Prop where
  qubits : j.qubits = i.qubits
  isMeasure : j.isMeasure = i.isMeasure
  matrix : j.gate.matrix = i.gate.matrix
  standard : j.gate.IsStandard

theorem Alike.of_values {i j : Instruction F} {values : List F} (hi : i.gate.HasValues values)
    (hj : j.gate.HasValues values) (htag : j.tag = i.tag) (hqubits : j.qubits = i.qubits) :
    Alike i j :=
  ⟨hqubits, by rw [Instruction.isMeasure, htag, Instruction.isMeasure], hi.matrix_eq hj htag,
    values, hj⟩

end Instruction

end Interchange
