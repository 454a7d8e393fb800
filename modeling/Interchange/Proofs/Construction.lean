import Mathlib.Data.List.Forall2
import Mathlib.Data.List.Nodup
import Interchange.Proofs.Outcome
import Interchange.Circuit.Basic

namespace Interchange

/-- A list of `k` different ones of `n` qubits. -/
structure QubitList (n k : ℕ) (qs : List ℕ) : Prop where
  length_eq : qs.length = k
  nodup : qs.Nodup
  lt : ∀ q ∈ qs, q < n

variable {F : Type}

namespace Instruction

/-- An instruction has as many qubits as its gate acts on, all different and in the register. -/
def WellFormed (n : ℕ) (i : Instruction F) : Prop := QubitList n i.gate.qubits i.qubits

theorem checkOperands_eq_ok_iff {g : Gate F} {qs : List ℕ} :
    checkOperands g qs = .ok () ↔ qs.length = g.qubits ∧ qs.Nodup := by
  have hr := firstRepeated?_eq_none_iff [] qs
  unfold checkOperands
  split_ifs with hl
  · simp [hl]
  · cases hf : firstRepeated? [] qs with
    | some q => simp_all
    | none => simp_all

theorem new_eq_ok_iff {g : Gate F} {qs : List ℕ} {i : Instruction F} :
    new g qs = .ok i ↔ (qs.length = g.qubits ∧ qs.Nodup) ∧ i = ⟨g, qs, []⟩ := by
  rw [new, bind_eq_ok_iff]
  constructor
  · rintro ⟨_, hc, h⟩
    exact ⟨checkOperands_eq_ok_iff.mp hc, (Except.ok.inj h).symm⟩
  · rintro ⟨hc, rfl⟩
    exact ⟨(), checkOperands_eq_ok_iff.mpr hc, rfl⟩

theorem withGate_eq_ok_iff {i j : Instruction F} {g : Gate F} :
    i.withGate g = .ok j ↔
      (i.qubits.length = g.qubits ∧ i.qubits.Nodup) ∧ j = { i with gate := g } := by
  rw [withGate, bind_eq_ok_iff]
  constructor
  · rintro ⟨_, hc, h⟩
    exact ⟨checkOperands_eq_ok_iff.mp hc, (Except.ok.inj h).symm⟩
  · rintro ⟨hc, rfl⟩
    exact ⟨(), checkOperands_eq_ok_iff.mpr hc, rfl⟩

end Instruction

namespace Circuit

def WellFormed (c : Circuit F) : Prop := ∀ i ∈ c.instructions, i.WellFormed c.qubits

theorem checkRange_eq_ok_iff {n : ℕ} {i : Instruction F} :
    checkRange n i = .ok () ↔ ∀ q ∈ i.qubits, q < n := by
  unfold checkRange
  cases hf : i.qubits.find? (n ≤ ·) with
  | some q =>
    have hq := List.find?_some hf
    have hm := List.mem_of_find?_eq_some hf
    simp only [reduceCtorEq, false_iff, not_forall]
    exact ⟨q, hm, by simpa using hq⟩
  | none =>
    simp only [true_iff]
    intro q hq
    simpa using List.find?_eq_none.mp hf q hq

def pushed (c : Circuit F) (i : Instruction F) : Circuit F :=
  { c with
    clbits := match i.clbits.find? (c.clbits ≤ ·) with
      | some bit => bit + 1
      | none => c.clbits
    instructions := c.instructions ++ [i] }

namespace Builder

/-- The qubits are checked before anything is changed. -/
theorem perform_push (i : Instruction F) (c : Circuit F) :
    (push i).perform c =
      match checkRange c.qubits i with
      | .ok _ => (.ok (), c.pushed i)
      | .error e => (.error e, c) := by
  change (((checkRange c.qubits i : Builder F Unit) >>= fun _ => _) : Builder F Unit).perform c = _
  cases checkRange c.qubits i with
  | error e => rfl
  | ok u =>
    change (Except.ok (), { c.hold i.clbits with
      instructions := (c.hold i.clbits).instructions ++ [i] }) = (Except.ok (), c.pushed i)
    unfold hold pushed
    cases i.clbits.find? (c.clbits ≤ ·) <;> rfl

theorem perform_bind_push (x : Except (CircuitError F) (Instruction F)) (c : Circuit F) :
    (do push (← x) : Builder F Unit).perform c =
      match x with
      | .ok i => (push i).perform c
      | .error e => (.error e, c) := by
  cases x <;> rfl

theorem outcome_bind_push (x : Except (CircuitError F) (Instruction F)) (c : Circuit F) :
    (do push (← x) : Builder F Unit).outcome c = x >>= c.push := by
  cases x <;> rfl

end Builder

theorem push_eq_ok_iff {c c' : Circuit F} {i : Instruction F} :
    c.push i = .ok c' ↔ (∀ q ∈ i.qubits, q < c.qubits) ∧ c' = c.pushed i := by
  rw [push, InPlace.outcome, Builder.perform_push, ← checkRange_eq_ok_iff]
  cases checkRange c.qubits i with
  | error e => simp
  | ok u => simp [eq_comm]

theorem pushGate_eq_ok_iff {c c' : Circuit F} {g : Gate F} {qs : List ℕ} :
    c.pushGate g qs = .ok c' ↔ ∃ i, Instruction.new g qs = .ok i ∧ c.push i = .ok c' := by
  rw [pushGate, Builder.gate, Builder.outcome_bind_push, bind_eq_ok_iff]

theorem pushed_of_lt {c : Circuit F} {i : Instruction F} (hb : ∀ b ∈ i.clbits, b < c.clbits) :
    c.pushed i = { c with instructions := c.instructions ++ [i] } := by
  have hnone : i.clbits.find? (c.clbits ≤ ·) = none :=
    List.find?_eq_none.mpr fun b hmem => by simpa using hb b hmem
  rw [pushed, hnone]

theorem push_of_lt {c : Circuit F} {i : Instruction F} (hq : ∀ q ∈ i.qubits, q < c.qubits)
    (hb : ∀ b ∈ i.clbits, b < c.clbits) :
    c.push i = .ok { c with instructions := c.instructions ++ [i] } :=
  push_eq_ok_iff.mpr ⟨hq, (pushed_of_lt hb).symm⟩

theorem pushGate_of_qubitList {c : Circuit F} {g : Gate F} {qs : List ℕ}
    (h : QubitList c.qubits g.qubits qs) :
    c.pushGate g qs = .ok { c with instructions := c.instructions ++ [⟨g, qs, []⟩] } :=
  pushGate_eq_ok_iff.mpr ⟨_, Instruction.new_eq_ok_iff.mpr ⟨⟨h.length_eq, h.nodup⟩, rfl⟩,
    push_of_lt h.lt fun _ hb => absurd hb List.not_mem_nil⟩

theorem withShape_eq_ok_iff {c c' : Circuit F} {n : ℕ} {is : List (Instruction F)} :
    c.withShape n is = .ok c' ↔
      (∀ i ∈ is, ∀ q ∈ i.qubits, q < n) ∧ c' = { c with qubits := n, instructions := is } := by
  rw [withShape, bind_eq_ok_iff]
  simp only [← checkRange_eq_ok_iff]
  constructor
  · rintro ⟨_, hf, h⟩
    exact ⟨forM_eq_ok_iff.mp hf, (Except.ok.inj h).symm⟩
  · rintro ⟨hr, rfl⟩
    exact ⟨(), forM_eq_ok_iff.mpr hr, rfl⟩

theorem withInstructions_eq_ok_iff {c c' : Circuit F} {is : List (Instruction F)} :
    c.withInstructions is = .ok c' ↔
      (∀ i ∈ is, ∀ q ∈ i.qubits, q < c.qubits) ∧ c' = { c with instructions := is } :=
  withShape_eq_ok_iff

end Circuit

variable [Scalar F]

namespace Gate

/-- A gate of a tag has as many parameters as the tag takes, simplified and each symbolic or finite,
and the matrix of the tag once all have values. -/
theorem new_eq_ok_iff {tag : Tag} {params : List (Param F)} {g : Gate F} :
    new tag params = .ok g ↔
      tag ≠ .unitary ∧ params.length = tag.paramCount ∧
        (∀ p ∈ params.map Param.simplify, p.isAdmissible = true) ∧
        g = ⟨tag, params.map Param.simplify,
          (values? (params.map Param.simplify)).bind tag.matrix?⟩ := by
  unfold new
  split_ifs with hu hc
  · simp [hu]
  · simp [hc]
  · dsimp only
    cases hf : (params.map Param.simplify).find? (!·.isAdmissible) with
    | some e =>
      have he := List.find?_some hf
      have hm := List.mem_of_find?_eq_some hf
      constructor
      · intro h
        cases h
      · rintro ⟨-, -, ha, -⟩
        simp [ha e hm] at he
    | none =>
      have ha : ∀ p ∈ params.map Param.simplify, p.isAdmissible = true := by
        intro p hp
        simpa using List.find?_eq_none.mp hf p hp
      constructor
      · intro h
        exact ⟨hu, not_not.mp hc, ha, (Except.ok.inj h).symm⟩
      · rintro ⟨-, -, -, rfl⟩
        rfl

omit [Scalar F] in
theorem qubits_of_tag {g : Gate F} (h : g.tag ≠ .unitary) :
    g.qubits = g.tag.qubits?.getD 0 := by
  obtain ⟨tag, params, matrix⟩ := g
  cases tag with
  | unitary => exact absurd rfl h
  | _ => rfl

theorem tag_of_new {tag : Tag} {params : List (Param F)} {g : Gate F}
    (h : new tag params = .ok g) : g.tag = tag := by
  obtain ⟨-, -, -, rfl⟩ := new_eq_ok_iff.mp h
  rfl

end Gate

namespace Param

theorem isSymbolic_eq_false_of_value? {p : Param F} {v : F} (h : p.value? = some v) :
    p.isSymbolic = false := by
  induction p generalizing v with
  | const | pi => rfl
  | ref => cases h
  | neg e ih =>
    obtain ⟨u, hu, -⟩ := Option.map_eq_some_iff.mp h
    exact ih hu
  | add a b iha ihb | sub a b iha ihb | mul a b iha ihb =>
    obtain ⟨u, hu, h⟩ := Option.bind_eq_some_iff.mp h
    obtain ⟨w, hw, -⟩ := Option.bind_eq_some_iff.mp h
    simp [isSymbolic, iha hu, ihb hw]
  | div a b iha ihb =>
    obtain ⟨w, hw, h⟩ := Option.bind_eq_some_iff.mp h
    split_ifs at h
    obtain ⟨u, hu, -⟩ := Option.bind_eq_some_iff.mp h
    simp [isSymbolic, iha hu, ihb hw]

end Param

namespace Gate

theorem isParameterized_of_numeric {g : Gate F} {values : List F} (h : g.numeric? = some values) :
    g.isParameterized = false := by
  rw [isParameterized, List.any_eq_false]
  intro p hp
  obtain ⟨v, -, hv⟩ := exists_of_forall₂_left (mapM_eq_some_iff.mp h) hp
  simp [Param.isSymbolic_eq_false_of_value? hv]

/-- A gate built from a tag has a matrix only when no parameter is free. -/
theorem isParameterized_of_new {tag : Tag} {params : List (Param F)} {g : Gate F}
    {m : Operator F} (h : new tag params = .ok g) (hm : g.matrix = some m) :
    g.isParameterized = false := by
  obtain ⟨-, -, -, rfl⟩ := new_eq_ok_iff.mp h
  obtain ⟨values, hv, -⟩ := Option.bind_eq_some_iff.mp hm
  exact isParameterized_of_numeric hv

theorem substitute_of_not_parameterized {g : Gate F} (h : g.isParameterized = false)
    (b : Bindings F) : g.substitute b = .ok g := by
  rw [substitute, if_neg (by simp [h])]

theorem tag_of_substitute {b : Bindings F} {g g' : Gate F} (h : g.substitute b = .ok g') :
    g'.tag = g.tag := by
  rw [substitute] at h
  split_ifs at h
  · exact tag_of_new h
  · exact congrArg tag (Except.ok.inj h).symm

end Gate

def Instruction.fixed (tag : Tag) (qubits : List ℕ) : Instruction F :=
  ⟨⟨tag, [], tag.matrix? []⟩, qubits, []⟩

namespace Circuit

theorem apply_eq_ok_iff {c c' : Circuit F} {tag : Tag} {params : List (Param F)} {qs : List ℕ} :
    c.apply tag params qs = .ok c' ↔
      ∃ g, Gate.new tag params = .ok g ∧ c.pushGate g qs = .ok c' := by
  rw [apply, Builder.apply, Builder.outcome_bind_push, bind_eq_ok_iff]
  simp only [Instruction.apply, bind_eq_ok_iff, pushGate_eq_ok_iff]
  constructor
  · rintro ⟨i, ⟨g, hg, hi⟩, hc⟩
    exact ⟨g, hg, i, hi, hc⟩
  · rintro ⟨g, hg, i, hi, hc⟩
    exact ⟨i, ⟨g, hg, hi⟩, hc⟩

theorem apply_of_new {c : Circuit F} {tag : Tag} {params : List (Param F)} {g : Gate F}
    (hg : Gate.new tag params = .ok g) {qs : List ℕ} (h : QubitList c.qubits g.qubits qs) :
    c.apply tag params qs = .ok { c with instructions := c.instructions ++ [⟨g, qs, []⟩] } :=
  apply_eq_ok_iff.mpr ⟨g, hg, pushGate_of_qubitList h⟩

theorem wellFormed_of_bind {c c' : Circuit F} {b : Bindings F} (h : c.bind b = .ok c') :
    c'.WellFormed := by
  obtain ⟨is, his, h⟩ := bind_eq_ok_iff.mp h
  obtain ⟨hrange, rfl⟩ := withInstructions_eq_ok_iff.mp h
  intro j hj
  obtain ⟨i, -, hij⟩ := exists_of_forall₂_right (mapM_eq_ok_iff.mp his) hj
  obtain ⟨g, -, hij⟩ := bind_eq_ok_iff.mp hij
  obtain ⟨hoperands, rfl⟩ := Instruction.withGate_eq_ok_iff.mp hij
  exact ⟨hoperands.1, hoperands.2, hrange _ hj⟩

end Circuit

end Interchange
