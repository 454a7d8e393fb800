import Mathlib.Order.Bounds.Basic
import Interchange.Proofs.LayoutMarker

namespace Interchange

variable {F : Type}

namespace Instruction

inductive Made : Instruction F → Prop
  | new {g : Gate F} {qs : List ℕ} {i : Instruction F} (h : new g qs = .ok i) : Made i
  | measure (q b : ℕ) : Made (.measure q b)
  | remap {i j : Instruction F} {f : ℕ → ℕ} (hi : Made i) (h : i.remap f = .ok j) : Made j
  | withGate {i j : Instruction F} {g : Gate F} (hi : Made i) (h : i.withGate g = .ok j) : Made j

/-- An instruction that writes to some bits. -/
structure MadeFor (bits : Set ℕ) (i : Instruction F) : Prop where
  made : i.Made
  clbits_mem : ∀ b ∈ i.clbits, b ∈ bits

variable {i j : Instruction F} {bits bits' : Set ℕ}

theorem MadeFor.mono (h : i.MadeFor bits) (hbits : bits ⊆ bits') : i.MadeFor bits' :=
  ⟨h.made, fun b hb => hbits (h.clbits_mem b hb)⟩

theorem Made.operands (h : i.Made) : i.qubits.length = i.gate.qubits ∧ i.qubits.Nodup := by
  cases h with
  | new h =>
    obtain ⟨hchecked, rfl⟩ := new_eq_ok_iff.mp h
    exact hchecked
  | measure q b => exact ⟨rfl, List.nodup_singleton q⟩
  | remap _ h =>
    obtain ⟨hchecked, rfl⟩ := remap_eq_ok_iff.mp h
    exact hchecked
  | withGate _ h =>
    obtain ⟨hchecked, rfl⟩ := withGate_eq_ok_iff.mp h
    exact hchecked

/-- Only a measurement is made with a bit, and with one. -/
theorem Made.length_clbits_le (h : i.Made) : i.clbits.length ≤ 1 := by
  induction h with
  | new h =>
    obtain ⟨-, rfl⟩ := new_eq_ok_iff.mp h
    exact Nat.zero_le 1
  | measure q b => exact Nat.le_refl 1
  | remap _ h ih =>
    obtain ⟨-, rfl⟩ := remap_eq_ok_iff.mp h
    exact ih
  | withGate _ h ih =>
    obtain ⟨-, rfl⟩ := withGate_eq_ok_iff.mp h
    exact ih

theorem MadeFor.new {g : Gate F} {qs : List ℕ} (h : new g qs = .ok i) : i.MadeFor bits := by
  refine ⟨.new h, ?_⟩
  obtain ⟨-, rfl⟩ := new_eq_ok_iff.mp h
  exact fun b hb => absurd hb List.not_mem_nil

theorem MadeFor.remap {f : ℕ → ℕ} (hi : i.MadeFor bits) (h : i.remap f = .ok j) :
    j.MadeFor bits := by
  refine ⟨hi.made.remap h, ?_⟩
  obtain ⟨-, rfl⟩ := remap_eq_ok_iff.mp h
  exact hi.clbits_mem

theorem MadeFor.withGate {g : Gate F} (hi : i.MadeFor bits) (h : i.withGate g = .ok j) :
    j.MadeFor bits := by
  refine ⟨hi.made.withGate h, ?_⟩
  obtain ⟨-, rfl⟩ := withGate_eq_ok_iff.mp h
  exact hi.clbits_mem

end Instruction

namespace Circuit

inductive Build (F : Type)
  | param (name : String)
  | read (text : String)
  | push (i : Instruction F) (made : i.Made)
  | gate (g : Gate F) (qubits : List ℕ)
  | apply (tag : Tag) (params : List (Param F)) (qubits : List ℕ)
  | measure (qubit clbit : ℕ)

def Build.clbits : Build F → List ℕ
  | .push i _ => i.clbits
  | .measure _ clbit => [clbit]
  | _ => []

/-- A change of a circuit that has been built: a transform, gates on the idle qubits, or other
instructions. -/
inductive Change (F : Type)
  | transform (t : Transform F)
  | expand (pad : Tag)
  | withShape (qubits : ℕ) (is : List (Instruction F)) (made : ∀ i ∈ is, i.Made)

def Change.clbits : Change F → List ℕ
  | .withShape _ is _ => is.flatMap (·.clbits)
  | _ => []

/-- The operands of the instructions lie in the qubits and in some bits. -/
structure Uses (bits : Set ℕ) (c : Circuit F) : Prop where
  made : ∀ i ∈ c.instructions, i.MadeFor bits
  qubits_lt : ∀ i ∈ c.instructions, ∀ q ∈ i.qubits, q < c.qubits

variable {c c' : Circuit F} {i : Instruction F} {bits : Set ℕ}

/-- The register grows just so far that it holds the bit of an instruction. -/
theorem isLeast_clbits_of_push (hi : i.Made) (hc : c.push i = .ok c') :
    IsLeast {n | c.clbits ≤ n ∧ ∀ b ∈ i.clbits, b < n} c'.clbits := by
  obtain ⟨-, rfl⟩ := push_eq_ok_iff.mp hc
  have hlength := hi.length_clbits_le
  dsimp only [pushed]
  -- one bit at most, so the first outside is the only one
  rcases hbits : i.clbits with _ | ⟨b, _ | ⟨b', bs⟩⟩
  · exact ⟨by simp, fun n hn => hn.1⟩
  · by_cases hb : c.clbits ≤ b
    · simp only [List.find?_cons, decide_eq_true hb, List.forall_mem_singleton]
      exact ⟨⟨Nat.le_succ_of_le hb, Nat.lt_succ_self b⟩, fun n hn => hn.2⟩
    · simp only [List.find?_cons, decide_eq_false hb, List.find?_nil, List.forall_mem_singleton]
      exact ⟨⟨Nat.le_refl _, by omega⟩, fun n hn => hn.1⟩
  · simp [hbits] at hlength

namespace Uses

theorem wellFormed (h : c.Uses bits) : c.WellFormed := by
  intro i hi
  have hoperands := (h.made i hi).made.operands
  exact ⟨hoperands.1, hoperands.2, h.qubits_lt i hi⟩

theorem push (h : c.Uses (Set.Iio c.clbits)) (hi : i.Made) (hc : c.push i = .ok c') :
    c'.Uses (Set.Iio c'.clbits) := by
  obtain ⟨hle, hlt⟩ := (isLeast_clbits_of_push hi hc).1
  obtain ⟨hrange, rfl⟩ := push_eq_ok_iff.mp hc
  refine ⟨List.forall_mem_append.mpr ⟨fun j hj => ?_, ?_⟩, List.forall_mem_append.mpr
    ⟨h.qubits_lt, ?_⟩⟩
  · exact (h.made j hj).mono (Set.Iio_subset_Iio hle)
  · exact List.forall_mem_singleton.mpr ⟨hi, hlt⟩
  · exact List.forall_mem_singleton.mpr hrange

theorem withShape {n : ℕ} {is : List (Instruction F)} (his : ∀ i ∈ is, i.MadeFor bits)
    (hc : c.withShape n is = .ok c') : c'.Uses bits ∧ c'.clbits = c.clbits := by
  obtain ⟨hrange, rfl⟩ := withShape_eq_ok_iff.mp hc
  exact ⟨⟨his, hrange⟩, rfl⟩

theorem mapM (h : c.Uses bits) {f : Instruction F → Except (CircuitError F) (Instruction F)}
    (hf : ∀ {i j : Instruction F}, i.MadeFor bits → f i = .ok j → j.MadeFor bits) {n : ℕ}
    (hc : (c.instructions.mapM f >>= c.withShape n) = .ok c') :
    c'.Uses bits ∧ c'.clbits = c.clbits := by
  obtain ⟨is, his, hc⟩ := bind_eq_ok_iff.mp hc
  refine withShape (fun j hj => ?_) hc
  obtain ⟨i, hi, hij⟩ := exists_of_forall₂_right (mapM_eq_ok_iff.mp his) hj
  exact hf (h.made i hi) hij

theorem compress (h : c.Uses bits) {reverse : Bool} (hc : c.compress reverse = .ok c') :
    c'.Uses bits ∧ c'.clbits = c.clbits := by
  unfold Circuit.compress at hc
  split_ifs at hc
  · obtain rfl := Except.ok.inj hc
    exact ⟨h, rfl⟩
  · obtain ⟨is, his, hc⟩ := bind_eq_ok_iff.mp hc
    obtain ⟨dense, hdense, hc⟩ := bind_eq_ok_iff.mp hc
    obtain ⟨huses, hclbits⟩ := h.mapM (fun hi => hi.remap) (bind_eq_ok_iff.mpr ⟨is, his, hdense⟩)
    obtain rfl := Except.ok.inj hc
    exact ⟨⟨huses.made, huses.qubits_lt⟩, hclbits⟩

end Uses

theorem exists_compress (h : c.WellFormed) (reverse : Bool) :
    ∃ c', c.compress reverse = .ok c' := by
  by_cases hlayout : c.layout = some reverse
  · exact ⟨c, if_pos hlayout⟩
  · exact ⟨_, (compress_eq_ok_iff hlayout).mpr ⟨dense_wellFormed h reverse, rfl⟩⟩

variable [Scalar F]

namespace Build

def work : Build F → Builder F Unit
  | .param name => modify fun c => (c.param name).1
  | .read text => do
    let (c, p) := (← get).readParam text
    set c
    discard p
  | .push i _ => .push i
  | .gate g qubits => .gate g qubits
  | .apply tag params qubits => .apply tag params qubits
  | .measure qubit clbit => .measure qubit clbit

/-- A builder after some operations, those that failed included. -/
def runAll (ops : List (Build F)) (c : Circuit F) : Circuit F :=
  ops.foldl (fun c op => (op.work.perform c).2) c

/-- The operation is to append an instruction. -/
def Makes (i : Instruction F) : Build F → Prop
  | .param _ | .read _ => False
  | .push j _ => j = i
  | .gate g qubits => Instruction.new g qubits = .ok i
  | .apply tag params qubits => Instruction.apply tag params qubits = .ok i
  | .measure qubit clbit => .measure qubit clbit = i

theorem Makes.madeFor {op : Build F} (h : op.Makes i) : i.MadeFor {b | b ∈ op.clbits} := by
  cases op with
  | param | read => exact h.elim
  | push j hj =>
    obtain rfl := h
    exact ⟨hj, fun _ => id⟩
  | gate g qubits => exact .new h
  | apply tag params qubits =>
    obtain ⟨g, -, h⟩ := bind_eq_ok_iff.mp h
    exact .new h
  | measure qubit clbit =>
    obtain rfl := h
    exact ⟨.measure qubit clbit, fun _ => id⟩

/-- An instruction is made, checked and appended, or nothing is changed. -/
theorem perform_cases_of {op : Build F} {x : Except (CircuitError F) (Instruction F)}
    (hwork : op.work = do Builder.push (← x)) (hx : ∀ i, x = .ok i → op.Makes i) (c : Circuit F) :
    (∃ answer registry, op.work.perform c = (answer, { c with registry := registry })) ∨
      ∃ i c', op.Makes i ∧ c.push i = .ok c' ∧ op.work.perform c = (.ok (), c') := by
  rw [hwork, Builder.perform_bind_push]
  cases x with
  | error e => exact .inl ⟨.error e, c.registry, rfl⟩
  | ok i =>
    simp only [Builder.perform_push]
    cases hrange : checkRange c.qubits i with
    | error e => exact .inl ⟨.error e, c.registry, rfl⟩
    | ok u =>
      have hc := push_eq_ok_iff.mpr ⟨checkRange_eq_ok_iff.mp hrange, rfl⟩
      exact .inr ⟨i, c.pushed i, hx i rfl, hc, rfl⟩

/-- An operation leaves all but the names, or it succeeds and appends an instruction. -/
theorem perform_cases (op : Build F) (c : Circuit F) :
    (∃ answer registry, op.work.perform c = (answer, { c with registry := registry })) ∨
      ∃ i c', op.Makes i ∧ c.push i = .ok c' ∧ op.work.perform c = (.ok (), c') := by
  cases op with
  | param name => exact .inl ⟨_, _, rfl⟩
  | read text =>
    exact .inl ⟨_, _, InPlace.perform_discard (c.readParam text).2 (c.readParam text).1⟩
  | push i hi => exact perform_cases_of (x := .ok i) rfl (fun _ => Except.ok.inj) c
  | gate g qubits => exact perform_cases_of rfl (fun _ => id) c
  | apply tag params qubits => exact perform_cases_of rfl (fun _ => id) c
  | measure qubit clbit =>
    exact perform_cases_of (x := .ok (.measure qubit clbit)) rfl (fun _ => Except.ok.inj) c

end Build

def Change.Gives [Eigensolver F] (c c' : Circuit F) : Change F → Prop
  | .transform t => t.Gives c c'
  | .expand pad => c.expand pad = .ok c'
  | .withShape n is _ => c.withShape n is = .ok c'

def Leads [Eigensolver F] : List (Change F) → Circuit F → Circuit F → Prop
  | [], c, c' => c = c'
  | change :: changes, c, c' => ∃ c₁, change.Gives c c₁ ∧ Leads changes c₁ c'

namespace Uses

theorem expand (h : c.Uses bits) {pad : Tag} (hc : c.expand pad = .ok c') :
    c'.Uses bits ∧ c'.clbits = c.clbits := by
  obtain ⟨gate, -, hc⟩ := bind_eq_ok_iff.mp hc
  split_ifs at hc
  obtain ⟨padding, hpadding, hc⟩ := bind_eq_ok_iff.mp hc
  refine withShape (List.forall_mem_append.mpr ⟨h.made, fun j hj => ?_⟩) hc
  obtain ⟨q, -, hq⟩ := exists_of_forall₂_right (mapM_eq_ok_iff.mp hpadding) hj
  exact .new hq

theorem bind (h : c.Uses bits) {b : Bindings F} (hc : c.bind b = .ok c') :
    c'.Uses bits ∧ c'.clbits = c.clbits := by
  refine h.mapM (fun hi hij => ?_) hc
  obtain ⟨g, -, hij⟩ := bind_eq_ok_iff.mp hij
  exact hi.withGate hij

theorem lower [Eigensolver F] (h : c.Uses bits) {table : GateTable} {b : Bindings F} {tolerance : F}
    (hc : Lowering.circuit table b tolerance c = .ok c') :
    c'.Uses bits ∧ c'.clbits = c.clbits := by
  have hmade : ∀ j ∈ c'.instructions, j.MadeFor bits := by
    refine Lowering.forall_mem_circuit (fun hi => hi.withGate) (fun _ hj => ?_) h.made hc
    obtain ⟨qs, -, hj⟩ := bind_eq_ok_iff.mp hj
    exact .new hj
  obtain ⟨outs, -, hrange, rfl⟩ := Lowering.circuit_eq_ok_iff.mp hc
  exact ⟨⟨hmade, hrange⟩, rfl⟩

/-- A change uses the bits that were in use and those that it names. -/
theorem gives [Eigensolver F] (h : c.Uses bits) {change : Change F}
    (hbits : ∀ b ∈ change.clbits, b ∈ bits)
    (hc : change.Gives c c') : c'.Uses bits ∧ c'.clbits = c.clbits := by
  cases change with
  | expand pad => exact h.expand hc
  | withShape n is his =>
    exact withShape (fun i hi => ⟨his i hi, fun b hb =>
      hbits b (List.mem_flatMap.mpr ⟨i, hi, hb⟩)⟩) hc
  | transform t =>
    cases t with
    | compress reverse => exact h.compress hc
    | expandIdentity => exact h.expand hc
    | bind b => exact h.bind hc
    | lower table b tolerance => exact h.lower hc
    | shape n => exact withShape h.made hc
    | remap place => exact h.mapM (fun hi => hi.remap) hc

theorem leads [Eigensolver F] (h : c.Uses bits) {changes : List (Change F)}
    (hbits : ∀ change ∈ changes, ∀ b ∈ change.clbits, b ∈ bits) (hc : Leads changes c c') :
    c'.Uses bits ∧ c'.clbits = c.clbits := by
  induction changes generalizing c with
  | nil =>
    obtain rfl := hc
    exact ⟨h, rfl⟩
  | cons change changes ih =>
    obtain ⟨hfirst, hrest⟩ := List.forall_mem_cons.mp hbits
    obtain ⟨c₁, hc₁, hc⟩ := hc
    obtain ⟨huses, hclbits⟩ := h.gives hfirst hc₁
    rw [← hclbits]
    exact ih huses hrest hc

end Uses

/-- What a builder holds: instructions for its registers, and bits that can be numbered. -/
structure Valid (c : Circuit F) : Prop where
  uses : c.Uses (Set.Iio c.clbits)
  clbits_lt : c.clbits < Number.indexLimit

namespace Valid

theorem perform (h : c.Valid) {op : Build F}
    (hbits : ∀ b ∈ op.clbits, b + 1 < Number.indexLimit) : (op.work.perform c).2.Valid := by
  rcases op.perform_cases c with ⟨answer, registry, hsame⟩ | ⟨i, c', hi, hc, hperform⟩
  · rw [hsame]
    exact ⟨⟨h.uses.made, h.uses.qubits_lt⟩, h.clbits_lt⟩
  · rw [hperform]
    have hi := hi.madeFor
    refine ⟨h.uses.push hi.made hc, Nat.lt_of_le_pred (by decide) ?_⟩
    apply (isLeast_clbits_of_push hi.made hc).2
    exact ⟨Nat.le_pred_of_lt h.clbits_lt, fun b hb =>
      Nat.lt_sub_of_add_lt (hbits b (hi.clbits_mem b hb))⟩

theorem runAll (h : c.Valid) {ops : List (Build F)}
    (hbits : ∀ op ∈ ops, ∀ b ∈ op.clbits, b + 1 < Number.indexLimit) :
    (Build.runAll ops c).Valid := by
  induction ops generalizing c with
  | nil => exact h
  | cons op ops ih =>
    obtain ⟨hop, hops⟩ := List.forall_mem_cons.mp hbits
    exact ih (h.perform hop) hops

end Valid

theorem exists_expandIdentity (h : c.WellFormed) : ∃ c', c.expandIdentity = .ok c' := by
  let gate : Gate F := ⟨.id, [], Tag.id.matrix? []⟩
  let idle := (List.range c.qubits).filter (!c.referenced.contains ·)
  obtain ⟨padding, hpadding⟩ : ∃ padding, idle.mapM (fun q => Instruction.new gate [q]) =
      .ok padding := exists_mapM_eq_ok fun q _ => ⟨⟨gate, [q], []⟩, rfl⟩
  have hrange : ∀ i ∈ c.instructions ++ padding, ∀ q ∈ i.qubits, q < c.qubits := by
    refine List.forall_mem_append.mpr ⟨fun i hi => (h i hi).lt, fun i hi => ?_⟩
    obtain ⟨q, hq, hi⟩ := exists_of_forall₂_right (mapM_eq_ok_iff.mp hpadding) hi
    obtain ⟨-, rfl⟩ := Instruction.new_eq_ok_iff.mp hi
    exact List.forall_mem_singleton.mpr (List.mem_range.mp (List.mem_filter.mp hq).1)
  have hsingle : ¬ (gate.qubits ≠ 1 ∨ Tag.id.isUnitary = false) := by
    rintro (hcount | hkind)
    · exact hcount rfl
    · cases hkind
  refine ⟨{ c with instructions := c.instructions ++ padding }, ?_⟩
  refine bind_eq_ok_iff.mpr ⟨gate, rfl, ?_⟩
  rw [if_neg hsingle]
  exact bind_eq_ok_iff.mpr ⟨padding, hpadding, withInstructions_eq_ok_iff.mpr ⟨hrange, rfl⟩⟩

/-- However a circuit was built and changed, its operands lie in its registers, save for the bits of
instructions that were given in place of others, which are not checked. The circuit can be made
dense and padded. An operation that fails leaves the registers and the instructions of a builder. -/
theorem wellFormed_of_history [Eigensolver F] {qubits clbits : ℕ}
    (hclbits : clbits < Number.indexLimit)
    {ops : List (Build F)} (hops : ∀ op ∈ ops, ∀ b ∈ op.clbits, b + 1 < Number.indexLimit)
    {changes : List (Change F)}
    (h : Leads changes (Build.runAll ops { qubits := qubits, clbits := clbits }) c) :
    ((∀ i ∈ c.instructions, i.qubits.length = i.gate.qubits ∧ i.qubits.Nodup ∧
        (∀ q ∈ i.qubits, q < c.qubits) ∧
        ∀ b ∈ i.clbits, b < c.clbits ∨ ∃ change ∈ changes, b ∈ change.clbits) ∧
      c.clbits < Number.indexLimit) ∧
    ((∀ reverse, ∃ c', c.compress reverse = .ok c') ∧ ∃ c', c.expandIdentity = .ok c') ∧
    ∀ (op : Build F) (c₀ c₁ : Circuit F) (e : CircuitError F),
      op.work.perform c₀ = (.error e, c₁) →
        c₁.qubits = c₀.qubits ∧ c₁.clbits = c₀.clbits ∧ c₁.instructions = c₀.instructions := by
  have hempty : Valid { qubits := qubits, clbits := clbits : Circuit F } :=
    ⟨⟨fun i hi => absurd hi List.not_mem_nil, fun i hi => absurd hi List.not_mem_nil⟩, hclbits⟩
  have hbuilt := hempty.runAll hops
  -- no change touches the register of bits, so one set of bits serves for all of them
  obtain ⟨huses, hsame⟩ : c.Uses {b | b < (Build.runAll ops { qubits, clbits }).clbits ∨
      ∃ change ∈ changes, b ∈ change.clbits} ∧ _ := by
    refine Uses.leads ⟨fun i hi => ?_, hbuilt.uses.qubits_lt⟩ (fun change hchange b hb => ?_) h
    · exact (hbuilt.uses.made i hi).mono fun b hb => .inl hb
    · exact .inr ⟨change, hchange, hb⟩
  refine ⟨⟨fun i hi => ?_, ?_⟩, ⟨exists_compress huses.wellFormed,
    exists_expandIdentity huses.wellFormed⟩, fun op c₀ c₁ e he => ?_⟩
  · obtain ⟨hmade, hbits⟩ := huses.made i hi
    rw [hsame]
    exact ⟨hmade.operands.1, hmade.operands.2, huses.qubits_lt i hi, hbits⟩
  · rw [hsame]
    exact hbuilt.clbits_lt
  · rcases op.perform_cases c₀ with ⟨answer, registry, hkept⟩ | ⟨i, c', -, -, hok⟩
    · obtain ⟨-, rfl⟩ := Prod.mk.inj (hkept.symm.trans he)
      exact ⟨rfl, rfl, rfl⟩
    · cases hok.symm.trans he

noncomputable section

/-- A turn and a measurement, with an exchange of a qubit with itself tried in between. -/
def attempts : List (Build ℝ) :=
  [.param "theta", .apply .rx [.ref ⟨0, "theta"⟩] [1], .apply .swap [] [1, 1], .measure 4 6]

def padded : Circuit ℝ where
  qubits := 3
  clbits := 7
  instructions := [⟨⟨.rx, [.ref ⟨0, "theta"⟩], none⟩, [1], []⟩, .measure 0 6, .fixed .x [2]]
  registry := ({} : Registry).register "theta" |>.1
  layout := some true

attribute [local instance] Eigensolver.mixed

theorem wellFormed_of_history_padded :
    (∀ op ∈ attempts, ∀ b ∈ op.clbits, b + 1 < Number.indexLimit) ∧
      Leads [.transform (.compress true), .transform (.shape 3), .expand .x]
        (Build.runAll attempts { qubits := 5, clbits := 1 }) padded ∧
      (∀ i ∈ padded.instructions, ∀ b ∈ i.clbits, b < 7) ∧
      (∀ reverse, ∃ c', padded.compress reverse = .ok c') ∧
      ∀ c₀ : Circuit ℝ, ((Build.apply .swap [] [1, 1]).work.perform c₀).2.instructions =
        c₀.instructions := by
  have hops : ∀ op ∈ attempts, ∀ b ∈ op.clbits, b + 1 < Number.indexLimit := by
    simp [attempts, Build.clbits, Number.indexLimit]
  have hleads : Leads [.transform (.compress true), .transform (.shape 3), .expand .x]
      (Build.runAll attempts { qubits := 5, clbits := 1 }) padded :=
    ⟨_, rfl, _, rfl, _, rfl, rfl⟩
  obtain ⟨⟨hoperands, -⟩, ⟨hcompress, -⟩, hfailed⟩ :=
    wellFormed_of_history (by decide) hops hleads
  refine ⟨hops, hleads, fun i hi b hb => ?_, hcompress, fun c₀ => ?_⟩
  · simpa [Change.clbits, padded] using (hoperands i hi).2.2.2 b hb
  · exact (hfailed (.apply .swap [] [1, 1]) c₀ c₀ (.duplicateQubit 1 .swap) rfl).2.2

/-- A measurement in place of nothing, on a bit that the circuit does not have. -/
def unchecked : Change ℝ := .withShape 1 [.measure 0 5] fun _ hi => by
  obtain rfl := List.mem_singleton.mp hi
  exact .measure 0 5

theorem unchecked_outside :
    ∃ c, Leads [unchecked] (Build.runAll [] { qubits := 1, clbits := 0 }) c ∧
      ¬ ∀ i ∈ c.instructions, ∀ b ∈ i.clbits, b < c.clbits :=
  ⟨{ qubits := 1, clbits := 0, instructions := [.measure 0 5] }, ⟨_, rfl, rfl⟩,
    by simp [Instruction.measure]⟩

end

end Circuit

end Interchange
