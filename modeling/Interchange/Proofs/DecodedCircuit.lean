import Interchange.Native.Circuit
import Interchange.Proofs.CircuitReading

namespace Interchange

section

variable {F α : Type}

@[simp] theorem TranspileError.lift_eq_ok_iff {x : Except (ConvertError F) α} {a : α} :
    TranspileError.lift x = .ok a ↔ x = .ok a := by
  cases x <;> simp [TranspileError.lift]

@[simp] theorem TranspileError.liftCircuit_eq_ok_iff {f : Framework}
    {x : Except (CircuitError F) α} {a : α} :
    TranspileError.liftCircuit f x = .ok a ↔ x = .ok a := by
  cases x <;> simp [TranspileError.liftCircuit]

@[simp] theorem Qasm.liftCircuit_eq_ok_iff {x : Except (CircuitError F) α} {a : α} :
    Qasm.liftCircuit x = .ok a ↔ x = .ok a := by
  cases x <;> simp [Qasm.liftCircuit]

@[simp] theorem Qasm.liftConvert_eq_ok_iff {f : Framework} {x : Except (Qasm.Error F) α} {a : α} :
    Qasm.liftConvert f x = .ok a ↔ x = .ok a := by
  cases x <;> simp [Qasm.liftConvert]

end

theorem GateTable.mem_entries_of_tag? {t : GateTable} {name : String} {tag : Tag}
    (h : t.tag? name = some tag) : (tag, name) ∈ t.entries := by
  obtain ⟨e, he, rfl⟩ := Option.map_eq_some_iff.mp h
  have hname := List.find?_some he
  obtain rfl := beq_iff_eq.mp hname
  exact List.mem_of_find?_eq_some he

theorem Circuit.grows_of_measures {F : Type} {c c' : Circuit F} {f : Framework}
    {pairs : List (ℕ × ℕ)}
    (h : pairs.foldlM (fun c pair => ConvertError.lift f (c.measure pair.1 pair.2)) c = .ok c') :
    c.Grows (pairs.map fun pair => .measure pair.1 pair.2) c' := by
  induction pairs generalizing c with
  | nil =>
    obtain rfl := Except.ok.inj h
    exact .refl _
  | cons pair pairs ih =>
    obtain ⟨c₁, hpair, hpairs⟩ := bind_eq_ok_iff.mp h
    rw [ConvertError.lift_eq_ok_iff] at hpair
    exact (grows_of_measure hpair).trans (ih hpairs)

variable {F : Type} [Scalar F] {c c₁ c' : Circuit F}

theorem Angle.grows_of_readAll {angles : List (Angle F)} {ps : List (Param F)}
    (h : readAll c angles = .ok (c₁, ps)) : c.Grows [] c₁ := by
  induction angles generalizing c ps with
  | nil =>
    cases h
    exact .refl _
  | cons a angles ih =>
    obtain ⟨p, -, h⟩ := bind_eq_ok_iff.mp h
    obtain ⟨⟨c₂, qs⟩, hrest, h⟩ := bind_eq_ok_iff.mp h
    obtain rfl : c₂ = c₁ := congrArg Prod.fst (Except.ok.inj h)
    cases a with
    | value x => exact ih hrest
    | expression text => exact (ih hrest).of_registry

namespace Gate

theorem tag_of_ofMatrix {m : Operator F} {g : Gate F} (h : ofMatrix m = .ok g) :
    g.tag = .unitary := by
  unfold ofMatrix at h
  split_ifs at h
  cases h
  rfl

omit [Scalar F] in
theorem eq_of_withMatrix {m : Operator F} {g g' : Gate F} (h : g.withMatrix m = .ok g') :
    g' = { g with matrix := some m } := by
  unfold withMatrix at h
  split_ifs at h
  exact (Except.ok.inj h).symm

omit [Scalar F] in
theorem tag_of_withMatrix {m : Operator F} {g g' : Gate F} (h : g.withMatrix m = .ok g') :
    g'.tag = g.tag := by rw [eq_of_withMatrix h]

end Gate

namespace Qiskit

theorem Operation.grows_of_readGate {o : Operation F} {g : Gate F}
    (hname : o.name ≠ Tag.measure.name) (h : o.readGate c = .ok (c₁, g)) :
    c.Grows [] c₁ ∧ g.tag ≠ .measure := by
  obtain ⟨given, -, h⟩ := bind_eq_ok_iff.mp h
  dsimp only at h
  split at h
  next tag htag =>
    have hne : tag ≠ .measure := by
      rintro rfl
      obtain ⟨htag, -⟩ := Option.filter_eq_some_iff.mp htag
      obtain ⟨e, -, he⟩ := List.mem_map.mp (GateTable.mem_entries_of_tag? htag)
      obtain ⟨rfl, heq⟩ := Prod.mk.inj he
      exact hname heq.symm
    obtain ⟨⟨c₂, params⟩, hread, h⟩ := bind_eq_ok_iff.mp h
    obtain ⟨g₁, hg₁, h⟩ := bind_eq_ok_iff.mp h
    rw [ConvertError.lift_eq_ok_iff] at hread hg₁
    rw [← Gate.tag_of_new hg₁] at hne
    have hgrows := Angle.grows_of_readAll hread
    split at h
    next m =>
      obtain ⟨g₂, hg₂, h⟩ := bind_eq_ok_iff.mp h
      rw [ConvertError.lift_eq_ok_iff] at hg₂
      cases h
      exact ⟨hgrows, by rwa [Gate.tag_of_withMatrix hg₂]⟩
    next =>
      cases h
      exact ⟨hgrows, hne⟩
  next m _ =>
    obtain ⟨g₁, hg₁, h⟩ := bind_eq_ok_iff.mp h
    rw [ConvertError.lift_eq_ok_iff] at hg₁
    cases h
    exact ⟨.refl c, by simp [Gate.tag_of_ofMatrix hg₁]⟩
  next => split_ifs at h

theorem Operation.extends_of_read {o : Operation F} (h : o.read c = .ok c') : c.Extends c' := by
  unfold read at h
  split_ifs at h with hdirective hmeasure
  · cases h
    exact ⟨[], .refl c⟩
  · unfold readMeasure at h
    split_ifs at h
    exact ⟨_, Circuit.grows_of_measures h⟩
  · obtain ⟨⟨c₁, g⟩, hg, h⟩ := bind_eq_ok_iff.mp h
    rw [ConvertError.lift_eq_ok_iff] at h
    obtain ⟨hgrows, hne⟩ := grows_of_readGate hmeasure hg
    exact ⟨_, hgrows.trans (Circuit.grows_of_pushGate h hne)⟩

end Qiskit

namespace Braket

theorem Operation.grows_of_readGate {o : Operation F} {g : Gate F}
    (h : o.readGate c = .ok (c₁, g)) : c.Grows [] c₁ ∧ g.tag ≠ .measure := by
  have hall : ∀ e ∈ table.entries, e.1 ≠ .measure := by decide
  unfold readGate at h
  split at h
  next => cases h
  next =>
    split at h
    next => cases h
    next rows _ =>
      obtain ⟨m, -, h⟩ := bind_eq_ok_iff.mp h
      obtain ⟨g₁, hg₁, h⟩ := bind_eq_ok_iff.mp h
      rw [ConvertError.lift_eq_ok_iff] at hg₁
      cases h
      exact ⟨.refl c, by simp [Gate.tag_of_ofMatrix hg₁]⟩
  next tag _ htag =>
    obtain ⟨⟨c₂, params⟩, hread, h⟩ := bind_eq_ok_iff.mp h
    obtain ⟨g₁, hg₁, h⟩ := bind_eq_ok_iff.mp h
    rw [ConvertError.lift_eq_ok_iff] at hread hg₁
    cases h
    refine ⟨Angle.grows_of_readAll hread, ?_⟩
    rw [Gate.tag_of_new hg₁]
    exact hall _ (GateTable.mem_entries_of_tag? htag)

theorem Operation.exists_gate_of_read {o : Operation F} (h : o.read c = .ok c') :
    ∃ c₁ g, o.readGate c = .ok (c₁, g) ∧ c.Grows [⟨g, o.operands.qubits, []⟩] c' := by
  obtain ⟨⟨c₁, g⟩, hg, h⟩ := bind_eq_ok_iff.mp h
  rw [ConvertError.lift_eq_ok_iff] at h
  obtain ⟨hgrows, hne⟩ := grows_of_readGate hg
  exact ⟨c₁, g, hg, hgrows.trans (Circuit.grows_of_pushGate h hne)⟩

theorem exists_run_of_decode {p : Program F} (h : decode p = .ok c') :
    ∃ width, p.operations.foldlM (fun c o => o.read c) { qubits := width, clbits := 0 } =
      .ok c' := by
  unfold decode at h
  split_ifs at h
  · cases h
  obtain ⟨width, -, h⟩ := bind_eq_ok_iff.mp h
  exact ⟨width, h⟩

end Braket

namespace IonQ

omit [Scalar F] in
theorem Operation.tag_ne_measure {o : Operation F} {tag : Tag} (h : o.tag = .ok tag) :
    tag ≠ .measure := by
  have hall : ∀ e ∈ table.entries, e.1 ≠ .measure := by decide
  unfold Operation.tag at h
  dsimp only at h
  generalize (if o.gate = "not" ∨ o.gate = "cnot" then "x" else o.gate) = base at h
  split at h
  -- no control
  · split_ifs at h
    split at h
    next htag =>
      cases h
      exact hall _ (GateTable.mem_entries_of_tag? htag)
    next => cases h
  -- one control
  · split at h
    next htag =>
      cases h
      split_ifs at htag
      · cases htag
        decide
      · exact hall _ (GateTable.mem_entries_of_tag? htag)
    next => cases h
  -- two controls, or too many
  · split_ifs at h
    cases h
    decide

theorem Operation.exists_gate_of_read {o : Operation F} (h : o.read c = .ok c') :
    ∃ tag params g, o.tag = .ok tag ∧ o.params tag = .ok params ∧ Gate.new tag params = .ok g ∧
      c.Grows [⟨g, o.operands.qubits, []⟩] c' := by
  obtain ⟨tag, htag, h⟩ := bind_eq_ok_iff.mp h
  obtain ⟨params, hparams, h⟩ := bind_eq_ok_iff.mp h
  rw [ConvertError.lift_eq_ok_iff] at h
  obtain ⟨g, hg, hgrows⟩ := Circuit.grows_of_apply h (tag_ne_measure htag)
  exact ⟨tag, params, g, htag, hparams, hg, hgrows⟩

theorem run_of_decode {d : Document F} (h : decode d = .ok c') :
    d.operations.foldlM (fun c o => o.read c) { qubits := d.qubits, clbits := 0 } = .ok c' := by
  unfold decode at h
  split_ifs at h
  · cases h
  · cases h
  · cases h
  exact h

end IonQ

namespace Cirq

theorem grows_of_readExpression {e : Expression F} {p : Param F}
    (h : readExpression c e = .ok (c₁, p)) : c.Grows [] c₁ := by
  unfold readExpression at h
  split at h
  · cases h
    exact (Circuit.Grows.refl _).of_registry
  · cases h

variable [Numeral F]

theorem GateObject.tag_ne_measure_of_power {g : GateObject F} {exponent : Param F} {tag : Tag}
    {params : List (Param F)} (h : g.ofPower exponent = .ok (tag, params)) : tag ≠ .measure := by
  unfold ofPower at h
  dsimp only at h
  -- every branch names its tag, or fails
  repeat' split at h
  all_goals cases h
  all_goals decide

theorem GateObject.grows_of_classify {g : GateObject F} {tag : Tag} {params : List (Param F)}
    (h : g.classify c = .ok (c₁, tag, params)) : c.Grows [] c₁ ∧ tag ≠ .measure := by
  have hrotation : ∀ type tag, rotation? type = some tag → tag ≠ .measure := by
    intro type tag htag
    unfold rotation? at htag
    split at htag
    all_goals cases htag
    all_goals decide
  unfold classify at h
  split at h
  next tag' htag =>
    split at h
    next => cases h
    next rads _ =>
      obtain ⟨⟨c₂, p⟩, hread, h⟩ := bind_eq_ok_iff.mp h
      cases h
      exact ⟨grows_of_readExpression hread, hrotation _ _ htag⟩
  next =>
    split_ifs at h
    · cases h
      exact ⟨.refl c, by decide⟩
    · obtain ⟨⟨c₂, exponent⟩, hread, h⟩ := bind_eq_ok_iff.mp h
      obtain ⟨⟨tag', params'⟩, hpower, h⟩ := bind_eq_ok_iff.mp h
      cases h
      exact ⟨grows_of_readExpression hread, tag_ne_measure_of_power hpower⟩

/-- The gate that is appended for a gate object with neither a matrix nor a key. -/
theorem exists_gate_of_apply {g : GateObject F} {qs : List ℕ} {keys keys' : KeyBits}
    (h : (do
      let (c, tag, params) ← g.classify c
      return (← ConvertError.lift .cirq (c.apply tag params qs), keys)) = .ok (c', keys')) :
    ∃ c₁ tag params gate, g.classify c = .ok (c₁, tag, params) ∧ Gate.new tag params = .ok gate ∧
      c.Grows [⟨gate, qs, []⟩] c' := by
  obtain ⟨⟨c₁, tag, params⟩, hclassify, h⟩ := bind_eq_ok_iff.mp h
  obtain ⟨c₂, happly, h⟩ := bind_eq_ok_iff.mp h
  rw [ConvertError.lift_eq_ok_iff] at happly
  cases h
  obtain ⟨hgrows, hne⟩ := GateObject.grows_of_classify hclassify
  obtain ⟨gate, hnew, hgate⟩ := Circuit.grows_of_apply happly hne
  exact ⟨c₁, tag, params, gate, hclassify, hnew, hgrows.trans hgate⟩

/-- What reading an operation does: a measurement takes the bits of its key, and anything else
writes no bit. -/
theorem Operation.grows_of_read {o : Operation F} {keys keys' : KeyBits}
    (h : o.read (c, keys) = .ok (c', keys')) :
    (o.gate.type = "MeasurementGate" ∧ ∃ bits,
      keys.bits (F := F) (o.gate.key.getD "m") (o.qubits.length % Number.indexLimit) =
        .ok (keys', bits) ∧
      c.Grows (((o.qubits.map (·.x)).zip bits).map fun pair => .measure pair.1 pair.2) c') ∨
    (o.gate.type ≠ "MeasurementGate" ∧ keys' = keys ∧
      ∃ js, c.Grows js c' ∧ ∀ j ∈ js, j.clbits = []) := by
  unfold read at h
  dsimp only at h
  split at h
  next htype =>
    obtain ⟨⟨keys₁, bits⟩, hbits, h⟩ := bind_eq_ok_iff.mp h
    obtain ⟨c₁, hmeasures, h⟩ := bind_eq_ok_iff.mp h
    cases h
    rw [List.length_map] at hbits
    exact .inl ⟨htype, bits, hbits, Circuit.grows_of_measures hmeasures⟩
  next htype =>
    obtain ⟨c₁, hids, h⟩ := bind_eq_ok_iff.mp h
    cases h
    refine .inr ⟨by simp [htype], rfl, ?_⟩
    obtain ⟨-, blocks, hblocks, hgrows⟩ := Circuit.foldlM_grows (I := fun _ _ => True)
      (R := fun _ js => ∀ j ∈ js, j.clbits = []) id (fun done q rest c c' _ _ hc => by
        rw [ConvertError.lift_eq_ok_iff] at hc
        obtain ⟨g, -, hgrows⟩ := Circuit.grows_of_apply hc (by decide)
        exact ⟨trivial, _, by simp, hgrows⟩) trivial hids
    refine ⟨_, hgrows, fun j hj => ?_⟩
    obtain ⟨js, hjs, hj⟩ := List.mem_flatten.mp hj
    obtain ⟨_, -, hblock⟩ := exists_of_forall₂_right hblocks hjs
    exact hblock j hj
  next htype =>
    refine .inr ⟨by simp [htype], ?_⟩
    split at h
    next => cases h
    next rows _ =>
      obtain ⟨m, -, h⟩ := bind_eq_ok_iff.mp h
      obtain ⟨g, hg, h⟩ := bind_eq_ok_iff.mp h
      obtain ⟨c₁, hpush, h⟩ := bind_eq_ok_iff.mp h
      rw [ConvertError.lift_eq_ok_iff] at hg hpush
      cases h
      exact ⟨rfl, _, Circuit.grows_of_pushGate hpush (by simp [Gate.tag_of_ofMatrix hg]), by simp⟩
  next htype _ _ =>
    obtain ⟨_, _, _, g, -, -, hgrows⟩ := exists_gate_of_apply h
    obtain ⟨_, -, h⟩ := bind_eq_ok_iff.mp h
    obtain ⟨_, -, h⟩ := bind_eq_ok_iff.mp h
    cases h
    exact .inr ⟨htype, rfl, _, hgrows, by simp⟩

theorem Operation.extends_of_read {o : Operation F} {keys keys' : KeyBits}
    (h : o.read (c, keys) = .ok (c', keys')) : c.Extends c' := by
  obtain ⟨-, bits, -, hgrows⟩ | ⟨-, -, js, hgrows, -⟩ := grows_of_read h
  · exact ⟨_, hgrows⟩
  · exact ⟨_, hgrows⟩

theorem exists_keys_of_decode {d : Document F} (h : decode d = .ok c') :
    ∃ width keys keys', KeyBits.start d = .ok keys ∧ d.operations.foldlM (fun s o => o.read s)
      ({ qubits := width, clbits := 0 }, keys) = .ok (c', keys') := by
  obtain ⟨_, -, h⟩ := bind_eq_ok_iff.mp h
  obtain ⟨keys, hkeys, h⟩ := bind_eq_ok_iff.mp h
  obtain ⟨⟨c₁, keys'⟩, hread, h⟩ := bind_eq_ok_iff.mp h
  cases h
  exact ⟨_, keys, keys', hkeys, hread⟩

theorem exists_run_of_decode {d : Document F} (h : decode d = .ok c') :
    ∃ width keys keys', d.operations.foldlM (fun s o => o.read s)
      ({ qubits := width, clbits := 0 }, keys) = .ok (c', keys') := by
  obtain ⟨width, keys, keys', -, hrun⟩ := exists_keys_of_decode h
  exact ⟨width, keys, keys', hrun⟩

end Cirq

namespace Qasm

theorem standardGate?_ne_measure {name : String} {tag : Tag} (h : standardGate? name = some tag) :
    tag ≠ .measure := by
  rintro rfl
  unfold standardGate? at h
  -- the older spellings name other tags, and the search leaves the measurement out
  split at h <;> try cases h
  have hmem := List.mem_of_find?_eq_some h
  simp at hmem

section

variable {P : Circuit F → Prop}

theorem returns_applyStandard {tag : Tag}
    (hP : ∀ c, P c → ∀ params qs, Returns (c.apply tag params qs) P) (name : String)
    (params : List (Param F)) (args : List (List ℕ)) (hc : P c) :
    Returns (applyStandard tag name params args c) P := by
  refine .andThen fun _ => .andThen fun _ => .andThen fun rows => ?_
  refine .foldlM (fun c hc qubits _ c' hc' => ?_) hc
  exact hP c hc params qubits c' (liftCircuit_eq_ok_iff.mp hc')

/-- A call keeps what every gate keeps, however deep the definitions nest that it opens. -/
theorem returns_applyCall
    (hP : ∀ tag ≠ .measure, ∀ c, P c → ∀ params qs, Returns (c.apply tag params qs) P)
    (env : Environment F) (levels : ℕ) (scope : Scope F) (call : GateCall) (hc : P c) :
    Returns (applyCall env levels scope c call) P := by
  induction levels using Nat.strongRecOn generalizing scope call c with
  | _ levels ih =>
    rw [applyCall.eq_def]
    refine .andThen fun params => .andThen fun args => ?_
    split_ifs
    · exact .andThen fun _ => returns_applyStandard (hP .u (by decide)) _ _ _ hc
    split
    next tag htag =>
      exact returns_applyStandard (hP tag (standardGate?_ne_measure htag)) _ _ _ hc
    next =>
      split
      next => exact .error _ _
      next definition _ =>
        split
        next => exact .error _ _
        next levels =>
          refine .andThen fun _ => .andThen fun _ => .andThen fun rows => ?_
          exact .foldlM (fun c hc qubits _ => .foldlM
            (fun c hc call _ => ih levels (Nat.lt_succ_self levels) _ call hc) hc) hc

end

theorem extends_of_applyCall {env : Environment F} {levels : ℕ} {scope : Scope F} {call : GateCall}
    (h : applyCall env levels scope c call = .ok c') : c.Extends c' := by
  refine returns_applyCall (P := c.Extends) (fun tag htag c₁ hc₁ params qs c₂ hc₂ => ?_) env levels
    scope call ⟨[], .refl c⟩ c' h
  obtain ⟨js, hjs⟩ := hc₁
  obtain ⟨g, -, hgrows⟩ := Circuit.grows_of_apply hc₂ htag
  exact ⟨_, hjs.trans hgrows⟩

omit [Scalar F] in
theorem extends_of_applyMeasure {env : Environment F} {qubits bits : List Reference}
    (h : applyMeasure env qubits bits c = .ok c') : c.Extends c' := by
  obtain ⟨qs, -, h⟩ := bind_eq_ok_iff.mp h
  obtain ⟨cs, -, h⟩ := bind_eq_ok_iff.mp h
  dsimp only at h
  generalize (if bits.isEmpty then qs.flatten else cs.flatten) = cs at h
  split_ifs at h
  refine Circuit.foldlM_extends id (fun pair _ c c' hc => ?_) h
  rw [liftCircuit_eq_ok_iff] at hc
  exact ⟨_, Circuit.grows_of_measure hc⟩

theorem extends_of_applyStatement {state state' : Environment F × Circuit F} {s : Statement}
    (h : applyStatement state s = .ok state') : state.2.Extends state'.2 := by
  cases s with
  | includeFile | qubits | bits | barrier | opaqueGate =>
    cases h
    exact ⟨[], .refl _⟩
  | input name =>
    obtain ⟨_, -, h⟩ := bind_eq_ok_iff.mp h
    cases h
    exact ⟨[], (Circuit.Grows.refl _).of_registry⟩
  | definition gate =>
    unfold applyStatement at h
    dsimp only at h
    split_ifs at h
    all_goals
      cases h
      exact ⟨[], .refl _⟩
  | gate call =>
    obtain ⟨c₁, hcall, h⟩ := bind_eq_ok_iff.mp h
    cases h
    exact extends_of_applyCall hcall
  | measure qubits bits =>
    obtain ⟨c₁, hmeasure, h⟩ := bind_eq_ok_iff.mp h
    cases h
    exact extends_of_applyMeasure hmeasure
  | reset => cases h

end Qasm

/-- As circuits are read: no layout, and every instruction recorded. -/
structure Circuit.AsRead (c : Circuit F) : Prop where
  layout : c.layout = none
  recorded : ∀ i ∈ c.instructions, i.Recorded c.clbits

omit [Scalar F] in
theorem Circuit.AsRead.of_extends (h : c.Extends c') (hl : c.layout = none)
    (hi : c.instructions = []) : c'.AsRead := by
  obtain ⟨js, h⟩ := h
  refine ⟨h.layout.trans hl, ?_⟩
  rw [h.instructions, hi, List.nil_append]
  exact h.recorded

/-- Every framework reads circuits without a layout whose instructions are recorded. -/
theorem Native.asRead_of_toCircuit [Numeral F] {n : Native F} (h : n.toCircuit = .ok c) :
    c.AsRead := by
  unfold toCircuit at h
  rw [TranspileError.lift_eq_ok_iff] at h
  cases n with
  | qiskit d =>
    exact .of_extends (Circuit.foldlM_extends id
      (fun o _ _ _ ho => Qiskit.Operation.extends_of_read ho) h) rfl rfl
  | cirq d =>
    obtain ⟨_, _, _, hrun⟩ := Cirq.exists_run_of_decode h
    exact .of_extends (Circuit.foldlM_extends Prod.fst
      (fun o _ _ _ ho => Cirq.Operation.extends_of_read ho) hrun) rfl rfl
  | braket p =>
    obtain ⟨_, hrun⟩ := Braket.exists_run_of_decode h
    refine .of_extends (Circuit.foldlM_extends id (fun o _ _ _ ho => ?_) hrun) rfl rfl
    obtain ⟨_, g, -, hgrows⟩ := Braket.Operation.exists_gate_of_read ho
    exact ⟨_, hgrows⟩
  | ionq d =>
    refine .of_extends (Circuit.foldlM_extends id (fun o _ _ _ ho => ?_) (IonQ.run_of_decode h))
      rfl rfl
    obtain ⟨_, _, g, -, -, -, hgrows⟩ := IonQ.Operation.exists_gate_of_read ho
    exact ⟨_, hgrows⟩
  | qasm version source =>
    obtain ⟨program, -, h⟩ := bind_eq_ok_iff.mp h
    split_ifs at h
    rw [Qasm.liftConvert_eq_ok_iff] at h
    obtain ⟨env, -, h⟩ := bind_eq_ok_iff.mp h
    obtain ⟨state, hrun, h⟩ := bind_eq_ok_iff.mp h
    cases h
    exact .of_extends (Circuit.foldlM_extends Prod.snd
      (fun s _ _ _ hs => Qasm.extends_of_applyStatement hs) hrun) rfl rfl

end Interchange
