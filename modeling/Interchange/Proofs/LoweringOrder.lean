import Interchange.Proofs.LoweringTarget

namespace Interchange

def Circuit.only {F : Type} (c : Circuit F) (i : Instruction F) : Circuit F :=
  { c with instructions := [i] }

namespace Lowering

variable {F : Type} [Scalar F] [Eigensolver F] {table : GateTable} {b : Bindings F} {tolerance : F}
  {c : Circuit F}

/-- What an instruction in range becomes is in range, so a circuit of one instruction is lowered
whenever the instruction is. -/
theorem circuit_only {i : Instruction F} (hi : ∀ q ∈ i.qubits, q < c.qubits) :
    circuit table b tolerance (c.only i) = (do
      let out ← instruction table b tolerance maxDepth i
      return { c with instructions := out }) := by
  rw [circuit_eq, Circuit.only, List.mapM_cons, List.mapM_nil]
  cases hout : instruction table b tolerance maxDepth i with
  | error e => rfl
  | ok out =>
    refine ConvertError.lift_eq_ok_iff.mpr (Circuit.withInstructions_eq_ok_iff.mpr ⟨?_, ?_⟩)
    · rw [List.flatten_singleton]
      exact fun j hj q hq => hi q (mem_qubits_of_instruction hout j hj q hq)
    · rw [List.flatten_singleton]

theorem mapM_circuit_only {is : List (Instruction F)}
    (his : ∀ i ∈ is, ∀ q ∈ i.qubits, q < c.qubits) :
    is.mapM (fun i => circuit table b tolerance (c.only i)) = (do
      let outs ← is.mapM (instruction table b tolerance maxDepth)
      return outs.map fun out => { c with instructions := out }) := by
  induction is with
  | nil => rfl
  | cons i is ih =>
    obtain ⟨hi, his⟩ := List.forall_mem_cons.mp his
    rw [List.mapM_cons, List.mapM_cons, circuit_only hi, ih his]
    simp only [bind_assoc, pure_bind, List.map_cons]

/-- A circuit is lowered by lowering its instructions one by one, each in a circuit of its own. -/
theorem circuit_eq_mapM_only (hc : ∀ i ∈ c.instructions, ∀ q ∈ i.qubits, q < c.qubits) :
    circuit table b tolerance c = (do
      let parts ← c.instructions.mapM fun i => circuit table b tolerance (c.only i)
      return { c with instructions := parts.flatMap (·.instructions) }) := by
  rw [circuit_eq, mapM_circuit_only hc, bind_assoc]
  cases houts : c.instructions.mapM (instruction table b tolerance maxDepth) with
  | error e => rfl
  | ok outs =>
    refine ConvertError.lift_eq_ok_iff.mpr (Circuit.withInstructions_eq_ok_iff.mpr ⟨?_, ?_⟩)
    · intro j hj q hq
      obtain ⟨i, hi, out, hiout, hj⟩ := exists_of_mem_flatten houts hj
      exact hc i hi q (mem_qubits_of_instruction hiout j hj q hq)
    · rw [List.flatMap_map, List.flatMap_id']

/-- Lowering works instruction by instruction and in order, on a circuit whose instructions stay in
its register. It succeeds exactly if it succeeds on every instruction alone. The result has what the
instructions become alone, one after the other. An error is that of the first instruction that
fails alone. -/
theorem circuit_instructionwise (table : GateTable) (b : Bindings F) (tolerance : F) (c : Circuit F)
    (hc : ∀ i ∈ c.instructions, ∀ q ∈ i.qubits, q < c.qubits) :
    ((∃ c', circuit table b tolerance c = .ok c') ↔
      ∀ i ∈ c.instructions, ∃ d, circuit table b tolerance (c.only i) = .ok d) ∧
    (∀ c', circuit table b tolerance c = .ok c' ↔
      ∃ parts, List.Forall₂ (fun i d => circuit table b tolerance (c.only i) = .ok d)
          c.instructions parts ∧
        c' = { c with instructions := parts.flatMap (·.instructions) }) ∧
    (∀ e, circuit table b tolerance c = .error e ↔
      ∃ before i after, c.instructions = before ++ i :: after ∧
        (∀ j ∈ before, ∃ d, circuit table b tolerance (c.only j) = .ok d) ∧
        circuit table b tolerance (c.only i) = .error e) := by
  have hok (c' : Circuit F) : circuit table b tolerance c = .ok c' ↔
      ∃ parts, List.Forall₂ (fun i d => circuit table b tolerance (c.only i) = .ok d)
          c.instructions parts ∧
        c' = { c with instructions := parts.flatMap (·.instructions) } := by
    rw [circuit_eq_mapM_only hc, bind_eq_ok_iff]
    simp only [mapM_eq_ok_iff]
    exact exists_congr fun parts => and_congr_right fun _ =>
      ⟨fun h => (Except.ok.inj h).symm, fun h => congrArg Except.ok h.symm⟩
  refine ⟨⟨?_, fun h => ?_⟩, hok, fun e => ?_⟩
  · rintro ⟨c', h⟩ i hi
    obtain ⟨parts, hparts, -⟩ := (hok c').mp h
    obtain ⟨d, -, hd⟩ := exists_of_forall₂_left hparts hi
    exact ⟨d, hd⟩
  · obtain ⟨parts, hparts⟩ := exists_mapM_eq_ok h
    exact ⟨_, (hok _).mpr ⟨parts, mapM_eq_ok_iff.mp hparts, rfl⟩⟩
  · rw [circuit_eq_mapM_only hc, bind_eq_error_iff, mapM_eq_error_iff]
    refine or_iff_left ?_
    rintro ⟨parts, -, ⟨⟩⟩

/-- A replaced gate, then two turns by free parameters. -/
def freeTurns : Circuit Float where
  qubits := 2
  clbits := 0
  instructions :=
    [.fixed .iswap [1, 0], ⟨⟨.rx, [.ref ⟨0, "alpha"⟩], none⟩, [0], []⟩,
      ⟨⟨.rx, [.ref ⟨1, "beta"⟩], none⟩, [1], []⟩]
  registry := ⟨["alpha", "beta"]⟩

theorem circuit_instructionwise_freeTurns :
    (∀ i ∈ freeTurns.instructions, ∀ q ∈ i.qubits, q < freeTurns.qubits) ∧
      (∃ d, circuit IonQ.table ⟨[]⟩ 1e-7 (freeTurns.only (.fixed .iswap [1, 0])) = .ok d) ∧
      circuit IonQ.table ⟨[]⟩ 1e-7 freeTurns = .error (.unboundParameter .ionq "alpha") := by
  have hrange : ∀ i ∈ freeTurns.instructions, ∀ q ∈ i.qubits, q < freeTurns.qubits := by decide
  have hfirst : ∃ d, circuit IonQ.table ⟨[]⟩ 1e-7 (freeTurns.only (.fixed .iswap [1, 0])) = .ok d :=
    ⟨_, rfl⟩
  obtain ⟨-, -, herror⟩ := circuit_instructionwise IonQ.table ⟨[]⟩ 1e-7 freeTurns hrange
  refine ⟨hrange, hfirst, (herror _).mpr ⟨[_], _, [_], rfl, ?_, rfl⟩⟩
  exact List.forall_mem_singleton.mpr hfirst

end Lowering

end Interchange
