import Interchange.Cirq.Encode
import Interchange.Proofs.LoweringTarget
import Interchange.Proofs.NormalParam

namespace Interchange

variable {F : Type} [Scalar F] [FiniteAngles F] {table : GateTable} {b : Bindings F}

namespace Gate

theorem new_of_normal {tag : Tag} {params : List (Param F)} {g : Gate F}
    (h : new tag params = .ok g) (hnormal : ∀ p ∈ g.params, p.Normal b) :
    new g.tag (g.params.map (·.substitute b)) = .ok g := by
  have hsubstitute : g.params.map (·.substitute b) = g.params :=
    (List.map_congr_left fun p hp => (hnormal p hp).substitute_eq).trans (List.map_id _)
  have hsimplify : g.params.map Param.simplify = g.params :=
    (List.map_congr_left fun p hp => (hnormal p hp).simplify_eq).trans (List.map_id _)
  obtain ⟨hu, hl, hadmissible, rfl⟩ := new_eq_ok_iff.mp h
  rw [hsubstitute, new_eq_ok_iff, hsimplify]
  exact ⟨hu, (List.length_map _).trans hl, hadmissible, rfl⟩

/-- Binding leaves nothing for the same bindings to do. -/
theorem substitute_substitute {g g' : Gate F} (h : g.substitute b = .ok g') :
    g'.substitute b = .ok g' := by
  cases hp : g'.isParameterized with
  | false => exact substitute_of_not_parameterized hp b
  | true =>
    rw [substitute] at h
    split_ifs at h with hg
    · rw [substitute, if_pos hp]
      refine new_of_normal h fun p hmem => ?_
      obtain ⟨-, -, -, rfl⟩ := new_eq_ok_iff.mp h
      rw [List.map_map] at hmem
      obtain ⟨q, -, rfl⟩ := List.mem_map.mp hmem
      exact .simplify_substitute q b
    · rw [Except.ok.inj h] at hg
      exact absurd hp hg

end Gate

namespace Lowering

variable {tolerance : F}

theorem bindFor_bindFor {g g' : Gate F} (h : bindFor table b g = .ok g') :
    bindFor table b g' = .ok g' := by
  obtain ⟨bound, hbound, h⟩ := bind_eq_ok_iff.mp h
  split at h
  · cases h
  next hallowed =>
    obtain rfl := Except.ok.inj h
    have hagain := Gate.substitute_substitute (ConvertError.lift_eq_ok_iff.mp hbound)
    refine bind_eq_ok_iff.mpr ⟨bound, ConvertError.lift_eq_ok_iff.mpr hagain, ?_⟩
    rw [if_neg hallowed]
    rfl

/-- What lowering gives is left alone by the same bindings and table, however precise the numeric
synthesis and with any number of levels. -/
theorem instruction_of_mem [Eigensolver F] {levels : ℕ} {i : Instruction F}
    {out : List (Instruction F)}
    (h : instruction table b tolerance levels i = .ok out) :
    ∀ j ∈ out, ∀ tolerance' levels', instruction table b tolerance' levels' j = .ok [j] := by
  induction levels using Nat.strong_induction_on generalizing i out with
  | _ levels ih =>
    intro j hj tolerance' levels'
    rcases instruction_cases h with ⟨hm, rfl⟩ | ⟨hm, g, hg, hcases⟩
    · split_ifs at hj with himplicit
      · exact absurd hj List.not_mem_nil
      · rw [List.mem_singleton.mp hj]
        rw [instruction_of_isMeasure hm, if_neg himplicit]
    rcases hcases with ⟨hs, k, hk, rfl⟩ | ⟨-, rest, seq, placed, outs, rfl, -, -, houts, rfl⟩
    · obtain ⟨hoperands, rfl⟩ := Instruction.withGate_eq_ok_iff.mp hk
      obtain rfl := List.mem_singleton.mp hj
      have hmeasure : ({ i with gate := g } : Instruction F).isMeasure = false := by
        rw [Instruction.isMeasure, Instruction.tag, tag_bindFor hg]
        exact hm
      have hwith : ({ i with gate := g } : Instruction F).withGate g = .ok { i with gate := g } :=
        Instruction.withGate_eq_ok_iff.mpr ⟨hoperands, rfl⟩
      unfold instruction
      simp only [hmeasure, bindFor_bindFor hg, hs, hwith, ConvertError.lift, bind, Except.bind]
      rfl
    · obtain ⟨k, -, out, hkout, hj⟩ := exists_of_mem_flatten houts hj
      exact ih rest (Nat.lt_succ_self rest) hkout j hj tolerance' levels'

/-- Lowering is idempotent: a lowered circuit is lowered to itself, also at another tolerance. -/
theorem circuit_idempotent [Eigensolver F] (table : GateTable) (b : Bindings F)
    (tolerance tolerance' : F)
    (c c' : Circuit F) (h : circuit table b tolerance c = .ok c') :
    circuit table b tolerance' c' = .ok c' := by
  obtain ⟨outs, houts, hrange, rfl⟩ := circuit_eq_ok_iff.mp h
  have hsingle : ∀ j ∈ outs.flatten, instruction table b tolerance' maxDepth j = .ok [j] := by
    intro j hj
    obtain ⟨i, -, out, hiout, hj⟩ := exists_of_mem_flatten houts hj
    exact instruction_of_mem hiout j hj tolerance' maxDepth
  have hagain : outs.flatten.mapM (instruction table b tolerance' maxDepth) =
      .ok (outs.flatten.map fun j => [j]) := by
    rw [mapM_eq_ok_iff, List.forall₂_map_right_iff, List.forall₂_same]
    exact hsingle
  have hflatten : (outs.flatten.map fun j => [j]).flatten = outs.flatten := by
    rw [← List.flatMap_def, List.flatMap_singleton']
  refine circuit_eq_ok_iff.mpr ⟨_, hagain, ?_, ?_⟩
  · rw [hflatten]
    exact hrange
  · rw [hflatten]

/-- A turn by the difference of a bound parameter and a negated free one, a controlled turn that has
to be replaced, and a measurement. -/
def turnBack : Circuit Float where
  qubits := 2
  clbits := 1
  instructions :=
    [⟨⟨.rx, [.sub (.ref ⟨0, "offset"⟩) (.neg (.ref ⟨1, "angle"⟩))], none⟩, [1], []⟩,
      ⟨⟨.crx, [.ref ⟨1, "angle"⟩], none⟩, [1, 0], []⟩, .measure 1 0]
  registry := ⟨["offset", "angle"]⟩

/-- With no offset the first turn comes to be negated twice before it is simplified. -/
theorem circuit_idempotent_turnBack :
    ∃ c', circuit Cirq.table ⟨[("offset", 0.0)]⟩ 1e-7 turnBack = .ok c' ∧
      c'.instructions.head?.map (·.gate.params) = some [.ref ⟨1, "angle"⟩] ∧
      c'.instructions.map (·.gate.tag) = [.rx, .h, .rz, .cx, .rz, .cx, .h, .measure] ∧
      circuit Cirq.table ⟨[("offset", 0.0)]⟩ 1e-7 c' = .ok c' := by
  obtain ⟨c', hc', hfirst, htags⟩ :
      ∃ c', circuit Cirq.table ⟨[("offset", 0.0)]⟩ 1e-7 turnBack = .ok c' ∧
        c'.instructions.head?.map (·.gate.params) = some [.ref ⟨1, "angle"⟩] ∧
        c'.instructions.map (·.gate.tag) = [.rx, .h, .rz, .cx, .rz, .cx, .h, .measure] :=
    ⟨_, rfl, rfl, rfl⟩
  exact ⟨c', hc', hfirst, htags, circuit_idempotent Cirq.table _ 1e-7 1e-7 turnBack c' hc'⟩

end Lowering

end Interchange
