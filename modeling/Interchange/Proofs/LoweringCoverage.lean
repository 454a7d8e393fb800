import Mathlib.Tactic.IntervalCases
import Interchange.Proofs.LoweringTarget

namespace Interchange

variable {F : Type} [Scalar F]

/-- A step of a replacement that succeeds acts on a position. -/
def Substitute.Touches (p : ℕ) (x : Except (CircuitError F) (Substitute F)) : Prop :=
  Returns x fun s => p ∈ s.operands

namespace Substitute

theorem touches_new {p : ℕ} {ops : List ℕ} (hp : p ∈ ops) (tag : Tag) (params : List (Param F)) :
    Touches p (new tag params ops) := by
  intro s h
  obtain ⟨g, -, hs⟩ := bind_eq_ok_iff.mp h
  obtain rfl := Except.ok.inj hs
  exact hp

theorem touches_fixed {p : ℕ} {ops : List ℕ} (hp : p ∈ ops) (tag : Tag) :
    Touches p (fixed tag ops : Except _ (Substitute F)) := touches_new hp _ _

theorem touches_turn (tag : Tag) (angle : Param F) (q : ℕ) : Touches q (turn tag angle q) :=
  touches_new (List.mem_singleton.mpr rfl) _ _

end Substitute

namespace Synthesis
open Substitute

/-- The first `n` positions are all acted on. -/
def Sequence.Covers (n : ℕ) (seq : Sequence F) : Prop := ∀ p < n, ∃ s ∈ seq, p ∈ s.operands

theorem rule?_touches {tag : Tag} {params : List (Param F)}
    {steps : List (Except (CircuitError F) (Substitute F))} (h : rule? tag params = some steps) :
    ∀ p < tag.qubits?.getD 0, ∃ x ∈ steps, Touches p x := by
  unfold rule? at h
  dsimp only at h
  split at h
  case h_18 => cases h
  all_goals
    obtain rfl := Option.some.inj h
    intro p hp
    simp only [Tag.qubits?, Option.getD_some] at hp
    interval_cases p <;>
      simp [touches_fixed, touches_turn, controlledTurn, zzRotation, onBoth, toffoli]

theorem closedForm_covers {g : Gate F} {seq : Sequence F} (h : closedForm g = .ok (some seq)) :
    seq.Covers g.qubits := by
  unfold closedForm at h
  split at h
  · cases h
  next steps hrule =>
    obtain ⟨out, hout, hseq⟩ := bind_eq_ok_iff.mp h
    obtain rfl := Option.some.inj (Except.ok.inj hseq)
    have hu : g.tag ≠ .unitary := by
      intro hu
      rw [hu] at hrule
      cases hrule
    rw [Gate.qubits_of_tag hu]
    intro p hp
    obtain ⟨x, hx, htouches⟩ := rule?_touches hrule p hp
    obtain ⟨s, hs, hxs⟩ := exists_of_forall₂_left (mapM_eq_ok_iff.mp hout) hx
    exact ⟨s, hs, htouches s hxs⟩

theorem touches_rotation (tag : Tag) (angle : F) (q : ℕ) : Touches q (rotation tag angle q) :=
  touches_turn _ _ _

theorem eulerSequence_touches (u : Unitary2 F) (q : ℕ) :
    Returns (eulerSequence u q) fun seq => ∃ s ∈ seq, q ∈ s.operands := by
  unfold eulerSequence
  dsimp only
  split
  · exact (touches_rotation _ _ q).bind fun s hs => .ok ⟨s, List.mem_cons_self, hs⟩
  · exact (touches_rotation _ _ q).bind fun s hs => (touches_rotation _ _ q).bind fun _ _ =>
      (touches_rotation _ _ q).bind fun _ _ => .ok ⟨s, List.mem_cons_self, hs⟩

theorem oneQubit_covers (tolerance : F) (u : Unitary2 F) :
    Returns (oneQubit tolerance u) (Sequence.Covers 1) := by
  have hzero (seq : Sequence F) (h : ∃ s ∈ seq, 0 ∈ s.operands) : seq.Covers 1 := by
    intro p hp
    rwa [Nat.lt_one_iff.mp hp]
  unfold oneQubit
  split
  · exact (touches_rotation _ _ 0).bind fun s hs => .ok (hzero _ ⟨s, List.mem_cons_self, hs⟩)
  · exact fun seq h => hzero seq (eulerSequence_touches u 0 seq h)

end Synthesis

namespace Kak
open Synthesis

theorem gates_covers (k : Kak F) : Returns k.gates (Sequence.Covers 2) := by
  -- the rotations of the local factors act on both qubits, whatever comes after them
  have hboth (u v : Unitary2 F) (left right rest : Sequence F)
      (hleft : eulerSequence u 0 = .ok left) (hright : eulerSequence v 1 = .ok right) :
      (left ++ right ++ rest).Covers 2 := by
    obtain ⟨s, hs, hzero⟩ := eulerSequence_touches u 0 left hleft
    obtain ⟨t, ht, hone⟩ := eulerSequence_touches v 1 right hright
    intro p hp
    interval_cases p
    · exact ⟨s, by simp [hs], hzero⟩
    · exact ⟨t, by simp [ht], hone⟩
  intro seq h
  unfold gates at h
  split at h
  · obtain ⟨left, hleft, h⟩ := bind_eq_ok_iff.mp h
    obtain ⟨right, hright, h⟩ := bind_eq_ok_iff.mp h
    obtain rfl := Except.ok.inj h
    simpa using hboth _ _ _ _ [] hleft hright
  · obtain ⟨left, hleft, h⟩ := bind_eq_ok_iff.mp h
    obtain ⟨right, hright, h⟩ := bind_eq_ok_iff.mp h
    obtain ⟨middle, -, h⟩ := bind_eq_ok_iff.mp h
    obtain ⟨left', -, h⟩ := bind_eq_ok_iff.mp h
    obtain ⟨right', -, h⟩ := bind_eq_ok_iff.mp h
    obtain rfl := Except.ok.inj h
    simpa using hboth _ _ _ _ (middle ++ left' ++ right') hleft hright

end Kak

namespace Synthesis

theorem fromMatrix_covers [Eigensolver F] (tolerance : F) (g : Gate F) (m : Operator F) :
    Returns (fromMatrix tolerance g m) (Sequence.Covers g.qubits) := by
  unfold fromMatrix
  split
  next hone =>
    rw [hone]
    split
    · intro seq h
      exact oneQubit_covers tolerance _ seq (SynthesisError.lift_eq_ok_iff.mp h)
    · exact .error _ _
  next htwo =>
    rw [htwo]
    split
    · exact .error _ _
    · intro seq h
      obtain ⟨k, -, hk⟩ := bind_eq_ok_iff.mp h
      exact Kak.gates_covers k seq (SynthesisError.lift_eq_ok_iff.mp hk)
  · exact .error _ _

/-- A replacement acts on every qubit of the gate. -/
theorem decompose_covers [Eigensolver F] (tolerance : F) (g : Gate F) :
    Returns (decompose tolerance g) (Sequence.Covers g.qubits) := by
  intro seq h
  obtain ⟨found, hfound, h⟩ := bind_eq_ok_iff.mp h
  rw [SynthesisError.lift_eq_ok_iff] at hfound
  cases found with
  | some out =>
    obtain rfl := Except.ok.inj h
    exact closedForm_covers hfound
  | none =>
    dsimp only at h
    split at h
    · cases h
    · exact fromMatrix_covers tolerance g _ seq h

end Synthesis

theorem Gate.qubits_of_substitute {g g' : Gate F} {b : Bindings F} (h : g.substitute b = .ok g') :
    g'.qubits = g.qubits := by
  unfold substitute at h
  split at h
  · have htag := tag_of_new h
    obtain ⟨hu, -⟩ := new_eq_ok_iff.mp h
    rw [qubits_of_tag hu, qubits_of_tag (htag ▸ hu), htag]
  · rw [← Except.ok.inj h]

namespace Lowering

variable {table : GateTable} {b : Bindings F} {tolerance : F} {levels : ℕ} {i : Instruction F}

theorem qubits_bindFor {g g' : Gate F} (h : bindFor table b g = .ok g') : g'.qubits = g.qubits := by
  obtain ⟨bound, hbound, h⟩ := bind_eq_ok_iff.mp h
  split at h
  · cases h
  · obtain rfl := Except.ok.inj h
    exact Gate.qubits_of_substitute (ConvertError.lift_eq_ok_iff.mp hbound)

/-- Lowering acts on every qubit of the instruction, unless it is a measurement that is dropped. -/
theorem exists_mem_qubits_of_instruction [Eigensolver F] {out : List (Instruction F)}
    (hlength : i.qubits.length = i.gate.qubits)
    (hkept : i.isMeasure = true → table.implicitMeasurement = false)
    (h : instruction table b tolerance levels i = .ok out) :
    ∀ q ∈ i.qubits, ∃ j ∈ out, q ∈ j.qubits := by
  induction levels using Nat.strong_induction_on generalizing i out with
  | _ levels ih =>
    intro q hq
    rcases instruction_cases h with ⟨hm, rfl⟩ | ⟨-, g, hg, hcases⟩
    · exact ⟨i, by simp [hkept hm], hq⟩
    rcases hcases with
      ⟨-, j, hj, rfl⟩ | ⟨-, rest, seq, placed, outs, rfl, hseq, hplaced, houts, rfl⟩
    · obtain ⟨-, rfl⟩ := Instruction.withGate_eq_ok_iff.mp hj
      exact ⟨_, List.mem_cons_self, hq⟩
    · -- the replacement acts on the position of the qubit, and its gate is lowered in turn
      obtain ⟨p, hp, rfl⟩ := List.mem_iff_getElem.mp hq
      obtain ⟨s, hs, hops⟩ := Synthesis.decompose_covers tolerance g seq hseq p
        (by rwa [qubits_bindFor hg, ← hlength])
      obtain ⟨k, hk, hplace⟩ := exists_of_forall₂_left (mapM_eq_ok_iff.mp hplaced) hs
      obtain ⟨out, hout, hkout⟩ := exists_of_forall₂_left (mapM_eq_ok_iff.mp houts) hk
      have hgate : k.isMeasure = false := isMeasure_of_placed hseq hplaced k hk
      obtain ⟨-, hlen, -, rfl⟩ := Substitute.place_eq_ok_iff.mp hplace
      obtain ⟨j, hj, hmem⟩ := ih rest (Nat.lt_succ_self rest) ((List.length_map _).trans hlen)
        (fun hm => by simp [hgate] at hm) hkout _
        (List.mem_map.mpr ⟨p, hops, List.getD_eq_getElem _ _ hp⟩)
      exact ⟨j, List.mem_flatten.mpr ⟨out, hout, hj⟩, hmem⟩

variable {c c' : Circuit F}

theorem circuit_wellFormed [Eigensolver F] (hw : c.WellFormed)
    (h : circuit table b tolerance c = .ok c') :
    c'.WellFormed := by
  have hoperands : ∀ j ∈ c'.instructions, j.qubits.length = j.gate.qubits ∧ j.qubits.Nodup := by
    refine forall_mem_circuit (P := fun j => j.qubits.length = j.gate.qubits ∧ j.qubits.Nodup)
      (fun _ hj => ?_) (fun _ hj => ?_) (fun i hi => ⟨(hw i hi).length_eq, (hw i hi).nodup⟩) h
    · obtain ⟨hchecked, rfl⟩ := Instruction.withGate_eq_ok_iff.mp hj
      exact hchecked
    · obtain ⟨-, hlen, hnodup, rfl⟩ := Substitute.place_eq_ok_iff.mp hj
      exact ⟨(List.length_map _).trans hlen, hnodup⟩
  obtain ⟨outs, -, hrange, rfl⟩ := circuit_eq_ok_iff.mp h
  exact fun j hj => ⟨(hoperands j hj).1, (hoperands j hj).2, hrange j hj⟩

/-- A lowered circuit acts on the same qubits, save those of measurements that are dropped. -/
theorem exists_mem_qubits_circuit_iff [Eigensolver F] (hw : c.WellFormed)
    (h : circuit table b tolerance c = .ok c') (q : ℕ) :
    (∃ j ∈ c'.instructions, q ∈ j.qubits) ↔ ∃ i ∈ c.instructions, q ∈ i.qubits ∧
      (i.isMeasure = true → table.implicitMeasurement = false) := by
  obtain ⟨outs, houts, -, rfl⟩ := circuit_eq_ok_iff.mp h
  have hforall := mapM_eq_ok_iff.mp houts
  constructor
  · rintro ⟨j, hj, hq⟩
    obtain ⟨out, hout, hj⟩ := List.mem_flatten.mp hj
    obtain ⟨i, hi, hiout⟩ := exists_of_forall₂_right hforall hout
    refine ⟨i, hi, mem_qubits_of_instruction hiout j hj q hq, fun hm => ?_⟩
    rcases instruction_cases hiout with ⟨-, rfl⟩ | ⟨hgate, -⟩
    · by_contra himplicit
      simp [himplicit] at hj
    · rw [hm] at hgate
      cases hgate
  · rintro ⟨i, hi, hq, hkept⟩
    obtain ⟨out, hout, hiout⟩ := exists_of_forall₂_left hforall hi
    obtain ⟨j, hj, hq⟩ := exists_mem_qubits_of_instruction (hw i hi).length_eq hkept hiout q hq
    exact ⟨j, List.mem_flatten.mpr ⟨out, hout, hj⟩, hq⟩

end Lowering

end Interchange
