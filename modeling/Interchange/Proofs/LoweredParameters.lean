import Interchange.Proofs.LoweringCoverage
import Interchange.Proofs.NormalParam
import Interchange.Proofs.RegisteredCircuit

namespace Interchange

variable {F : Type} [Scalar F] {R : Handle → Prop}

def Substitute.Draws (R : Handle → Prop) (x : Except (CircuitError F) (Substitute F)) : Prop :=
  Returns x fun s => ∀ p ∈ s.gate.params, p.RefsAll R

namespace Gate.IsBuilt

variable {g : Gate F}

theorem isAdmissible (h : g.IsBuilt) : ∀ p ∈ g.params, p.isAdmissible = true := by
  obtain ⟨params, g', hnew, hparams⟩ := h
  obtain ⟨-, -, hadmissible, rfl⟩ := new_eq_ok_iff.mp hnew
  rwa [hparams]

/-- Without bindings, all gates of tags are settled where free parameters are allowed. -/
theorem settled (h : g.IsBuilt) {table : GateTable} (hfree : table.freeParameters = true) :
    g.Settled table {} :=
  ⟨h.tag_ne, h.length_params, fun p hp =>
    ⟨h.isAdmissible p hp, Param.refsAll_of_forall (fun _ => rfl) p, .inl hfree⟩⟩

end Gate.IsBuilt

namespace Substitute

theorem draws_new (tag : Tag) {params : List (Param F)} (ops : List ℕ)
    (h : ∀ p ∈ params, p.RefsAll R) : Draws R (new tag params ops) := by
  intro s hs
  obtain ⟨g, hg, hs⟩ := bind_eq_ok_iff.mp hs
  obtain rfl := Except.ok.inj hs
  exact Gate.refsAll_of_new hg h

theorem draws_fixed (tag : Tag) (ops : List ℕ) :
    Draws R (fixed tag ops : Except _ (Substitute F)) :=
  draws_new tag ops fun _ hp => absurd hp List.not_mem_nil

theorem draws_turn (tag : Tag) (q : ℕ) {angle : Param F} (h : angle.RefsAll R) :
    Draws R (turn tag angle q) := draws_new tag [q] (List.forall_mem_singleton.mpr h)

end Substitute

namespace Synthesis
open Substitute

/-- A rule uses the parameters of the gate and no others. -/
theorem rule?_draws {tag : Tag} {params : List (Param F)}
    {steps : List (Except (CircuitError F) (Substitute F))} (h : rule? tag params = some steps)
    (hparams : ∀ p ∈ params, p.RefsAll R) : ∀ x ∈ steps, Draws R x := by
  have hconst (v : F) : (Param.const v).RefsAll R := trivial
  have hhalved {p : Param F} (hp : p ∈ params) : (halved p).RefsAll R :=
    (hparams p hp).quotient trivial
  have hopposite {p : Param F} (hp : p ∈ params) : (-halved p).RefsAll R := (hhalved hp).opposite
  unfold rule? at h
  dsimp only at h
  split at h
  case h_18 => cases h
  all_goals
    obtain rfl := Option.some.inj h
    simp [draws_fixed, draws_turn, hconst, hparams, hhalved, hopposite, controlledTurn, zzRotation,
      onBoth, toffoli]

/-- A replacement uses the free parameters of the gate and no others. -/
theorem refsAll_of_decompose [Eigensolver F] {tolerance : F} {g : Gate F}
    (hparams : ∀ p ∈ g.params, p.RefsAll R) {seq : Sequence F}
    (h : decompose tolerance g = .ok seq) : ∀ s ∈ seq, ∀ p ∈ s.gate.params, p.RefsAll R :=
  decompose_forall (fun tag _ _ q => draws_turn tag q trivial) (draws_fixed .cx)
    (fun _ hrule => rule?_draws hrule hparams) tolerance seq h

end Synthesis

namespace Lowering

variable {table : GateTable} {tolerance : F}

theorem isMade_of_bindFor {b : Bindings F} {g g' : Gate F} (hg : g.IsMade)
    (hparams : ∀ p ∈ g.params, p.RefsAll R) (h : bindFor table b g = .ok g') :
    g'.IsMade ∧ ∀ p ∈ g'.params, p.RefsAll R := by
  obtain ⟨bound, hbound, h⟩ := bind_eq_ok_iff.mp h
  rw [ConvertError.lift_eq_ok_iff, Gate.substitute] at hbound
  split at h
  · cases h
  obtain rfl := Except.ok.inj h
  split_ifs at hbound
  · refine ⟨.inl (Gate.isBuilt_of_new hbound), Gate.refsAll_of_new hbound fun p hp => ?_⟩
    obtain ⟨q, hq, rfl⟩ := List.mem_map.mp hp
    exact Param.refsAll_substitute.mpr ((hparams q hq).mono fun _ hr _ => hr)
  · obtain rfl := Except.ok.inj hbound
    exact ⟨hg, hparams⟩

/-- Lowering brings in no free parameters. -/
theorem isMade_of_instruction [Eigensolver F] {b : Bindings F} {levels : ℕ} {i : Instruction F}
    {out : List (Instruction F)} (hi : i.gate.IsMade) (hparams : ∀ p ∈ i.gate.params, p.RefsAll R)
    (h : instruction table b tolerance levels i = .ok out) :
    ∀ j ∈ out, j.gate.IsMade ∧ ∀ p ∈ j.gate.params, p.RefsAll R := by
  induction levels using Nat.strong_induction_on generalizing i out with
  | _ levels ih =>
    rcases instruction_cases h with ⟨-, rfl⟩ | ⟨-, g, hg, hcases⟩
    · split_ifs
      · exact fun j hj => absurd hj List.not_mem_nil
      · exact List.forall_mem_singleton.mpr ⟨hi, hparams⟩
    obtain ⟨hmade, hdrawn⟩ := isMade_of_bindFor hi hparams hg
    rcases hcases with
      ⟨-, j, hj, rfl⟩ | ⟨-, rest, seq, placed, outs, rfl, hseq, hplaced, houts, rfl⟩
    · obtain ⟨-, rfl⟩ := Instruction.withGate_eq_ok_iff.mp hj
      exact List.forall_mem_singleton.mpr ⟨hmade, hdrawn⟩
    · have hrefs := Synthesis.refsAll_of_decompose hdrawn hseq
      intro j hj
      obtain ⟨out, hout, hj⟩ := List.mem_flatten.mp hj
      obtain ⟨k, hk, hkout⟩ := exists_of_forall₂_right (mapM_eq_ok_iff.mp houts) hout
      obtain ⟨s, hs, hplace⟩ := exists_of_forall₂_right (mapM_eq_ok_iff.mp hplaced) hk
      obtain ⟨-, -, -, rfl⟩ := Substitute.place_eq_ok_iff.mp hplace
      obtain ⟨tag, -, params, hnew⟩ := Synthesis.decompose_allCore tolerance g seq hseq s hs
      exact ih rest (Nat.lt_succ_self rest) (.inl (Gate.isBuilt_of_new hnew)) (hrefs s hs) hkout
        j hj

/-- A lowered circuit has the registry of the circuit, and its parameters are registered there. -/
theorem registered_circuit [Eigensolver F] {b : Bindings F} {P : String → Prop} {r : Registry}
    {c c' : Circuit F}
    (hc : c.Registered P r) (h : circuit table b tolerance c = .ok c') : c'.Registered P r := by
  have hw := circuit_wellFormed hc.wellFormed h
  obtain ⟨outs, houts, -, rfl⟩ := circuit_eq_ok_iff.mp h
  have hall : ∀ j ∈ outs.flatten,
      j.gate.IsMade ∧ ∀ p ∈ j.gate.params, p.RefsAll (r.Known P) := by
    intro j hj
    obtain ⟨out, hout, hj⟩ := List.mem_flatten.mp hj
    obtain ⟨i, hi, hiout⟩ := exists_of_forall₂_right (mapM_eq_ok_iff.mp houts) hout
    exact isMade_of_instruction (hc.made i hi)
      (fun p hp => hc.known p (List.mem_flatMap.mpr ⟨i, hi, hp⟩)) hiout j hj
  refine ⟨hc.registry_eq, hc.nodup, hw, fun j hj => (hall j hj).1, fun p hp => ?_⟩
  obtain ⟨j, hj, hp⟩ := List.mem_flatMap.mp hp
  exact (hall j hj).2 p hp

section Table

variable [FiniteAngles F] (hfree : table.freeParameters = true)
  (hcore : ∀ tag ∈ Tag.commonCore, table.supports tag = true)
  (hunitary : table.supports .unitary = true)

include hfree hcore hunitary

/-- Gates of tags and of matrices can all be lowered. -/
theorem exists_instruction_of_isMade [Eigensolver F] {n levels : ℕ} {i : Instruction F}
    (hi : i.gate.IsMade)
    (hw : i.WellFormed n) : ∃ out, instruction table {} tolerance (levels + 1) i = .ok out := by
  cases hm : i.isMeasure with
  | true => exact ⟨_, instruction_of_isMeasure hm⟩
  | false =>
    rcases hi with hbuilt | ⟨m, hgate⟩
    · obtain ⟨g, hg, -, hsettled⟩ := exists_bindFor_of_settled (hbuilt.settled hfree)
      exact exists_instruction hcore hw hm hg hsettled
    · have htag : i.gate.tag = .unitary := Gate.tag_of_ofMatrix hgate
      have hbind : bindFor table {} i.gate = .ok i.gate := by
        refine bindFor_of_not_parameterized ?_
        rw [Gate.eq_of_ofMatrix hgate]
        rfl
      have hwith : i.withGate i.gate = .ok i :=
        Instruction.withGate_eq_ok_iff.mpr ⟨⟨hw.length_eq, hw.nodup⟩, rfl⟩
      unfold instruction
      simp only [hm, hbind, htag, hunitary, hwith, ConvertError.lift, bind, Except.bind]
      exact ⟨_, rfl⟩

theorem exists_circuit_of_registered [Eigensolver F] {P : String → Prop} {r : Registry}
    {c : Circuit F}
    (hc : c.Registered P r) : ∃ c', circuit table {} tolerance c = .ok c' :=
  exists_circuit_of_forall hc.wellFormed fun i hi =>
    exists_instruction_of_isMade hfree hcore hunitary (hc.made i hi) (hc.wellFormed i hi)

end Table

end Lowering

end Interchange
