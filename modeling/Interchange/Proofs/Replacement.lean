import Interchange.Proofs.CircuitMatrix
import Interchange.Proofs.Construction
import Interchange.Synthesis.Decompose

namespace Interchange

variable {F : Type} [Scalar F]

/-- A gate of the common core, as its constructor builds it. -/
def Substitute.IsCore (s : Substitute F) : Prop :=
  ∃ tag ∈ Tag.commonCore, ∃ params, Gate.new tag params = .ok s.gate

namespace Substitute

theorem new_isCore {tag : Tag} (ht : tag ∈ Tag.commonCore) (params : List (Param F))
    (ops : List ℕ) : Returns (new tag params ops) IsCore := by
  intro s h
  obtain ⟨g, hg, hs⟩ := bind_eq_ok_iff.mp h
  obtain rfl := Except.ok.inj hs
  exact ⟨tag, ht, params, hg⟩

theorem fixed_isCore {tag : Tag} (ht : tag ∈ Tag.commonCore) (ops : List ℕ) :
    Returns (fixed tag ops : Except _ (Substitute F)) IsCore := new_isCore ht _ _

theorem turn_isCore {tag : Tag} (ht : tag ∈ Tag.commonCore) (angle : Param F) (q : ℕ) :
    Returns (turn tag angle q) IsCore := new_isCore ht _ _

end Substitute

namespace Synthesis
open Substitute

theorem rule?_isCore {tag : Tag} {params : List (Param F)}
    {steps : List (Except (CircuitError F) (Substitute F))} (h : rule? tag params = some steps) :
    ∀ x ∈ steps, Returns x IsCore := by
  unfold rule? at h
  dsimp only at h
  split at h
  case h_18 => cases h
  all_goals
    obtain rfl := Option.some.inj h
    simp (disch := decide) [fixed_isCore, turn_isCore, controlledTurn, zzRotation, onBoth, toffoli]

def Sequence.AllCore (seq : Sequence F) : Prop := ∀ s ∈ seq, s.IsCore

theorem closedForm_forall {P : Substitute F → Prop} {g : Gate F} {seq : Sequence F}
    (hrule : ∀ steps, rule? g.tag g.params = some steps → ∀ x ∈ steps, Returns x P)
    (h : closedForm g = .ok (some seq)) : ∀ s ∈ seq, P s := by
  unfold closedForm at h
  split at h
  · cases h
  next steps hsteps =>
    obtain ⟨out, hout, hseq⟩ := bind_eq_ok_iff.mp h
    obtain rfl := Option.some.inj (Except.ok.inj hseq)
    intro s hs
    obtain ⟨x, hx, hxs⟩ := exists_of_forall₂_right (mapM_eq_ok_iff.mp hout) hs
    exact hrule steps hsteps x hx s hxs

theorem closedForm_allCore {g : Gate F} {seq : Sequence F} (h : closedForm g = .ok (some seq)) :
    seq.AllCore := closedForm_forall (fun _ => rule?_isCore) h

theorem rotation_isCore {tag : Tag} (ht : tag ∈ Tag.commonCore) (angle : F) (q : ℕ) :
    Returns (rotation tag angle q) IsCore := turn_isCore ht _ _

end Synthesis

section Numeric

-- a numeric synthesis writes turns by numbers and CNOTs
variable {P : Substitute F → Prop}
  (hrotation : ∀ tag ∈ Tag.commonCore, ∀ (angle : F) (q : ℕ),
    Returns (Substitute.rotation tag angle q) P)
  (hcx : ∀ ops : List ℕ, Returns (Substitute.fixed .cx ops) P)

namespace Synthesis

include hrotation in
theorem eulerSequence_forall (u : Unitary2 F) (q : ℕ) :
    Returns (eulerSequence u q) fun seq => ∀ s ∈ seq, P s := by
  have hrz := hrotation .rz (by decide)
  have hry := hrotation .ry (by decide)
  unfold eulerSequence
  dsimp only
  split
  · refine (hrz _ q).bind fun s hs => .ok ?_
    simpa using hs
  · refine (hrz _ q).bind fun s hs => (hry _ q).bind fun t ht => (hrz _ q).bind fun r hr => .ok ?_
    simp [hs, ht, hr]

include hrotation in
theorem oneQubit_forall (tolerance : F) (u : Unitary2 F) :
    Returns (oneQubit tolerance u) fun seq => ∀ s ∈ seq, P s := by
  unfold oneQubit
  split
  · refine (hrotation .rz (by decide) _ 0).bind fun s hs => .ok ?_
    simpa using hs
  · exact eulerSequence_forall hrotation u 0

end Synthesis

namespace Kak
open Synthesis

include hrotation hcx

theorem interaction_forall (a b c : F) :
    Returns (interaction a b c) fun seq => ∀ s ∈ seq, P s := by
  have hrz := hrotation .rz (by decide)
  have hry := hrotation .ry (by decide)
  unfold interaction
  refine (hrz _ 1).bind fun _ h₁ => (hcx _).bind fun _ h₂ => (hrz _ 0).bind fun _ h₃ =>
    (hry _ 1).bind fun _ h₄ => (hcx _).bind fun _ h₅ => (hry _ 1).bind fun _ h₆ =>
      (hcx _).bind fun _ h₇ => (hrz _ 0).bind fun _ h₈ => .ok ?_
  simp [h₁, h₂, h₃, h₄, h₅, h₆, h₇, h₈]

theorem gates_forall (k : Kak F) : Returns k.gates fun seq => ∀ s ∈ seq, P s := by
  have heuler := eulerSequence_forall hrotation
  have happend {xs ys : Sequence F} (hx : ∀ s ∈ xs, P s) (hy : ∀ s ∈ ys, P s) :
      ∀ s ∈ xs ++ ys, P s := List.forall_mem_append.mpr ⟨hx, hy⟩
  unfold gates
  split
  · exact (heuler _ 0).bind fun _ h₁ => (heuler _ 1).bind fun _ h₂ => .ok (happend h₁ h₂)
  · refine (heuler _ 0).bind fun _ h₁ => (heuler _ 1).bind fun _ h₂ =>
      (interaction_forall hrotation hcx _ _ _).bind fun _ h₃ => (heuler _ 0).bind fun _ h₄ =>
        (heuler _ 1).bind fun _ h₅ => .ok ?_
    exact happend (happend (happend (happend h₁ h₂) h₃) h₄) h₅

theorem sequence_forall [Eigensolver F] (u : Operator F) : Returns
    (sequence u) fun seq => ∀ s ∈ seq, P s := by
  intro seq h
  obtain ⟨k, -, hk⟩ := bind_eq_ok_iff.mp h
  exact gates_forall hrotation hcx k seq (SynthesisError.lift_eq_ok_iff.mp hk)

end Kak

namespace Synthesis

include hrotation hcx

theorem fromMatrix_forall [Eigensolver F] (tolerance : F) (g : Gate F) (m : Operator F) :
    Returns (fromMatrix tolerance g m) fun seq => ∀ s ∈ seq, P s := by
  unfold fromMatrix
  split
  · split
    · intro seq h
      exact oneQubit_forall hrotation tolerance _ seq (SynthesisError.lift_eq_ok_iff.mp h)
    · exact .error _ _
  · split
    · exact .error _ _
    · exact Kak.sequence_forall hrotation hcx m
  · exact .error _ _

/-- What the steps of the gate's rule and of a numeric synthesis have, all gates of its replacement
have. -/
theorem decompose_forall [Eigensolver F] {g : Gate F}
    (hrule : ∀ steps, rule? g.tag g.params = some steps → ∀ x ∈ steps, Returns x P)
    (tolerance : F) : Returns (decompose tolerance g) fun seq => ∀ s ∈ seq, P s := by
  intro seq h
  obtain ⟨found, hfound, h⟩ := bind_eq_ok_iff.mp h
  rw [SynthesisError.lift_eq_ok_iff] at hfound
  cases found with
  | some out =>
    obtain rfl := Except.ok.inj h
    exact closedForm_forall hrule hfound
  | none =>
    dsimp only at h
    split at h
    · cases h
    · exact fromMatrix_forall hrotation hcx tolerance g _ seq h

end Synthesis

end Numeric

namespace Synthesis
open Substitute

theorem decompose_allCore [Eigensolver F] (tolerance : F) (g : Gate F) :
    Returns (decompose tolerance g) Sequence.AllCore :=
  decompose_forall (fun _ ht => rotation_isCore ht) (fixed_isCore (by decide))
    (fun _ => rule?_isCore) tolerance

end Synthesis

end Interchange

noncomputable section
namespace Interchange

/-- The solver that runs, on exact numbers. -/
@[reducible] def Eigensolver.mixed : Eigensolver ℝ := ⟨Synthesis.mixedEigenbasis?⟩

namespace Substitute

variable {F : Type}

theorem operand_eq_ok_iff {g : Gate F} {qs : List ℕ} {p q : ℕ} :
    operand g qs p = .ok q ↔ qs[p]? = some q := by
  unfold operand
  split <;> simp_all

theorem operands_eq_ok_iff {g : Gate F} {qs ops out : List ℕ} :
    ops.mapM (operand g qs) = .ok out ↔ (∀ p ∈ ops, p < qs.length) ∧ out = compose qs ops := by
  rw [mapM_eq_ok_iff]
  simp only [operand_eq_ok_iff]
  induction ops generalizing out with
  | nil => simp [compose]
  | cons p ops ih =>
    rw [List.forall₂_cons_left_iff, List.forall_mem_cons]
    constructor
    · rintro ⟨q, rest, hq, hrest, rfl⟩
      obtain ⟨hlt, rfl⟩ := ih.mp hrest
      obtain ⟨hp, rfl⟩ := List.getElem?_eq_some_iff.mp hq
      exact ⟨⟨hp, hlt⟩, by simp [compose, hp]⟩
    · rintro ⟨⟨hp, hlt⟩, rfl⟩
      exact ⟨qs[p], compose qs ops, List.getElem?_eq_getElem hp, ih.mpr ⟨hlt, rfl⟩,
        by simp [compose, hp]⟩

/-- A substitute is placed when its operands are different positions in the list of qubits, as many
as its gate takes. -/
theorem place_eq_ok_iff {s : Substitute F} {qs : List ℕ} {j : Instruction F} :
    s.place qs = .ok j ↔
      (∀ p ∈ s.operands, p < qs.length) ∧ s.operands.length = s.gate.qubits ∧
        (compose qs s.operands).Nodup ∧ j = ⟨s.gate, compose qs s.operands, []⟩ := by
  rw [place, bind_eq_ok_iff]
  constructor
  · rintro ⟨out, hops, hj⟩
    obtain ⟨hlt, rfl⟩ := operands_eq_ok_iff.mp hops
    obtain ⟨⟨hlen, hnodup⟩, rfl⟩ := Instruction.new_eq_ok_iff.mp hj
    exact ⟨hlt, by rwa [compose, List.length_map] at hlen, hnodup, rfl⟩
  · rintro ⟨hlt, hlen, hnodup, rfl⟩
    refine ⟨_, operands_eq_ok_iff.mpr ⟨hlt, rfl⟩, Instruction.new_eq_ok_iff.mpr ⟨⟨?_, hnodup⟩, rfl⟩⟩
    rwa [compose, List.length_map]

end Substitute

/-- A gate of the common core that has a matrix acts, and no binding changes it. -/
theorem Substitute.IsCore.acts {s : Substitute ℝ} {m : Operator ℝ} (h : s.IsCore)
    (hm : s.gate.matrix = some m) : s.gate.tag ≠ .measure ∧ s.gate.isParameterized = false := by
  obtain ⟨tag, ht, params, hnew⟩ := h
  refine ⟨?_, Gate.isParameterized_of_new hnew hm⟩
  rw [Gate.tag_of_new hnew]
  rintro rfl
  simp [Tag.commonCore] at ht

namespace Synthesis

def Sequence.actions (seq : Sequence ℝ) : List (Gate ℝ × List ℕ) :=
  seq.map fun s => (s.gate, s.operands)

/-- A sequence multiplies out to the matrix of a gate up to a global phase. -/
def Realizes (seq : Sequence ℝ) (g : Gate ℝ) : Prop :=
  ∃ (m : Operator ℝ) (z : ℂ), g.matrix = some m ∧ ‖z‖ = 1 ∧
    timeProduct g.qubits (Sequence.actions seq) = some (z • m.toMatrix g.qubits)

/-- A placed sequence acts on the register as the sequence does on its own qubits. -/
theorem timeProduct_placed {n : ℕ} {qs : List ℕ} (hq : QubitList n qs.length qs)
    {seq : Sequence ℝ} (hcore : Sequence.AllCore seq) {placed : List (Instruction ℝ)}
    (hplace : List.Forall₂ (fun s j => s.place qs = .ok j) seq placed)
    {p : QubitMatrix qs.length} (hp : timeProduct qs.length (Sequence.actions seq) = some p) :
    timeProduct n (actions placed) = some (embed n qs p) := by
  induction hplace generalizing p with
  | nil =>
    obtain rfl : 1 = p := Option.some.inj hp
    exact congrArg some (embed_one hq).symm
  | @cons s j seq placed hs _ ih =>
    obtain ⟨m, r, hm, hr, rfl⟩ := timeProduct_cons.mp hp
    obtain ⟨hlt, hlen, hnodup, rfl⟩ := Substitute.place_eq_ok_iff.mp hs
    obtain ⟨hs, hcore⟩ := List.forall_mem_cons.mp hcore
    obtain ⟨hmeasure, -⟩ := hs.acts hm
    have hops : QubitList qs.length s.operands.length s.operands :=
      ⟨rfl, hnodup.of_map, hlt⟩
    rw [actions_gate _ (by simpa [Instruction.isMeasure, Instruction.tag] using hmeasure)]
    refine timeProduct_cons.mpr ⟨m, _, hm, ih hcore hr, ?_⟩
    have hcomp : (compose qs s.operands).length = s.operands.length := List.length_map _
    rw [embed_mul hq, embed_embed hq hops, hcomp]

end Synthesis

end Interchange
end
