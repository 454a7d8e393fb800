import Interchange.Gate.Basic

namespace Interchange

/-- A gate on an ordered list of qubits, with the classical bits that a measurement writes. -/
structure Instruction (F : Type) where
  gate : Gate F
  qubits : List Nat
  clbits : List Nat

namespace Instruction

variable {F : Type} [Scalar F]

instance : BEq (Instruction F) :=
  ⟨fun a b => a.gate == b.gate && a.qubits == b.qubits && a.clbits == b.clbits⟩

/-- The first element that stands earlier in the list too. -/
def firstRepeated? (seen : List Nat) : List Nat → Option Nat
  | [] => none
  | q :: qs => if seen.contains q then some q else firstRepeated? (seen ++ [q]) qs

theorem firstRepeated?_eq_none_iff (seen qs : List Nat) :
    firstRepeated? seen qs = none ↔ qs.Nodup ∧ ∀ q ∈ qs, q ∉ seen := by
  induction qs generalizing seen with
  | nil => simp [firstRepeated?]
  | cons q qs ih =>
    by_cases h : q ∈ seen
    · simp [firstRepeated?, h]
    · simp only [firstRepeated?, List.contains_iff_mem, h, ↓reduceIte, ih,
        List.nodup_cons, List.mem_append, List.mem_cons, List.not_mem_nil, or_false, not_or,
        forall_eq_or_imp, not_false_eq_true, true_and]
      constructor
      · rintro ⟨hn, hs⟩
        exact ⟨⟨fun hq => (hs q hq).2 rfl, hn⟩, fun r hr => (hs r hr).1⟩
      · rintro ⟨⟨hq, hn⟩, hs⟩
        exact ⟨hn, fun r hr => ⟨hs r hr, fun e => hq (e ▸ hr)⟩⟩

/-- A gate takes as many qubits as it acts on, all different. -/
def checkOperands (g : Gate F) (qubits : List Nat) : Except (CircuitError F) Unit :=
  if qubits.length ≠ g.qubits then .error (.qubitCount g.tag g.qubits qubits.length)
  else match firstRepeated? [] qubits with
    | some q => .error (.duplicateQubit q g.tag)
    | none => .ok ()

def new (g : Gate F) (qubits : List Nat) : Except (CircuitError F) (Instruction F) := do
  checkOperands g qubits
  return ⟨g, qubits, []⟩

def apply (tag : Tag) (params : List (Param F)) (qubits : List Nat) :
    Except (CircuitError F) (Instruction F) := do
  new (← Gate.new tag params) qubits

def measure (qubit clbit : Nat) : Instruction F := ⟨.measure, [qubit], [clbit]⟩

def tag (i : Instruction F) : Tag := i.gate.tag

def isMeasure (i : Instruction F) : Bool := i.tag == .measure

def remap (i : Instruction F) (f : Nat → Nat) : Except (CircuitError F) (Instruction F) := do
  checkOperands i.gate (i.qubits.map f)
  return { i with qubits := i.qubits.map f }

def withGate (i : Instruction F) (g : Gate F) : Except (CircuitError F) (Instruction F) := do
  checkOperands g i.qubits
  return { i with gate := g }

end Instruction

end Interchange
