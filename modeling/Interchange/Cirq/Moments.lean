import Interchange.Cirq.Document

namespace Interchange.Cirq

variable {F : Type}

def Operation.on (gate : GateObject F) (xs : List Nat) : Operation F :=
  { gate := gate, qubits := xs.map fun x => { x := x } }

def Moment.accepts (m : Moment F) (o : Operation F) : Bool :=
  (m.operations.flatMap (·.qubits)).all fun q => !o.qubits.any (·.x == q.x)

/-- Puts operations into the current moment as long as they fit, and opens a new one otherwise. -/
def packFrom (current : List (Operation F)) : List (Operation F) → List (Moment F)
  | [] => [{ operations := current }]
  | o :: os =>
    if Moment.accepts { operations := current } o then packFrom (current ++ [o]) os
    else { operations := current } :: packFrom [o] os

def Document.ofOperations : List (Operation F) → Document F
  | [] => { moments := [] }
  | o :: os => { moments := packFrom [o] os }

theorem flatMap_packFrom (current os : List (Operation F)) :
    (packFrom current os).flatMap (·.operations) = current ++ os := by
  induction os generalizing current with
  | nil => simp [packFrom]
  | cons o os ih =>
    unfold packFrom
    split
    · simp [ih]
    · simp [ih]

theorem Document.operations_ofOperations (os : List (Operation F)) :
    (Document.ofOperations os).operations = os := by
  cases os with
  | nil => rfl
  | cons o os => simp [Document.ofOperations, Document.operations, flatMap_packFrom]

end Interchange.Cirq
