import Interchange.Circuit.Basic

namespace Interchange

def insertIncreasing (q : Nat) : List Nat → List Nat
  | [] => [q]
  | p :: ps => if q < p then q :: p :: ps else if q = p then p :: ps else p :: insertIncreasing q ps

namespace Circuit

variable {F : Type} [Scalar F]

def referenced (c : Circuit F) : List Nat :=
  (c.instructions.flatMap (·.qubits)).foldl (fun qs q => insertIncreasing q qs) []

def isContiguous (c : Circuit F) : Bool := c.referenced.length == c.qubits

def isParameterized (c : Circuit F) : Bool := c.instructions.any (·.gate.isParameterized)

def freeParameters (c : Circuit F) : List Handle :=
  (c.instructions.flatMap (·.gate.refs)).foldl
    (fun seen r => if seen.any (·.id == r.id) then seen else seen ++ [r]) []

def gateCounts (c : Circuit F) : List (Tag × Nat) :=
  Tag.all.filterMap fun tag =>
    let n := c.instructions.countP (·.tag == tag)
    if n = 0 then none else some (tag, n)

/-- Each qubit's layer so far and the highest layer, after one more instruction. -/
def nextLayer (state : (Nat → Nat) × Nat) (i : Instruction F) : (Nat → Nat) × Nat :=
  let next := (i.qubits.map state.1).foldl max 0 + 1
  (fun q => if i.qubits.contains q then next else state.1 q, max state.2 next)

/-- The number of layers when every instruction comes right after the last one it shares a qubit
with. -/
def depth (c : Circuit F) : Nat := (c.instructions.foldl nextLayer (fun _ => 0, 0)).2

end Circuit

end Interchange
