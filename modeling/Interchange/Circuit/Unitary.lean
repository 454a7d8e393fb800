import Interchange.Circuit.Layout
import Interchange.Operator.Phase
import Interchange.Synthesis.Error

namespace Interchange

namespace Operator

/-- The bit of qubit `q` of `n` in the index of a basis state; qubit 0 is the most significant. -/
def qubitMask (n q : Nat) : Nat := 1 <<< (n - 1 - q)

/-- The masks whose bit in `place` is set, joined; the first mask belongs to the highest bit. -/
def blockOffset (masks : List Nat) (place : Nat) : Nat :=
  (masks.zipIdx.filter fun m => (place >>> (masks.length - 1 - m.2)) &&& 1 == 1).foldl
    (fun acc m => acc ||| m.1) 0

variable {F : Type} [Scalar F]

/-- Overwrites one column of a block, the rows at the offsets from a base. -/
def updateColumn (g : Operator F) (offsets : List Nat) (base col : Nat) (u : Operator F) :
    Operator F :=
  -- all entries are saved before the first is overwritten
  let column := offsets.map fun off => u.get (base ||| off) col
  offsets.zipIdx.foldl (fun u row =>
    u.set (base ||| row.1) col
      (.sum (column.zipIdx.map fun entry => g.get row.2 entry.2 * entry.1))) u

/-- Multiplies `u` on the left by `g` acting on the listed qubits of `n`, in place. A block starts
at each row without a bit of these qubits. -/
def applyGate (n : Nat) (qs : List Nat) (g u : Operator F) : Operator F :=
  let masks := qs.map (qubitMask n)
  let all := masks.foldl (· ||| ·) 0
  let offsets := (List.range (1 <<< qs.length)).map (blockOffset masks)
  ((List.range (1 <<< n)).filter (· &&& all == 0)).foldl (fun u base =>
    (List.range (1 <<< n)).foldl (fun u col => updateColumn g offsets base col u) u) u

end Operator

def maxDenseQubits : Nat := 14

def defaultMaxQubits : Nat := 12

/-- How circuits are compared: up to which width, and how closely. -/
structure Oracle (F : Type) where
  maxQubits : Nat
  tolerance : F

namespace Oracle

variable {F : Type} [Scalar F]

def new (maxQubits : Nat) (tolerance : F) : Oracle F := ⟨min maxQubits maxDenseQubits, tolerance⟩

/-- The matrix of one instruction. A gate without one is unbound, or has none at all. -/
def matrixOf (i : Instruction F) : Except (SynthesisError F) (Operator F) :=
  match i.gate.matrix with
  | some g => .ok g
  | none => match i.gate.refs with
    | r :: _ => .error (.circuit (.unboundParameter r.name))
    | [] => .error (.circuit (.invalidMatrix (.absent i.tag)))

/-- One more instruction after `u`; measurements do not act. -/
def step (n : Nat) (u : Operator F) (i : Instruction F) : Except (SynthesisError F) (Operator F) :=
  if i.isMeasure then .ok u
  else do return (← matrixOf i).applyGate n i.qubits u

def unitaryOf (o : Oracle F) (c : Circuit F) : Except (SynthesisError F) (Operator F) :=
  let limit := min o.maxQubits maxDenseQubits
  if limit < c.qubits then .error (.resourceLimit c.qubits limit)
  else c.instructions.foldlM (step c.qubits) (.identity (Nat.pow 2 c.qubits))

def equivalent (o : Oracle F) (a b : Circuit F) : Except (SynthesisError F) Bool :=
  if a.qubits ≠ b.qubits then .error (.qubitCount a.qubits b.qubits)
  else do
    let ua ← o.unitaryOf a
    let ub ← o.unitaryOf b
    return Operator.equalUpToPhase o.tolerance ua ub

end Oracle

end Interchange
