import Interchange.Circuit.Basic
import Interchange.Convert.Error
import Interchange.Framework.Table

namespace Interchange

variable {F : Type}

def GateTable.require (t : GateTable) (tag : Tag) : Except (ConvertError F) String :=
  match t.native? tag with
  | some native => .ok native
  | none => .error (.unsupportedGate t.framework tag.name)

def readMatrix [Scalar F] (f : Framework) (rows : List (List (F × F))) :
    Except (ConvertError F) (Operator F) :=
  match Operator.ofPairs? rows with
  | some m => .ok m
  | none => .error (.malformed f .notSquare)

/-- One past the highest qubit, as long as that is an index too. -/
def widthOf (f : Framework) (qubits : List Nat) : Except (ConvertError F) Nat :=
  match qubits.max? with
  | none => .ok 0
  | some highest =>
    if highest + 1 < Number.indexLimit then .ok (highest + 1)
    else .error (.malformed f (.qubitIndex highest))

end Interchange
