import Interchange.Framework.Basic
import Interchange.Gate.Tag

namespace Interchange

/-- The gates that a framework has, with their names there. -/
structure GateTable where
  framework : Framework
  entries : List (Tag × String)
  /-- Gates may hold free parameters. -/
  freeParameters : Bool := false
  /-- Every qubit is measured at the end, so measurements are not written. -/
  implicitMeasurement : Bool := false

namespace GateTable

def native? (t : GateTable) (tag : Tag) : Option String := t.entries.lookup tag

def tag? (t : GateTable) (native : String) : Option Tag :=
  (t.entries.find? (·.2 == native)).map (·.1)

def supports (t : GateTable) (tag : Tag) : Bool := (t.native? tag).isSome

/-- Whether there are as many different tags, and as many different names, as entries. -/
def isBijective (t : GateTable) : Bool :=
  (t.entries.map (·.1)).eraseDups.length == t.entries.length &&
    (t.entries.map (·.2)).eraseDups.length == t.entries.length

def missingCommonCore (t : GateTable) : List Tag := Tag.commonCore.filter (!t.supports ·)

end GateTable

end Interchange
