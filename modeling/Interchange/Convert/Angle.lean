import Interchange.Circuit.Basic
import Interchange.Json.Record

namespace Interchange

/-- An angle in a document: a number, or an expression over free parameters. -/
inductive Angle (F : Type)
  | value (x : F)
  | expression (text : String)
deriving Repr, BEq

namespace Angle

variable {F : Type}

def ofJson? [Scalar F] (j : Json) : Option (Angle F) :=
  (j.asScalar?.map value).or (j.asString?.map expression)

def toJson [Numeral F] : Angle F → Json
  | value x => .ofScalar x
  | expression text => .string text

/-- A number wherever the parameter has a value. -/
def ofParam [Scalar F] [Numeral F] (p : Param F) : Angle F :=
  match p.value? with
  | some x => value x
  | none => expression p.write

def read [Scalar F] (c : Circuit F) : Angle F → Circuit F × Except (CircuitError F) (Param F)
  | value x => (c, .ok (.const x))
  | expression text => c.readParam text

def readAll [Scalar F] (c : Circuit F) :
    List (Angle F) → Except (CircuitError F) (Circuit F × List (Param F))
  | [] => .ok (c, [])
  | a :: as => do
    let (c, first) := a.read c
    let p ← first
    let (c, ps) ← readAll c as
    return (c, p :: ps)

end Angle

end Interchange
