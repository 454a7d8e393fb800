import Interchange.Json.Value
import Interchange.Scalar.Basic

namespace Interchange.Json

abbrev Record := List (String × Json)

/-- The known fields of a record, each at most once. An array gives the fields in their order. -/
def record? (names : List String) : Json → Option Record
  | object entries =>
    let known := entries.filter (names.contains ·.1)
    if (known.map (·.1)).Nodup then some known else none
  | array elements =>
    if elements.length ≤ names.length then some (names.zip elements) else none
  | _ => none

namespace Record

variable {α : Type}

def required (r : Record) (name : String) (read : Json → Option α) : Option α :=
  (r.lookup name).bind read

def optional (r : Record) (name : String) (read : Json → Option α) : Option (Option α) :=
  match r.lookup name with
  | none | some null => some none
  | some j => (read j).map some

def defaulted (r : Record) (name : String) (value : α) (read : Json → Option α) : Option α :=
  match r.lookup name with
  | none => some value
  | some j => read j

end Record

def asListOf? {α : Type} (read : Json → Option α) (j : Json) : Option (List α) := do
  (← j.asArray?).mapM read

def asIndex? (j : Json) : Option Nat := j.asNat? Number.indexLimit

def asInt64? (j : Json) : Option Int :=
  j.asInt?.filter fun n => -9223372036854775808 ≤ n ∧ n < 9223372036854775808

variable {F : Type}

def asScalar? [Scalar F] (j : Json) : Option F := do
  let (negative, magnitude) ← j.asDecimal?
  let value : F := Scalar.ofDecimal magnitude
  if Scalar.isFinite value then some (if negative then -value else value) else none

def asPair? [Scalar F] : Json → Option (F × F)
  | array [re, im] => do return (← asScalar? re, ← asScalar? im)
  | _ => none

def asRows? [Scalar F] : Json → Option (List (List (F × F))) := asListOf? (asListOf? asPair?)

/-- A number, or null when it is not finite. -/
def ofScalar [Numeral F] (x : F) : Json := (Numeral.literal? x).elim null number

def ofNat (n : Nat) : Json := number (Nat.repr n)

def ofInt (n : Int) : Json := number (if n < 0 then "-" ++ Nat.repr n.natAbs else Nat.repr n.natAbs)

def ofIndices (ns : List Nat) : Json := array (ns.map ofNat)

def ofRows [Numeral F] (rows : List (List (F × F))) : Json :=
  array (rows.map fun row => array (row.map fun z => array [ofScalar z.1, ofScalar z.2]))

/-- An entry that is left out when there is nothing to write. -/
def entry? {α : Type} (name : String) (value : Option α) (write : α → Json) : Record :=
  (value.map fun v => (name, write v)).toList

def entryUnlessEmpty {α : Type} (name : String) (values : List α) (write : α → Json) : Record :=
  if values.isEmpty then [] else [(name, array (values.map write))]

end Interchange.Json
