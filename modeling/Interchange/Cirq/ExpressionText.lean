import Interchange.Cirq.Expression
import Interchange.Json.Value
import Interchange.Json.Record

namespace Interchange.Cirq.Expression

variable {F : Type}

inductive Kind
  | symbol | add | mul | pow | float | integer | rational | pi
deriving Repr, DecidableEq

namespace Kind

def all : List Kind := [symbol, add, mul, pow, float, integer, rational, pi]

def name : Kind → String
  | symbol => "sympy.Symbol"
  | add => "sympy.Add"
  | mul => "sympy.Mul"
  | pow => "sympy.Pow"
  | float => "sympy.Float"
  | integer => "sympy.Integer"
  | rational => "sympy.Rational"
  | pi => "sympy.pi"

def fieldNames : Kind → List String
  | symbol => ["name"]
  | add | mul | pow => ["args"]
  | float => ["approx"]
  | integer => ["i"]
  | rational => ["p", "q"]
  | pi => []

/-- A kind by its name or its place in the list. -/
def ofJson? : Json → Option Kind
  | .string text => all.find? (·.name == text)
  | j => (j.asNat? all.length).bind (all[·]?)

end Kind

/-- A field of an expression, together with the expressions it lists if it does. -/
structure Field (F : Type) where
  value : Json
  terms? : Option (List (Expression F))

def ofFields? [Scalar F] (kind : Kind) (fields : List (String × Field F)) :
    Option (Expression F) := do
  match kind with
  | .symbol => return symbol (← (← fields.lookup "name").value.asString?)
  | .add => return add (← (← fields.lookup "args").terms?)
  | .mul => return mul (← (← fields.lookup "args").terms?)
  | .pow => return pow (← (← fields.lookup "args").terms?)
  | .float => return float (← (← fields.lookup "approx").value.asScalar?)
  | .integer => return integer (← (← fields.lookup "i").value.asInt64?)
  | .rational =>
    let p ← (← fields.lookup "p").value.asInt64?
    let q ← (← fields.lookup "q").value.asInt64?
    return rational p q
  | .pi => return pi

/-- An expression written as an object: one entry gives the kind. -/
def ofEntries? [Scalar F] (entries : List (String × Field F)) : Option (Expression F) :=
  match entries.partition (·.1 == "cirq_type") with
  | ([(_, tag)], rest) => do
    let kind ← Kind.ofJson? tag.value
    let known := rest.filter (kind.fieldNames.contains ·.1)
    if (known.map (·.1)).Nodup then ofFields? kind known else none
  | _ => none

/-- An expression written as an array: the kind, then its fields in order. -/
def ofElements? [Scalar F] : List (Field F) → Option (Expression F)
  | [] => none
  | tag :: fields => do
    let kind ← Kind.ofJson? tag.value
    if fields.length ≤ kind.fieldNames.length then ofFields? kind (kind.fieldNames.zip fields)
    else none

mutual

def ofJson? [Scalar F] : Json → Option (Expression F)
  | .number literal => (Json.number literal).asScalar?.map number
  | .object entries => ofEntries? (entryFields entries)
  | .array elements => ofElements? (elementFields elements)
  | _ => none

def listOfJson? [Scalar F] : Json → Option (List (Expression F))
  | .array elements => ofJsonAll? elements
  | _ => none

def ofJsonAll? [Scalar F] : List Json → Option (List (Expression F))
  | [] => some []
  | j :: js => do return (← ofJson? j) :: (← ofJsonAll? js)

def elementFields [Scalar F] : List Json → List (Field F)
  | [] => []
  | j :: js => ⟨j, listOfJson? j⟩ :: elementFields js

def entryFields [Scalar F] : List (String × Json) → List (String × Field F)
  | [] => []
  | e :: es => entryField e :: entryFields es

def entryField [Scalar F] : String × Json → String × Field F
  | (key, j) => (key, ⟨j, listOfJson? j⟩)

end

/-- How many objects and arrays are around the expressions of a document: the document, its moments,
one of them, its operations, one of them and its gate. -/
def depth : Nat := 6

/-- An expression that can be kept as a whole, in fields that are not used too. -/
def read? [Scalar F] (j : Json) : Option (Expression F) :=
  if j.isKeptAt depth then ofJson? j else none

def ofKind (kind : Kind) (fields : Json.Record) : Json :=
  .object (("cirq_type", .string kind.name) :: fields)

mutual

def toJson [Numeral F] : Expression F → Json
  | number x => .ofScalar x
  | symbol name => ofKind .symbol [("name", .string name)]
  | add args => ofKind .add [("args", .array (toJsonAll args))]
  | mul args => ofKind .mul [("args", .array (toJsonAll args))]
  | pow args => ofKind .pow [("args", .array (toJsonAll args))]
  | float x => ofKind .float [("approx", .ofScalar x)]
  | integer n => ofKind .integer [("i", .ofInt n)]
  | rational m n => ofKind .rational [("p", .ofInt m), ("q", .ofInt n)]
  | pi => ofKind .pi []

def toJsonAll [Numeral F] : List (Expression F) → List Json
  | [] => []
  | e :: es => toJson e :: toJsonAll es

end

end Interchange.Cirq.Expression
