import Interchange.Number.Digit
import Interchange.Number.Numeral
import Interchange.Yaml.Basic

namespace Interchange.Yaml

abbrev Record := List (String × Yaml)

def asText? : Yaml → Option String
  | scalar _ _ text => some text
  | _ => none

/-- The known fields of a record in a document, each at most once. Every name is a scalar, and
nothing at all is a record without fields. -/
def record? (root : Yaml) (names : List String) (node : Yaml) : Option Record :=
  match root.targetIn node with
  | mapping entries => do
    let fields ← entries.mapM fun (key, value) => do
      return (← (root.targetIn key).asText?, root.targetIn value)
    let known := fields.filter (names.contains ·.1)
    if (known.map (·.1)).Nodup then some known else none
  | scalar .plain _ "" => some []
  | _ => none

def Record.get {α : Type} (r : Record) (name : String) (value : α) (read : Yaml → Option α) :
    Option α :=
  match r.lookup name with
  | none => some value
  | some y => read y

/-- The text of a scalar that may be something else than text: one without quotes, or a literal
block with the tag of its kind. -/
def asPlain? (kind : String) : Yaml → Option String
  | scalar .plain _ text => some text
  | scalar .literal (some tag) text =>
    if tag = "tag:yaml.org,2002:" ++ kind then some text else none
  | _ => none

def asBool? (y : Yaml) : Option Bool := do
  let text ← y.asPlain? "bool"
  if ["true", "True", "TRUE"].contains text then some true
  else if ["false", "False", "FALSE"].contains text then some false
  else none

def unsigned? (text : String) : Option (List Char) :=
  match text.toList with
  | '+' :: '+' :: _ | '+' :: '-' :: _ => none
  | '+' :: rest => some rest
  | cs => some cs

def asDouble? (y : Yaml) : Option Float := do
  let text ← y.asPlain? "float"
  let body ← unsigned? text
  if [".inf", ".Inf", ".INF"].contains (String.ofList body) then some (1.0 / 0.0)
  else if ["-.inf", "-.Inf", "-.INF"].contains text then some (-1.0 / 0.0)
  else if [".nan", ".NaN", ".NAN"].contains text then some (0.0 / 0.0)
  else (Number.readDouble? body).filter Float.isFinite

/-- A natural number below a limit; a mark tells a base other than ten, and a decimal has no leading
zeros. -/
def asNat? (limit : Nat) (y : Yaml) : Option Nat := do
  let body ← unsigned? (← y.asPlain? "int")
  let n ← match body with
    | '0' :: 'x' :: digits => Number.natOfDigits? 16 digits
    | '0' :: 'o' :: digits => Number.natOfDigits? 8 digits
    | '0' :: 'b' :: digits => Number.natOfDigits? 2 digits
    | '0' :: _ :: _ => none
    | digits => Number.natOfDigits? 10 digits
  if n < limit then some n else none

end Interchange.Yaml
