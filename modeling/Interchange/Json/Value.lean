import Interchange.Number.Numeral

namespace Interchange

/-- A document. Numbers keep their literal, and an object keeps every entry in order. A text with
half of a surrogate pair, or an object with such a key, is known to be there but cannot be read. -/
inductive Json
  | unreadable
  | null
  | bool (value : Bool)
  | number (literal : String)
  | string (text : String)
  | array (elements : List Json)
  | object (entries : List (String × Json))
deriving Repr, Inhabited

namespace Json

open Number (Decimal)

def asString? : Json → Option String
  | string text => some text
  | _ => none

def asArray? : Json → Option (List Json)
  | array elements => some elements
  | _ => none

def signAndDigits (literal : String) : Bool × List Char :=
  match literal.toList with
  | '-' :: digits => (true, digits)
  | digits => (false, digits)

def isIntegerLiteral (literal : String) : Bool := (signAndDigits literal).2.all Char.isDigit

/-- An integer; minus zero is not one. -/
def asInt? : Json → Option Int
  | number literal =>
    let (negative, digits) := signAndDigits literal
    let n := Number.digitsValue digits
    if digits.all Char.isDigit && !(negative && n == 0) then
      some (if negative then -(n : Int) else n)
    else none
  | _ => none

def asNat? (limit : Nat) (j : Json) : Option Nat :=
  match j.asInt? with
  | some (.ofNat n) => if n < limit then some n else none
  | _ => none

def asDecimal? : Json → Option (Bool × Decimal)
  | number literal =>
    let (negative, digits) := signAndDigits literal
    (Decimal.read? digits).map (negative, ·)
  | _ => none

def ofEntries (entries : List (Option String × Json)) : Json :=
  match entries.mapM fun e => e.1.map fun key => (key, e.2) with
  | some entries => object entries
  | none => unreadable

def last? (entries : List (String × Json)) (key : String) : Option Json :=
  entries.reverse.lookup key

def maxDepth : Nat := 127

mutual

/-- Whether a value can be kept as a whole inside of some arrays and objects: it is not nested too
deep, every text can be read, and every number fits a double. -/
def isKeptAt (depth : Nat) : Json → Bool
  | unreadable => false
  | number literal => (number literal).asDecimal?.any fun d => d.2.toDouble.isFinite
  | array elements => depth < maxDepth && allKeptAt (depth + 1) elements
  | object entries => depth < maxDepth && entriesKeptAt (depth + 1) entries
  | _ => true

def allKeptAt (depth : Nat) : List Json → Bool
  | [] => true
  | j :: js => isKeptAt depth j && allKeptAt depth js

def entriesKeptAt (depth : Nat) : List (String × Json) → Bool
  | [] => true
  | e :: es => entryKeptAt depth e && entriesKeptAt depth es

def entryKeptAt (depth : Nat) : String × Json → Bool
  | (_, j) => isKeptAt depth j

end

end Json

end Interchange
