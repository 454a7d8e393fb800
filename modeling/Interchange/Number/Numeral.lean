import Interchange.Number.Shortest

namespace Interchange.Number

def digitsValue (digits : List Char) : Nat :=
  digits.foldl (fun n c => 10 * n + (c.toNat - '0'.toNat)) 0

def spanDigits (text : List Char) : List Char × List Char :=
  (text.takeWhile Char.isDigit, text.dropWhile Char.isDigit)

def readExponent? : List Char → Option Int
  | [] => some 0
  | mark :: rest =>
    if mark = 'e' ∨ mark = 'E' then
      let (negative, digits) := match rest with
        | '-' :: digits => (true, digits)
        | '+' :: digits => (false, digits)
        | digits => (false, digits)
      if digits ≠ [] ∧ digits.all Char.isDigit then
        some (if negative then -(digitsValue digits : Int) else digitsValue digits)
      else none
    else none

/-- An unsigned decimal: digits with at most one point, at least one digit, and an optional
exponent. -/
def Decimal.read? (text : List Char) : Option Decimal :=
  let (whole, rest) := spanDigits text
  let (fraction, rest) := match rest with
    | '.' :: rest => spanDigits rest
    | rest => ([], rest)
  if whole.isEmpty ∧ fraction.isEmpty then none
  else (readExponent? rest).map fun exponent =>
    ⟨digitsValue (whole ++ fraction), exponent - fraction.length⟩

/-- The nearest double. Decimals beyond the range of doubles are not expanded. -/
def Decimal.toDouble (d : Decimal) : Float :=
  let size := (Nat.toDigits 10 d.digits).length + d.power
  if d.digits = 0 ∨ size < -330 then 0.0
  else if 310 < size then 1.0 / 0.0
  else if d.power < 0 then Float.ofScientific d.digits true d.power.natAbs
  else Float.ofScientific d.digits false d.power.natAbs

/-- A signed decimal, an infinity or not-a-number; letters in either case. -/
def readDouble? (text : List Char) : Option Float :=
  let (negative, body) := match text with
    | '-' :: body => (true, body)
    | '+' :: body => (false, body)
    | body => (false, body)
  let word := String.ofList (body.map Char.toLower)
  let magnitude :=
    if word = "inf" ∨ word = "infinity" then some (1.0 / 0.0)
    else if word = "nan" then some (0.0 / 0.0)
    else (Decimal.read? body).map Decimal.toDouble
  magnitude.map fun x => if negative then -x else x

/-- Qubits, bits and register sizes are numbered below this. -/
def indexLimit : Nat := 4294967296

/-- A decimal natural number with an optional plus sign, below a limit. -/
def readNat? (limit : Nat) (text : List Char) : Option Nat :=
  let digits := match text with
    | '+' :: digits => digits
    | digits => digits
  if digits ≠ [] ∧ digits.all Char.isDigit ∧ digitsValue digits < limit then
    some (digitsValue digits)
  else none

end Interchange.Number
