import Interchange.Number.Shortest

namespace Interchange.Number

structure Style where
  /-- The decimal exponents written in positional form; every exponent when absent. -/
  positional : Option (Int × Int)
  /-- Integral values keep a `.0`. -/
  pointZero : Bool
  tie : Tie

/-- Expressions and programs: positional at every size, integers without a point. -/
def plain : Style := ⟨none, false, .up⟩

/-- Documents: positional from `1e-5` up to `1e16`, otherwise with a signed exponent. -/
def document : Style := ⟨some (-5, 16), true, .even⟩

def layoutPositional (pointZero : Bool) (digits : List Char) (power : Int) : List Char :=
  let point := (digits.length : Int) + power
  if 0 ≤ power then
    digits ++ List.replicate power.toNat '0' ++ (if pointZero then ['.', '0'] else [])
  else if 0 < point then
    digits.take point.toNat ++ '.' :: digits.drop point.toNat
  else
    '0' :: '.' :: (List.replicate (-point).toNat '0' ++ digits)

def layoutExponent (digits : List Char) (power : Int) : List Char :=
  let exponent := (digits.length : Int) - 1 + power
  let fraction := digits.drop 1
  digits.take 1 ++ (if fraction.isEmpty then [] else '.' :: fraction) ++
    'e' :: (if exponent < 0 then '-' else '+') :: Nat.toDigits 10 exponent.natAbs

def Style.magnitude (s : Style) (b : Binary) : List Char :=
  if b.mantissa = 0 then '0' :: (if s.pointZero then ['.', '0'] else [])
  else
    let d := b.shortest s.tie
    let digits := Nat.toDigits 10 d.digits
    let exponent := (digits.length : Int) - 1 + d.power
    match s.positional with
    | none => layoutPositional s.pointZero digits d.power
    | some (low, high) =>
      if low ≤ exponent ∧ exponent < high then layoutPositional s.pointZero digits d.power
      else layoutExponent digits d.power

def signed (x : Float) (text : List Char) : List Char :=
  if isNegative x then '-' :: text else text

def special (x : Float) : List Char :=
  if x.isNaN then "NaN".toList else signed x "inf".toList

def Style.write (s : Style) (x : Float) : String :=
  String.ofList (if x.isFinite then signed x (s.magnitude (.ofBits x.toBits)) else special x)

/-- A quotient rounded to the nearest integer, halves to the even neighbour. -/
def roundDiv (num den : Nat) : Nat :=
  let rest := 2 * (num % den)
  if den < rest ∨ (rest = den ∧ num / den % 2 = 1) then num / den + 1 else num / den

/-- The exact value of a double rounded to a number of decimal places. -/
def fixed (places : Nat) (x : Float) : String :=
  if x.isFinite then
    let b := Binary.ofBits x.toBits
    let digits := Nat.toDigits 10 (roundDiv (b.numerator * Nat.pow 10 places) b.denominator)
    let padded := List.replicate (places + 1 - digits.length) '0' ++ digits
    let whole := padded.length - places
    String.ofList (signed x (padded.take whole ++ '.' :: padded.drop whole))
  else String.ofList (special x)

end Interchange.Number
