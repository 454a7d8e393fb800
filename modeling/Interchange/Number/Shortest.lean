import Interchange.Number.Binary

namespace Interchange.Number

/-- The decimal `digits * 10 ^ power`. -/
structure Decimal where
  digits : Nat
  power : Int
deriving Repr, DecidableEq, Inhabited

/-- Where a value halfway between two decimals of equal length goes. -/
inductive Tie
  | up
  | even
deriving Repr, DecidableEq

namespace Decimal

def strip (digits : Nat) (power : Int) : Decimal :=
  if digits ≠ 0 ∧ digits % 10 = 0 then strip (digits / 10) (power + 1) else ⟨digits, power⟩
termination_by digits
decreasing_by omega

end Decimal

namespace Binary

/-- Whether a decimal rounds to this double: it lies between the midpoints to both neighbours, which
belong to the double exactly when its mantissa is even. -/
def readsBack (b : Binary) (d : Decimal) : Bool :=
  -- all in quarters of the last place, since half of a narrow gap is one
  let value := 4 * d.digits * Nat.pow 10 d.power.toNat * b.denominator
  let unit := Nat.pow 2 b.exponent.toNat * Nat.pow 10 (-d.power).toNat
  let low := (4 * b.mantissa - (if b.narrowBelow then 1 else 2)) * unit
  let high := (4 * b.mantissa + 2) * unit
  if b.mantissa % 2 = 0 then decide (low ≤ value ∧ value ≤ high)
  else decide (low < value ∧ value < high)

def belowPower (b : Binary) (k : Int) : Bool :=
  decide (b.numerator * Nat.pow 10 (-k).toNat < Nat.pow 10 k.toNat * b.denominator)

/-- The least `k` with the double below `10 ^ k`. The logarithm to base two settles it up to two. -/
def scale (b : Binary) : Int :=
  -- the decimal logarithm of two is a little below `0.30103`
  let guess := ((Nat.log2 b.mantissa : Int) + b.exponent) * 30103 / 100000
  if b.belowPower guess then guess
  else if b.belowPower (guess + 1) then guess + 1
  else guess + 2

/-- The nearest decimal with steps of `10 ^ power` that reads back. -/
def onGrid? (b : Binary) (tie : Tie) (power : Int) : Option Decimal :=
  let value := b.numerator * Nat.pow 10 (-power).toNat
  let unit := b.denominator * Nat.pow 10 power.toNat
  let low : Decimal := ⟨value / unit, power⟩
  let high : Decimal := ⟨value / unit + 1, power⟩
  match b.readsBack low, b.readsBack high with
  | true, false => some low
  | false, true => some high
  | false, false => none
  | true, true =>
    let rest := 2 * (value % unit)
    if rest < unit then some low
    else if unit < rest then some high
    else match tie with
      | .up => some high
      | .even => some (if low.digits % 2 = 0 then low else high)

def exact (b : Binary) : Decimal :=
  if 0 ≤ b.exponent then ⟨b.numerator, 0⟩
  else ⟨b.mantissa * Nat.pow 5 (-b.exponent).toNat, b.exponent⟩

/-- The fewest digits that read back as this double, and of those the nearest. -/
def shortest (b : Binary) (tie : Tie) : Decimal :=
  let grids := (List.range 17).map fun (n : Nat) => b.scale - (n + 1 : Nat)
  let found := (grids.findSome? (b.onGrid? tie)).getD b.exact
  Decimal.strip found.digits found.power

end Binary

end Interchange.Number
