namespace Interchange.Number

/-- The magnitude `mantissa * 2 ^ exponent` of a finite double. -/
structure Binary where
  mantissa : Nat
  exponent : Int
  /-- The gap to the next smaller double is half the gap to the next larger one. -/
  narrowBelow : Bool
deriving Repr, DecidableEq

namespace Binary

/-- Reads the exponent and fraction fields; the sign is not part of the magnitude. -/
def ofBits (bits : UInt64) : Binary :=
  let field : Nat := bits.toNat / 4503599627370496 % 2048
  let fraction : Nat := bits.toNat % 4503599627370496
  -- the smallest exponent has no leading one
  if field = 0 then ⟨fraction, -1074, false⟩
  else ⟨4503599627370496 + fraction, (field : Int) - 1075, fraction == 0 && decide (1 < field)⟩

def numerator (b : Binary) : Nat := b.mantissa * Nat.pow 2 b.exponent.toNat

def denominator (b : Binary) : Nat := Nat.pow 2 (-b.exponent).toNat

theorem denominator_pos (b : Binary) : 0 < b.denominator := Nat.pow_pos (by decide)

/-- The remainder of `x` by `y` with `y` not zero, as a multiple of the smaller of the two units.
It has at most 53 bits, so it is again a double. -/
def remainder (x y : Binary) : Nat × Int :=
  let unit := min x.exponent y.exponent
  let scaled (b : Binary) := b.mantissa * Nat.pow 2 (b.exponent - unit).toNat
  (scaled x % scaled y, unit)

end Binary

/-- The sign of a double, which negative zero has too. -/
def isNegative (x : Float) : Bool := x.toBits.toNat / 9223372036854775808 == 1

end Interchange.Number
