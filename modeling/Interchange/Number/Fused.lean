import Interchange.Number.Binary

namespace Interchange.Number

/-- A magnitude of at most 64 bits that rounds to the same double: digits that do not fit are
replaced by one that tells whether any was set. -/
def condense (m : Nat) : Nat × Nat :=
  let shift := Nat.log2 m - 63
  let top := m / Nat.pow 2 shift
  (if m % Nat.pow 2 shift = 0 ∨ top % 2 = 1 then top else top + 1, shift)

def nearest (m : Nat) (e : Int) : Float :=
  let (top, shift) := condense m
  top.toUInt64.toFloat.scaleB (e + shift)

def signedMantissa (x : Float) : Int :=
  let m : Int := (Binary.ofBits x.toBits).mantissa
  if isNegative x then -m else m

/-- `x * y + z` of doubles, rounded once. -/
def mulAdd (x y z : Float) : Float :=
  if x.isFinite && y.isFinite && z.isFinite then
    let unitXY := (Binary.ofBits x.toBits).exponent + (Binary.ofBits y.toBits).exponent
    let unitZ := (Binary.ofBits z.toBits).exponent
    let unit := min unitXY unitZ
    let total := signedMantissa x * signedMantissa y * (Nat.pow 2 (unitXY - unit).toNat : Nat) +
      signedMantissa z * (Nat.pow 2 (unitZ - unit).toNat : Nat)
    -- an exact zero takes its sign from the rounded operations
    if total = 0 then x * y + z
    else if total < 0 then -nearest total.natAbs unit
    else nearest total.natAbs unit
  else x * y + z

end Interchange.Number
