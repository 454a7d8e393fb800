import Interchange.Number.Shortest

namespace Interchange

open Number (Decimal)

/-- The real numbers that angles and amplitudes are made of. Doubles are the ones that run; every
algorithm is written for any scalars, so that its meaning over exact numbers can be stated. -/
class Scalar (F : Type) extends Zero F, One F, Add F, Sub F, Mul F, Div F, Neg F, LT F, LE F,
    BEq F where
  ltDecidable : DecidableLT F
  leDecidable : DecidableLE F
  ofNat : Nat → F
  ofDecimal : Decimal → F
  pi : F
  /-- The base of natural logarithms. -/
  euler : F
  abs : F → F
  sqrt : F → F
  sin : F → F
  cos : F → F
  tan : F → F
  asin : F → F
  acos : F → F
  atan : F → F
  exp : F → F
  log : F → F
  pow : F → F → F
  /-- The angle of the point `(x, y)`, called as `atan2 y x`. -/
  atan2 : F → F → F
  /-- The length of the vector `(x, y)`. -/
  hypot : F → F → F
  /-- The remainder of the first by the second that is not negative. -/
  modulo : F → F → F
  /-- `mulAdd x y z` is `x * y + z`, rounded once where scalars are rounded. -/
  mulAdd : F → F → F → F
  isFinite : F → Bool
  /-- The sign, which a negative zero has too. -/
  isNegative : F → Bool
  /-- Equality of representations, finer than `==` where zero has two. -/
  identical : F → F → Bool
  identical_iff (x y : F) : identical x y = true ↔ x = y

instance Scalar.decidableLt {F : Type} [Scalar F] (x y : F) : Decidable (x < y) :=
  Scalar.ltDecidable x y

instance Scalar.decidableLe {F : Type} [Scalar F] (x y : F) : Decidable (x ≤ y) :=
  Scalar.leDecidable x y

/-- Scalars with a decimal text, and a literal in documents when finite. -/
class Numeral (F : Type) where
  write : F → String
  literal? : F → Option String

namespace Scalar

variable {F : Type} [Scalar F]

def two : F := 1 + 1

def half : F := 1 / two

def tau : F := two * pi

def halfPi : F := pi / two

def quarterPi : F := pi / ofNat 4

/-- `1 / √2`, rounded once. -/
def invSqrtTwo : F := sqrt half

def ofInt (n : Int) : F := if n < 0 then -ofNat n.natAbs else ofNat n.natAbs

def tenth (n : Nat) : F := ofDecimal ⟨1, -n⟩

end Scalar

end Interchange
