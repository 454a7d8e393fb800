import Interchange.Circuit.Error
import Interchange.Param.Registry

namespace Interchange

variable {F : Type} [Scalar F]

namespace Param

/-- The value under bindings. A divisor is evaluated before what it divides. -/
def evaluate (b : Bindings F) : Param F → Except (CircuitError F) F
  | const v => .ok v
  | pi => .ok Scalar.pi
  | ref r => match b.get? r.name with
    | some v => .ok v
    | none => .error (.unboundParameter r.name)
  | neg e => do return -(← e.evaluate b)
  | add x y => do return (← x.evaluate b) + (← y.evaluate b)
  | sub x y => do return (← x.evaluate b) - (← y.evaluate b)
  | mul x y => do return (← x.evaluate b) * (← y.evaluate b)
  | div x y => do
    let divisor ← y.evaluate b
    if divisor == 0 then .error (.invalidExpression (div x y))
    else return (← x.evaluate b) / divisor

/-- Puts the bound values in place and simplifies on the way up. -/
def substitute (b : Bindings F) : Param F → Param F
  | const v => const v
  | pi => pi
  | ref r => match b.get? r.name with
    | some v => const v
    | none => ref r
  | neg e => (neg (e.substitute b)).simplify
  | add x y => (add (x.substitute b) (y.substitute b)).simplify
  | sub x y => (sub (x.substitute b) (y.substitute b)).simplify
  | mul x y => (mul (x.substitute b) (y.substitute b)).simplify
  | div x y => (div (x.substitute b) (y.substitute b)).simplify

end Param

def Registry.resolve (r : Registry) (b : Bindings F) (handle : Handle) :
    Except (CircuitError F) F :=
  if r.contains handle then
    match b.get? handle.name with
    | some v => .ok v
    | none => .error (.unboundParameter handle.name)
  else .error (.unknownParameter handle)

end Interchange
