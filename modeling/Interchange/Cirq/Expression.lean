import Interchange.Convert.Error
import Interchange.Param.Registry

namespace Interchange.Cirq

/-- A gate argument: a number or a symbolic expression. -/
inductive Expression (F : Type)
  | number (value : F)
  | symbol (name : String)
  | add (args : List (Expression F))
  | mul (args : List (Expression F))
  | pow (args : List (Expression F))
  | float (value : F)
  | integer (value : Int)
  | rational (num den : Int)
  | pi
deriving Repr

namespace Expression

variable {F : Type}

mutual

def same [BEq F] : Expression F → Expression F → Bool
  | number x, number y | float x, float y => x == y
  | symbol a, symbol b => a == b
  | add as, add bs | mul as, mul bs | pow as, pow bs => sameAll as bs
  | integer m, integer n => m == n
  | rational m n, rational p q => m == p && n == q
  | pi, pi => true
  | _, _ => false

def sameAll [BEq F] : List (Expression F) → List (Expression F) → Bool
  | [], [] => true
  | a :: as, b :: bs => same a b && sameAll as bs
  | _, _ => false

end

instance [BEq F] : BEq (Expression F) := ⟨same⟩

variable [Scalar F]

/-- A combination of parameters from the left; without any it is the neutral element. -/
def combine (op : Param F → Param F → Param F) (neutral : Param F) : List (Param F) → Param F
  | [] => neutral
  | p :: ps => ps.foldl op p

/-- A power. Symbols only have the exponents one and minus one. -/
def power (base exponent : Param F) : Except (Malformed F) (Param F) :=
  match base.value?, exponent.value? with
  | some b, some e => .ok (.const (Scalar.pow b e))
  | none, some e =>
    if e == -1 then .ok (.const 1 / base)
    else if e == 1 then .ok base
    else .error .powerOfSymbol
  | _, none => .error .powerOfSymbol

mutual

def toParam (r : Registry) : Expression F → Except (Malformed F) (Registry × Param F)
  | number x => .ok (r, .const x)
  | symbol name =>
    let (r, handle) := r.register name
    .ok (r, .ref handle)
  | float x => .ok (r, .const x)
  | integer n => .ok (r, .const (Scalar.ofInt n))
  | rational m n =>
    if n = 0 then .error .zeroDenominator
    else .ok (r, .const (Scalar.ofInt m / Scalar.ofInt n))
  | pi => .ok (r, .pi)
  | add args => do
    let (r, params) ← toParams r args
    return (r, (combine (· + ·) (.const 0) params).simplify)
  | mul args => do
    let (r, params) ← toParams r args
    return (r, (combine (· * ·) (.const 1) params).simplify)
  | pow args =>
    if args.length ≠ 2 then .error .powerArguments
    else do
      match ← toParams r args with
      | (r, [base, exponent]) => return (r, (← power base exponent).simplify)
      | _ => .error .powerArguments

def toParams (r : Registry) :
    List (Expression F) → Except (Malformed F) (Registry × List (Param F))
  | [] => .ok (r, [])
  | e :: es => do
    let (r, p) ← toParam r e
    let (r, ps) ← toParams r es
    return (r, p :: ps)

end

/-- An expression for a parameter, a number wherever there is a value. -/
def ofParam (p : Param F) : Expression F :=
  match p.value? with
  | some x => number x
  | none => match p with
    | .const x => number x
    | .pi => pi
    | .ref r => symbol r.name
    | .neg a => mul [number (-1), ofParam a]
    | .add a b => add [ofParam a, ofParam b]
    | .sub a b => add [ofParam a, mul [number (-1), ofParam b]]
    | .mul a b => mul [ofParam a, ofParam b]
    | .div a b => mul [ofParam a, pow [ofParam b, number (-1)]]

end Expression

end Interchange.Cirq
