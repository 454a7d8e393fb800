import Interchange.Scalar.Basic

namespace Interchange

/-- A free parameter of a circuit. Its number identifies it; the name is how it is written. -/
structure Handle where
  id : Nat
  name : String
deriving Repr, DecidableEq

instance : BEq Handle := ⟨fun a b => a.id == b.id⟩

/-- An angle: an expression in numbers, `π` and free parameters. -/
inductive Param (F : Type)
  | const (value : F)
  | pi
  | ref (handle : Handle)
  | neg (e : Param F)
  | add (a b : Param F)
  | sub (a b : Param F)
  | mul (a b : Param F)
  | div (a b : Param F)
deriving Repr, BEq

namespace Param

variable {F : Type}

def isSymbolic : Param F → Bool
  | const _ | pi => false
  | ref _ => true
  | neg e => e.isSymbolic
  | add a b | sub a b | mul a b | div a b => a.isSymbolic || b.isSymbolic

/-- Appends the parameters of an expression that are not yet listed, from left to right. -/
def collect : Param F → List Handle → List Handle
  | const _, seen | pi, seen => seen
  | ref r, seen => if seen.any (·.id == r.id) then seen else seen ++ [r]
  | neg e, seen => e.collect seen
  | add a b, seen | sub a b, seen | mul a b, seen | div a b, seen => b.collect (a.collect seen)

def refs (p : Param F) : List Handle := p.collect []

def mapRefs (f : Handle → Handle) : Param F → Param F
  | const v => const v
  | pi => pi
  | ref r => ref (f r)
  | neg e => neg (e.mapRefs f)
  | add a b => add (a.mapRefs f) (b.mapRefs f)
  | sub a b => sub (a.mapRefs f) (b.mapRefs f)
  | mul a b => mul (a.mapRefs f) (b.mapRefs f)
  | div a b => div (a.mapRefs f) (b.mapRefs f)

variable [Scalar F]

/-- The value of an expression without free parameters; a division by zero has none. -/
def value? : Param F → Option F
  | const v => some v
  | pi => some Scalar.pi
  | ref _ => none
  | neg e => e.value?.map (- ·)
  | add a b => do return (← a.value?) + (← b.value?)
  | sub a b => do return (← a.value?) - (← b.value?)
  | mul a b => do return (← a.value?) * (← b.value?)
  | div a b => do
    let divisor ← b.value?
    if divisor == 0 then none else return (← a.value?) / divisor

def hasValue (p : Param F) (v : F) : Bool := p.value?.any (· == v)

/-! ### Operations on simplified operands, which drop neutral elements -/

def reduceNeg : Param F → Param F
  | neg inner => inner
  | e => neg e

def reduceAdd (a b : Param F) : Param F :=
  if a.hasValue 0 then b else if b.hasValue 0 then a else add a b

def reduceSub (a b : Param F) : Param F :=
  if a.hasValue 0 then neg b else if b.hasValue 0 then a else sub a b

def reduceMul (a b : Param F) : Param F :=
  if a.hasValue 1 then b
  else if b.hasValue 1 then a
  else if a.hasValue (-1) then neg b
  else mul a b

def reduceDiv (a b : Param F) : Param F := if b.hasValue 1 then a else div a b

/-- Folds every part that has a value into a number and drops neutral elements. `π` alone stays. -/
def simplify : Param F → Param F
  | const v => const v
  | pi => pi
  | ref r => ref r
  | neg e => (neg e).value?.elim (reduceNeg e.simplify) const
  | add a b => (add a b).value?.elim (reduceAdd a.simplify b.simplify) const
  | sub a b => (sub a b).value?.elim (reduceSub a.simplify b.simplify) const
  | mul a b => (mul a b).value?.elim (reduceMul a.simplify b.simplify) const
  | div a b => (div a b).value?.elim (reduceDiv a.simplify b.simplify) const

instance : Neg (Param F) := ⟨fun a => (neg a).simplify⟩

instance : Add (Param F) := ⟨fun a b => (add a b).simplify⟩

instance : Sub (Param F) := ⟨fun a b => (sub a b).simplify⟩

instance : Mul (Param F) := ⟨fun a b => (mul a b).simplify⟩

instance : Div (Param F) := ⟨fun a b => (div a b).simplify⟩

def isAdmissible (p : Param F) : Bool := p.isSymbolic || p.value?.any Scalar.isFinite

end Param

end Interchange
