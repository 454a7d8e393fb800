import Interchange.Number.Shortest
import Interchange.Scalar.Basic

namespace Interchange.Qasm

open Number (Decimal)

inductive BinaryOp
  | add | sub | mul | div | pow
deriving Repr, DecidableEq

inductive Expression
  | int (value : Nat)
  | float (value : Decimal)
  | identifier (name : String)
  | pi
  | tau
  | euler
  | neg (e : Expression)
  | binary (left : Expression) (op : BinaryOp) (right : Expression)
  | call (function : String) (args : List Expression)
  | paren (e : Expression)
deriving Repr

structure Reference where
  register : String
  index : Option Nat
deriving Repr, DecidableEq

structure GateCall where
  name : String
  params : List Expression
  qubits : List Reference
deriving Repr

/-- A gate defined by calls over its formal parameters and qubits. -/
structure GateDefinition where
  name : String
  params : List String
  qubits : List String
  body : List GateCall
deriving Repr

inductive Statement
  | includeFile (path : String)
  | qubits (name : String) (size : Nat)
  | bits (name : String) (size : Nat)
  | input (name : String)
  | gate (call : GateCall)
  | measure (qubits bits : List Reference)
  | reset (qubits : List Reference)
  | barrier (qubits : List Reference)
  | definition (gate : GateDefinition)
  | opaqueGate (name : String)
deriving Repr

structure Program where
  version : String
  statements : List Statement
deriving Repr

section

variable {F : Type} [Scalar F]

open Scalar

def applyFunction? (name : String) (x : F) : Option F :=
  match name with
  | "sin" => some (sin x)
  | "cos" => some (cos x)
  | "tan" => some (tan x)
  | "arcsin" | "asin" => some (asin x)
  | "arccos" | "acos" => some (acos x)
  | "arctan" | "atan" => some (atan x)
  | "exp" => some (exp x)
  | "ln" | "log" => some (log x)
  | "sqrt" => some (sqrt x)
  | _ => none

def BinaryOp.apply (op : BinaryOp) (x y : F) : F :=
  match op with
  | add => x + y
  | sub => x - y
  | mul => x * y
  | div => x / y
  | pow => Scalar.pow x y

def Expression.value? : Expression → Option F
  | int value => some (ofNat value)
  | float value => some (ofDecimal value)
  | identifier _ => none
  | pi => some Scalar.pi
  | tau => some Scalar.tau
  | euler => some Scalar.euler
  | neg e => e.value?.map (- ·)
  | binary left op right => do return op.apply (← left.value?) (← right.value?)
  | call function [arg] => do applyFunction? function (← arg.value?)
  | call _ _ => none
  | paren e => e.value?

end

end Interchange.Qasm
