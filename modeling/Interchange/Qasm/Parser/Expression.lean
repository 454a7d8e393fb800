import Interchange.Parsed
import Interchange.Qasm.Parser.Basic
import Interchange.Qasm.Program

namespace Interchange.Qasm

namespace BinaryOp

def ofToken? : Token → Option BinaryOp
  | .symbol .plus => some add
  | .symbol .minus => some sub
  | .symbol .star => some mul
  | .symbol .slash => some div
  | .symbol .power | .symbol .caret => some pow
  | _ => none

def precedence : BinaryOp → Nat
  | add | sub => 1
  | mul | div => 2
  | pow => 3

/-- The least precedence in the right operand; only powers group to the right. -/
def rightPrecedence (op : BinaryOp) : Nat :=
  if op = pow then op.precedence else op.precedence + 1

end BinaryOp

namespace Parser

variable {F : Type}

abbrev Attempt (F : Type) (α : Type) (bound : Nat) := Except (Error F) (Parsed Placed α bound)

def close (ts : List Placed) : Attempt F Unit ts.length :=
  match ts with
  | [] => .error (.unexpectedEnd "expected )")
  | t :: rest =>
    if t.token = .symbol .rparen then return .here () rest
    else .error (.unexpectedToken t.line ")" t.token.text)

mutual

/-- An operand and all operators after it of at least a precedence. -/
def binary (least : Nat) (ts : List Placed) : Attempt F Expression ts.length := do
  let first ← unary ts
  have := first.rest_lt
  let all ← climb least first.value first.rest
  return first.since all
termination_by (ts.length, 4)

def climb (least : Nat) (left : Expression) (ts : List Placed) :
    Attempt F Expression (ts.length + 1) :=
  match ts with
  | [] => return .here left []
  | t :: rest => match BinaryOp.ofToken? t.token with
    | none => return .here left (t :: rest)
    | some op =>
      -- a weaker operator is left to the caller, whose left operand this is
      if op.precedence < least then return .here left (t :: rest)
      else do
        let right ← binary op.rightPrecedence rest
        have := right.rest_lt
        let all ← climb least (.binary left op right.value) right.rest
        return (right.since all).behind.behind
termination_by (ts.length, 0)

/-- Signs bind tighter than every operator, and a plus leaves no trace. -/
def unary (ts : List Placed) : Attempt F Expression ts.length :=
  match ts with
  | ⟨.symbol .minus, _⟩ :: rest => do
    let inner ← unary rest
    return (inner.map .neg).behind
  | ⟨.symbol .plus, _⟩ :: rest => do
    let inner ← unary rest
    return inner.behind
  | ts => primary ts
termination_by (ts.length, 3)

def primary (ts : List Placed) : Attempt F Expression ts.length :=
  match ts with
  | [] => .error (.unexpectedEnd "expression")
  | t :: rest => match t.token with
    | .int value => return .here (.int value) rest
    | .float value => return .here (.float value) rest
    | .keyword .pi => return .here .pi rest
    | .keyword .tau => return .here .tau rest
    | .keyword .euler => return .here .euler rest
    | .identifier name => match rest with
      | ⟨.symbol .lparen, _⟩ :: inside => do
        let args ← arguments inside
        let after ← close args.rest
        return (args.after (after.map fun _ => .call name args.value)).behind
      | rest => return .here (.identifier name) rest
    | .symbol .lparen => do
      let inner ← binary 0 rest
      let after ← close inner.rest
      return (inner.after (after.map fun _ => .paren inner.value)).behind
    | other => .error (.unexpectedToken t.line "expression" other.text)
termination_by (ts.length, 2)

def arguments (ts : List Placed) : Attempt F (List Expression) (ts.length + 1) :=
  match ts with
  | ⟨.symbol .rparen, line⟩ :: rest =>
    return .here [] (⟨.symbol .rparen, line⟩ :: rest)
  | ts => do
    let first ← binary 0 ts
    have := first.rest_lt
    let all ← moreArguments first.rest
    return (first.since (all.map (first.value :: ·))).behind
termination_by (ts.length, 5)

def moreArguments (ts : List Placed) : Attempt F (List Expression) (ts.length + 1) :=
  match ts with
  | ⟨.symbol .comma, _⟩ :: rest => do
    let first ← binary 0 rest
    have := first.rest_lt
    let all ← moreArguments first.rest
    return (first.since (all.map (first.value :: ·))).behind.behind
  | ts => return .here [] ts
termination_by (ts.length, 0)

end

def expressionList : Parser F (List Expression) := fun ts => do
  let all ← arguments ts
  return (all.value, ⟨all.rest, Nat.le_of_lt_succ all.rest_lt⟩)

def expression : Parser F Expression := fun ts => do
  let e ← binary 0 ts
  return (e.value, ⟨e.rest, Nat.le_of_lt e.rest_lt⟩)

end Parser

end Interchange.Qasm
