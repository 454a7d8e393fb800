import Interchange.Param.Evaluate
import Interchange.Param.Token
import Interchange.Parsed

namespace Interchange.Param

variable {F : Type} [Scalar F]

/-- A fault and the tokens from the one it is about. -/
abbrev Attempt (α : Type) (bound : Nat) :=
  Except (ExpressionFault × List Token) (Parsed Token α bound)

mutual

/-- `sum := product (('+' | '-') product)*`, with `handle` giving the parameter of a name. -/
def parseSum (handle : String → Handle) (ts : List Token) : Attempt (Param F) ts.length := do
  let first ← parseProduct handle ts
  have := first.rest_lt
  let all ← parseSumTail handle first.value first.rest
  return first.since all
termination_by (ts.length, 4)

def parseSumTail (handle : String → Handle) (left : Param F) (ts : List Token) :
    Attempt (Param F) (ts.length + 1) :=
  match ts with
  | .plus :: rest => do
    let right ← parseProduct handle rest
    have := right.rest_lt
    let all ← parseSumTail handle (.add left right.value) right.rest
    return (right.since all).behind.behind
  | .minus :: rest => do
    let right ← parseProduct handle rest
    have := right.rest_lt
    let all ← parseSumTail handle (.sub left right.value) right.rest
    return (right.since all).behind.behind
  | ts => return .here left ts
termination_by (ts.length, 0)

/-- `product := unary (('*' | '/') unary)*`. -/
def parseProduct (handle : String → Handle) (ts : List Token) : Attempt (Param F) ts.length := do
  let first ← parseUnary handle ts
  have := first.rest_lt
  let all ← parseProductTail handle first.value first.rest
  return first.since all
termination_by (ts.length, 3)

def parseProductTail (handle : String → Handle) (left : Param F) (ts : List Token) :
    Attempt (Param F) (ts.length + 1) :=
  match ts with
  | .star :: rest => do
    let right ← parseUnary handle rest
    have := right.rest_lt
    let all ← parseProductTail handle (.mul left right.value) right.rest
    return (right.since all).behind.behind
  | .slash :: rest => do
    let right ← parseUnary handle rest
    have := right.rest_lt
    let all ← parseProductTail handle (.div left right.value) right.rest
    return (right.since all).behind.behind
  | ts => return .here left ts
termination_by (ts.length, 0)

/-- `unary := '-' unary | '+' unary | atom`, where a plus leaves no trace. -/
def parseUnary (handle : String → Handle) (ts : List Token) : Attempt (Param F) ts.length :=
  match ts with
  | .minus :: rest => do
    let inner ← parseUnary handle rest
    return (inner.map .neg).behind
  | .plus :: rest => do
    let inner ← parseUnary handle rest
    return inner.behind
  | ts => parseAtom handle ts
termination_by (ts.length, 2)

/-- `atom := number | 'pi' | name | '(' sum ')'`. -/
def parseAtom (handle : String → Handle) (ts : List Token) : Attempt (Param F) ts.length :=
  match ts with
  | .number value :: rest => return .here (.const (Scalar.ofDecimal value)) rest
  | .name text :: rest =>
    return .here (if Token.isPi text then .pi else .ref (handle text)) rest
  | .lparen :: rest => do
    let inner ← parseSum handle rest
    match h : inner.rest with
    | .rparen :: after =>
      return ⟨inner.value, after, by
        have := inner.rest_lt
        simp only [h, List.length_cons] at this ⊢
        omega⟩
    | after => .error (.missingClose, after)
  | [] => .error (.unexpectedEnd, [])
  | ts => .error (.expectedOperand, ts)
termination_by (ts.length, 1)

end

/-- Reads an expression. The names before the place where reading stops are registered, in order,
also when it stops at a fault. -/
def parse (registry : Registry) (text : String) : Registry × Except (CircuitError F) (Param F) :=
  match Token.scan text.toList with
  | .error fault => (registry, .error (.unreadable text fault))
  | .ok tokens =>
    -- more names after it do not change a handle, so those of the whole text serve any part
    let full := registry.registerAll (Token.names tokens)
    let handle (name : String) : Handle := (full.lookup? name).getD ⟨full.size, name⟩
    let upTo (rest : List Token) : Registry :=
      registry.registerAll (Token.names (tokens.take (tokens.length - rest.length)))
    match parseSum handle tokens with
    | .error (fault, rest) => (upTo rest, .error (.unreadable text fault))
    | .ok ⟨e, [], _⟩ => (full, .ok e.simplify)
    | .ok ⟨_, rest, _⟩ => (upTo rest, .error (.unreadable text .trailingInput))

end Interchange.Param
