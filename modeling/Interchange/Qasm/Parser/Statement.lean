import Interchange.Number.Written
import Interchange.Qasm.Lexer
import Interchange.Qasm.Parser.Expression

namespace Interchange.Qasm

namespace Parser

variable {F : Type}

def reference : Parser F Reference := do
  let register ← identifier
  if ← accept .lbracket then
    let i ← index
    symbol .rbracket
    return ⟨register, some i⟩
  else return ⟨register, none⟩

def references : Parser F (List Reference) := commaList reference

def terminated {α : Type} (a : α) : Parser F α := do
  symbol .semicolon
  return a

def gateCall (name : String) : Parser F GateCall := do
  let params ← if ← accept .lparen then do
      let params ← expressionList
      symbol .rparen
      pure params
    else pure []
  let qubits ← references
  terminated ⟨name, params, qubits⟩

def includeStatement : Parser F Statement := do
  let found ← next "include path"
  match found.token with
  | .string path => terminated (.includeFile path)
  | _ => unexpected "string literal" found

def sized (quantum : Bool) (name : String) (size : Nat) : Statement :=
  if quantum then .qubits name size else .bits name size

/-- `qreg name[n];` or `creg name[n];`, after the first word. -/
def namedRegister (quantum : Bool) : Parser F Statement := do
  let name ← identifier
  symbol .lbracket
  let size ← index
  symbol .rbracket
  terminated (sized quantum name size)

/-- `qubit[n] name;` or `bit[n] name;`, after the first word; the size may be left out. -/
def typedRegister (quantum : Bool) : Parser F Statement := do
  let size ← if ← accept .lbracket then do
      let size ← index
      symbol .rbracket
      pure size
    else pure 1
  let name ← identifier
  terminated (sized quantum name size)

/-- `input float[64] name;` or `input angle name;`, after the first word. -/
def inputStatement : Parser F Statement := do
  let found ← next "input type"
  if found.token = .keyword .float ∨ found.token = .keyword .angle then
    if ← accept .lbracket then
      let _ ← index
      symbol .rbracket
    let name ← identifier
    terminated (.input name)
  else unexpected "float or angle" found

/-- `measure qubits -> bits;`, after the first word; the bits may be left out. -/
def measureStatement : Parser F Statement := do
  let qubits ← references
  let bits ← if ← accept .arrow then references else pure []
  terminated (.measure qubits bits)

def barrierStatement : Parser F Statement := do
  let qubits ← if (← peek?) = some (.symbol .semicolon) then pure [] else references
  terminated (.barrier qubits)

/-- The built-in `U` and `CX` may be names of gates too. -/
def gateName? : Token → Option String
  | .identifier name => some name
  | .keyword .gateU => some Keyword.gateU.text
  | .keyword .gateCX => some Keyword.gateCX.text
  | _ => none

def gateName : Parser F String := do
  let found ← next "gate name"
  match gateName? found.token with
  | some name => return name
  | none => unexpected "gate name" found

/-- The calls up to the closing brace; barriers among them are skipped. -/
def gateBody : Parser F (List GateCall)
  | [] => .error (.unexpectedEnd "'\x7d'")
  | t :: ts =>
    if t.token = .symbol .rbrace then .ok ([], ⟨ts, Nat.le_succ _⟩)
    else if t.token = .keyword .barrier then
      match skipStatement ts with
      | .error e => .error e
      | .ok (_, rest) => match gateBody rest.val with
        | .error e => .error e
        | .ok (calls, rest') => .ok (calls, ⟨rest'.val, by
            have := rest.property
            have := rest'.property
            simp only [List.length_cons]
            omega⟩)
    else match gateName? t.token with
      | none => .error (.unexpectedToken t.line "gate call" t.token.text)
      | some name => match gateCall name ts with
        | .error e => .error e
        | .ok (call, rest) => match gateBody rest.val with
          | .error e => .error e
          | .ok (calls, rest') => .ok (call :: calls, ⟨rest'.val, by
              have := rest.property
              have := rest'.property
              simp only [List.length_cons]
              omega⟩)
termination_by ts => ts.length
decreasing_by
  all_goals
    have := rest.property
    simp only [List.length_cons]
    omega

/-- `gate name(a, b) p, q { ... }`, after the first word. -/
def definition : Parser F Statement := do
  let name ← gateName
  let params ← if ← accept .lparen then do
      let params ← if (← peek?) = some (.symbol .rparen) then pure [] else commaList identifier
      symbol .rparen
      pure params
    else pure []
  let qubits ← commaList identifier
  symbol .lbrace
  let body ← gateBody
  return .definition ⟨name, params, qubits, body⟩

def opaqueStatement : Parser F Statement := do
  let name ← gateName
  skipStatement
  return .opaqueGate name

/-- `c = measure q;` or `c[i] = measure q;`, after the name. -/
def measureAssignment (register : String) : Parser F Statement := do
  let index ← if ← accept .lbracket then do
      let i ← index
      symbol .rbracket
      pure (some i)
    else pure none
  symbol .eq
  let found ← next "measure"
  if found.token = .keyword .measure then
    let qubits ← references
    terminated (.measure qubits [⟨register, index⟩])
  else fail (.unsupported (.assignment found.line found.token.text))

def namedStatement (name : String) : Parser F Statement := do
  let following ← peek?
  -- neither sign follows the name of a gate in a call
  if following = some (.symbol .eq) ∨ following = some (.symbol .lbracket) then
    measureAssignment name
  else return .gate (← gateCall name)

def statementFrom (first : Placed) : Parser F Statement :=
  match first.token with
  | .keyword .includeFile => includeStatement
  | .keyword .qreg => namedRegister true
  | .keyword .creg => namedRegister false
  | .keyword .qubit => typedRegister true
  | .keyword .bit => typedRegister false
  | .keyword .input => inputStatement
  | .keyword .measure => measureStatement
  | .keyword .reset => do terminated (.reset (← references))
  | .keyword .barrier => barrierStatement
  | .keyword .gate => definition
  | .keyword .opaqueGate => opaqueStatement
  | .keyword .gateU => do return .gate (← gateCall Keyword.gateU.text)
  | .keyword .gateCX => do return .gate (← gateCall Keyword.gateCX.text)
  | .identifier name => namedStatement name
  | _ => unexpected "statement" first

def statements : List Placed → Except (Error F) (List Statement)
  | [] => .ok []
  | t :: ts => match statementFrom t ts with
    | .error e => .error e
    | .ok (s, rest) => match statements rest.val with
      | .error e => .error e
      | .ok all => .ok (s :: all)
termination_by ts => ts.length
decreasing_by
  have := rest.property
  simp only [List.length_cons]
  omega

/-- The version of the header with one decimal place; only versions 2 and 3 are known. -/
def version : Parser F String := do
  let found ← next "version number"
  match found.token with
  | .float value => known (Number.fixed 1 value.toDouble)
  | .int value => known s!"{value}.0"
  | other => fail (.invalidVersion other.text)
where
  known (text : String) : Parser F String :=
    if "2.".isPrefixOf text || "3.".isPrefixOf text then pure text else fail (.invalidVersion text)

def header : Parser F String := do
  keyword .openqasm
  let version ← version
  terminated version

end Parser

def Program.parse {F : Type} (source : String) : Except (Error F) Program :=
  match scan source with
  | .error (line, text) => .error (.invalidToken line text)
  | .ok tokens => do
    let (version, rest) ← Parser.header tokens
    return ⟨version, ← Parser.statements rest.val⟩

end Interchange.Qasm
