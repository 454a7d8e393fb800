import Interchange.Qasm.Token

namespace Interchange.Qasm

open Number (Decimal digitsValue)

/-- What stands at the head of a text: a separator, a token, or characters that form none. -/
inductive Lexeme
  | separator
  | token (token : Token)
  | invalid
deriving Repr, DecidableEq

namespace Lexeme

def isSpace (c : Char) : Bool := c == ' ' || c == '\t' || c == '\r' || c == '\n'

def startsWord (c : Char) : Bool := c.isAlpha || c == '_'

def continuesWord (c : Char) : Bool := c.isAlphanum || c == '_'

def commentLength? : List Char → Option Nat
  | '*' :: '/' :: _ => some 2
  | _ :: cs => (commentLength? cs).map (· + 1)
  | [] => none

def exponentLength : List Char → Nat
  | mark :: cs =>
    if mark == 'e' || mark == 'E' then
      let (sign, digits) := match cs with
        | '+' :: ds => (1, ds)
        | '-' :: ds => (1, ds)
        | ds => (0, ds)
      let n := (digits.takeWhile Char.isDigit).length
      if n = 0 then 0 else 1 + sign + n
    else 0
  | [] => 0

/-- The length of a number that starts with a digit or with a point before a digit, and whether it
has a point or an exponent. -/
def numberLength (text : List Char) : Nat × Bool :=
  let whole := (text.takeWhile Char.isDigit).length
  match text.drop whole with
  | '.' :: rest =>
    let fraction := (rest.takeWhile Char.isDigit).length
    (whole + 1 + fraction + exponentLength (rest.drop fraction), true)
  | rest =>
    let exponent := exponentLength rest
    (whole + exponent, exponent != 0)

def integerLimit : Nat := 18446744073709551616

def ofNumber (literal : List Char) (isFloat : Bool) : Lexeme :=
  if isFloat then match Decimal.read? literal with
    | some value => token (.float value)
    | none => invalid
  else if digitsValue literal < integerLimit then token (.int (digitsValue literal))
  else invalid

def ofWord (word : String) : Lexeme :=
  match Keyword.ofText? word with
  | some keyword => token (.keyword keyword)
  | none => token (.identifier word)

def ofSymbol? : Char → Option Symbol
  | '+' => some .plus
  | '-' => some .minus
  | '*' => some .star
  | '/' => some .slash
  | '^' => some .caret
  | '=' => some .eq
  | '(' => some .lparen
  | ')' => some .rparen
  | '[' => some .lbracket
  | ']' => some .rbracket
  | '\x7b' => some .lbrace
  | '\x7d' => some .rbrace
  | ';' => some .semicolon
  | ':' => some .colon
  | ',' => some .comma
  | _ => none

/-- The longest lexeme at the head of `c :: cs`, with the number of its characters after `c`. A
quote or a comment that is not closed is invalid up to the end. -/
def head (c : Char) (cs : List Char) : Lexeme × Nat :=
  if isSpace c then (separator, 0)
  else if startsWord c then
    let tail := cs.takeWhile continuesWord
    (ofWord (String.ofList (c :: tail)), tail.length)
  else if c.isDigit || (c == '.' && (cs.head?.any Char.isDigit)) then
    let (length, isFloat) := numberLength (c :: cs)
    (ofNumber ((c :: cs).take length) isFloat, length - 1)
  else match c, cs with
    | 'π', _ => (token (.keyword .pi), 0)
    | 'τ', _ => (token (.keyword .tau), 0)
    | '"', _ =>
      let body := cs.takeWhile (· != '"')
      if body.length < cs.length then (token (.string (String.ofList body)), body.length + 1)
      else (invalid, cs.length)
    | '/', '/' :: rest => (separator, 1 + (rest.takeWhile (· != '\n')).length)
    | '/', '*' :: rest => match commentLength? rest with
      | some length => (separator, 1 + length)
      | none => (invalid, cs.length)
    | '*', '*' :: _ => (token (.symbol .power), 1)
    | '-', '>' :: _ => (token (.symbol .arrow), 1)
    | _, _ => match ofSymbol? c with
      | some symbol => (token (.symbol symbol), 0)
      | none => (invalid, 0)

end Lexeme

/-- The first token of a text, or the characters that are none, and the text after it. Separators
before it are skipped. -/
def firstToken? : List Char → Option (Except String Token × List Char)
  | [] => none
  | c :: cs => match Lexeme.head c cs with
    | (.separator, n) => firstToken? (cs.drop n)
    | (.token token, n) => some (.ok token, cs.drop n)
    | (.invalid, n) => some (.error (String.ofList (c :: cs.take n)), cs.drop n)
termination_by text => text.length
decreasing_by
  simp only [List.length_drop, List.length_cons]
  omega

/-- The tokens of a text that starts on a line, or the line and the characters that form none. -/
def scanFrom (line : Nat) : List Char → Except (Nat × String) (List Placed)
  | [] => .ok []
  | c :: cs =>
    let (lexeme, n) := Lexeme.head c cs
    -- comments and quotes may go over several lines; a token counts where it starts
    let after := line + (c :: cs.take n).count '\n'
    match lexeme with
    | .separator => scanFrom after (cs.drop n)
    | .token token => (scanFrom after (cs.drop n)).map (⟨token, line⟩ :: ·)
    | .invalid => .error (line, String.ofList (c :: cs.take n))
termination_by text => text.length
decreasing_by
  all_goals
    simp only [List.length_drop, List.length_cons]
    omega

def scan (source : String) : Except (Nat × String) (List Placed) := scanFrom 1 source.toList

end Interchange.Qasm
