import Interchange.Circuit.Error
import Interchange.Number.Numeral
import Interchange.Text.Blank
import Interchange.Text.Numeric

namespace Interchange.Param

open Number (Decimal)

inductive Token
  | number (value : Decimal)
  | name (text : String)
  | plus | minus | star | slash | lparen | rparen
deriving Repr, DecidableEq

namespace Token

def ofPunctuation? : Char → Option Token
  | '+' => some plus
  | '-' => some minus
  | '*' => some star
  | '/' => some slash
  | '(' => some lparen
  | ')' => some rparen
  | _ => none

def startsNumber (c : Char) : Bool := c.isDigit || c == '.'

def startsName (c : Char) : Bool := Text.isLetter c || c == '_'

def continuesName (c : Char) : Bool :=
  Text.isLetterOrNumeric c || c == '_' || c == '[' || c == ']'

/-- The rest of a number: digits, points and exponent marks, and a sign right after a mark. -/
def spanNumber (previous : Char) : List Char → List Char × List Char
  | [] => ([], [])
  | c :: cs =>
    let afterMark := previous == 'e' || previous == 'E'
    if c.isDigit || c == '.' || c == 'e' || c == 'E' || (c == '+' || c == '-') && afterMark then
      let (taken, rest) := spanNumber c cs
      (c :: taken, rest)
    else ([], c :: cs)

theorem length_spanNumber_le (previous : Char) (cs : List Char) :
    (spanNumber previous cs).2.length ≤ cs.length := by
  induction cs generalizing previous with
  | nil => simp [spanNumber]
  | cons c cs ih =>
    simp only [spanNumber]
    split
    · exact Nat.le_succ_of_le (ih c)
    · exact Nat.le_refl _

/-- The tokens of an expression. White space separates them and is dropped. -/
def scan : List Char → Except ExpressionFault (List Token)
  | [] => .ok []
  | c :: cs =>
    if Text.isBlank c then scan cs
    else match ofPunctuation? c with
    | some token => (scan cs).map (token :: ·)
    | none =>
      if startsNumber c then
        let literal := c :: (spanNumber c cs).1
        match Decimal.read? literal with
        | none => .error (.invalidNumber (String.ofList literal))
        | some value => (scan (spanNumber c cs).2).map (number value :: ·)
      else if startsName c then
        let text := String.ofList (c :: cs.takeWhile continuesName)
        (scan (cs.dropWhile continuesName)).map (name text :: ·)
      else .error (.unexpectedCharacter c)
termination_by text => text.length
decreasing_by
  all_goals simp only [List.length_cons]
  · omega
  · omega
  · have := length_spanNumber_le c cs
    omega
  · have := (cs.dropWhile_sublist continuesName).length_le
    omega

def isPi (text : String) : Bool := text == "pi" || text == "π"

def names (tokens : List Token) : List String :=
  tokens.filterMap fun
    | name text => if isPi text then none else some text
    | _ => none

end Token

end Interchange.Param
