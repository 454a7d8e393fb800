import Interchange.Parsed

namespace Interchange.Yaml

/-- A character and where it stands: how many characters, lines, and characters of its line come
before it. -/
structure Glyph where
  char : Char
  index : Nat
  line : Nat
  column : Nat
deriving Repr

/-- The characters that a document may hold: no control characters but tabs and ends of lines. -/
def isAllowed (c : Char) : Bool :=
  c == '\t' || c == '\n' || c == '\r' || (' ' ≤ c && c ≤ '~') || c == '\u0085' ||
    ('\u00a0' ≤ c && c ≠ '\ufffe' && c ≠ '\uffff')

def isBreak (c : Char) : Bool :=
  c == '\n' || c == '\r' || c == '\u0085' || c == '\u2028' || c == '\u2029'

def isBlank (c : Char) : Bool := c == ' ' || c == '\t'

def isWord (c : Char) : Bool := c.isAlphanum || c == '_' || c == '-'

namespace Glyph

/-- The characters of a text with their places. All ends of lines but the two separators are
written alike. -/
def placeFrom (index line column : Nat) : List Char → List Glyph
  | [] => []
  | '\r' :: '\n' :: rest =>
    ⟨'\n', index, line, column⟩ :: placeFrom (index + 2) (line + 1) 0 rest
  | c :: rest =>
    if isBreak c then
      ⟨if c == '\r' || c == '\u0085' then '\n' else c, index, line, column⟩ ::
        placeFrom (index + 1) (line + 1) 0 rest
    else ⟨c, index, line, column⟩ :: placeFrom (index + 1) line (column + 1) rest

def place (cs : List Char) : List Glyph := placeFrom 0 0 0 cs

def isBreak (g : Glyph) : Bool := Yaml.isBreak g.char

def isBlank (g : Glyph) : Bool := Yaml.isBlank g.char

def isWord (g : Glyph) : Bool := Yaml.isWord g.char

end Glyph

def endsWord : List Glyph → Bool
  | [] => true
  | g :: _ => g.isBlank || g.isBreak

def startsWithAny (chars : List Char) : List Glyph → Bool
  | [] => false
  | g :: _ => chars.contains g.char

/-- Three times one character at the start of a line, and nothing more of a word. -/
def isMarker (mark : Char) : List Glyph → Bool
  | a :: b :: c :: rest =>
    a.column == 0 && a.char == mark && b.char == mark && c.char == mark && endsWord rest
  | _ => false

def isDocumentMark (gs : List Glyph) : Bool := isMarker '-' gs || isMarker '.' gs

abbrev Lexed (α : Type) (bound : Nat) := Option (Parsed Glyph α bound)

def textOf (gs : List Glyph) : String := String.ofList (gs.map Glyph.char)

end Interchange.Yaml
