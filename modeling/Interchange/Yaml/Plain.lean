import Interchange.Yaml.Glyph

namespace Interchange.Yaml

/-- What separates two words of a scalar: blanks, or ends of lines, of which the first may not
count. -/
inductive Gap
  | blanks (text : List Char)
  | lines (first : Option Char) (more : List Char)

namespace Gap

def none : Gap := blanks []

def isNone : Gap → Bool
  | blanks text => text.isEmpty
  | lines .. => false

def isLines : Gap → Bool
  | blanks _ => false
  | lines .. => true

def addBlank (c : Char) : Gap → Gap
  | blanks text => blanks (text ++ [c])
  | gap => gap

def addLine (c : Char) : Gap → Gap
  | blanks _ => lines (some c) []
  | lines first more => lines first (more ++ [c])

/-- A single end of a line is folded to a space, and the first of several is dropped. -/
def text : Gap → List Char
  | blanks text => text
  | lines (some '\n') [] => [' ']
  | lines (some '\n') more => more
  | lines (some c) more => c :: more
  | lines .none more => more

end Gap

/-- A word of a plain scalar does not go on here. After a gap the scalar ends at a comment, at a
mark of the document, and outside brackets at a line that is not indented enough. -/
def endsPlain (inFlow : Bool) (indent : Nat) (gap : Gap) (g : Glyph) (rest : List Glyph) : Bool :=
  (!gap.isNone &&
      ((!inFlow && g.column < indent) || isDocumentMark (g :: rest) || g.char == '#')) ||
    (g.char == ':' && endsWord rest) ||
    (inFlow && [',', '[', ']', '\x7b', '\x7d'].contains g.char)

def plainScalar (inFlow : Bool) (indent : Nat) (taken : List Char) (gap : Gap) :
    (gs : List Glyph) → Lexed (String × Bool) (gs.length + 1)
  | [] => some (.here (String.ofList taken.reverse, gap.isLines) [])
  | g :: rest =>
    if g.isBlank then
      -- a tab is no indentation, so none may stand where a line has to be indented
      if gap.isLines && g.column < indent && g.char == '\t' then none
      else (plainScalar inFlow indent taken (gap.addBlank g.char) rest).map .behind
    else if g.isBreak then (plainScalar inFlow indent taken (gap.addLine g.char) rest).map .behind
    else if endsPlain inFlow indent gap g rest then
      some (.here (String.ofList taken.reverse, gap.isLines) (g :: rest))
    else if inFlow && g.char == ':' && startsWithAny [',', '?', '[', ']', '\x7b', '\x7d'] rest then
      none
    else
      (plainScalar inFlow indent (g.char :: (gap.text.reverse ++ taken)) .none rest).map .behind

end Interchange.Yaml
