import Interchange.Yaml.Block
import Interchange.Yaml.Layout
import Interchange.Yaml.Plain
import Interchange.Yaml.Quoted

namespace Interchange.Yaml

/-- Skips blanks, comments and ends of lines up to the next token, and tells whether a key may start
there. Tabs are no indentation, so outside of brackets they do not stand before a key. -/
def skipBlank (inFlow inComment keyAllowed : Bool) :
    (gs : List Glyph) → Parsed Glyph Bool (gs.length + 1)
  | [] => .here keyAllowed []
  | g :: rest =>
    if g.isBreak then (skipBlank inFlow false (keyAllowed || !inFlow) rest).behind
    else if inComment then (skipBlank inFlow true keyAllowed rest).behind
    else if (g.column == 0 && g.char == '\ufeff') || g.char == ' ' ||
        ((inFlow || !keyAllowed) && g.char == '\t') then
      (skipBlank inFlow false keyAllowed rest).behind
    else if g.char == '#' then (skipBlank inFlow true keyAllowed rest).behind
    else .here keyAllowed (g :: rest)

def nodeName (gs : List Glyph) : Lexed String (gs.length + 1) :=
  let name := (Parsed.here (textOf (gs.takeWhile Glyph.isWord)) gs).dropWhile Glyph.isWord
  if name.value ≠ "" &&
      (endsWord name.rest ||
        startsWithAny ['?', ':', ',', ']', '\x7d', '%', '@', '\x60'] name.rest) then
    some name
  else none

/-- A plain scalar starts here. Most marks do not start one, and three of them only before a
word. -/
def startsPlain (inFlow : Bool) (c : Char) (rest : List Glyph) : Bool :=
  if c == '-' then !startsWithAny [' ', '\t'] rest
  else if c == '?' || c == ':' then !inFlow && !endsWord rest
  else !(isBlank c || [',', '[', ']', '\x7b', '\x7d', '#', '&', '*', '!', '|', '>', '\x27', '"',
    '%', '@', '\x60'].contains c)

namespace Layout

/-- A node that starts with a mark: its name, a reference to it, its tag, or a scalar in quotes or
in a block. -/
def marked? (s : Layout) (g : Glyph) (rest : List Glyph) :
    Lexed Layout (rest.length + 1) := do
  match g.char with
  | '*' => (← nodeName rest).mapM (s.reference? g)
  | '&' => (← nodeName rest).mapM (s.anchor? g)
  | '!' =>
    let name ← tagName (s.handles ++ defaultHandles) rest
    if endsWord name.rest || (s.inFlow && startsWithAny [','] name.rest) then
      name.mapM (s.content? g <| .tag ·)
    else none
  | '\x27' => (← singleQuoted [] .none rest).behind.mapM (s.content? g <| .scalar .singleQuoted ·)
  | '"' => (← doubleQuoted [] .none rest).behind.mapM (s.content? g <| .scalar .doubleQuoted ·)
  | '|' => (← blockScalar true s.columns.head? rest).mapM (s.blockScalar? <| .scalar .literal ·)
  | '>' => (← blockScalar false s.columns.head? rest).mapM (s.blockScalar? <| .scalar .folded ·)
  | _ => none

/-- A plain scalar. A key may follow it on a later line. -/
def plain? (s : Layout) (g : Glyph) (rest : List Glyph) :
    Lexed Layout (rest.length + 1) := do
  -- later lines of the scalar stand right of the block it is in
  let indent := match s.columns with
    | [] => 0
    | column :: _ => column + 1
  let text ← plainScalar s.inFlow indent [g.char] .none rest
  let s ← s.content? g (.scalar .plain text.value.1)
  return text.map fun (_, breaks) => s.allowKey breaks

def next? (s : Layout) (g : Glyph) (rest : List Glyph) :
    Lexed Layout (rest.length + 1) := do
  let s ← s.dropLate? g
  -- blocks end at the first token that stands left of them
  let s := s.closeBlocks (some g.column)
  let one (s : Layout) : Parsed Glyph Layout (rest.length + 1) := .here s rest
  if g.column == 0 && g.char == '%' then
    (← directive rest).mapM s.directive?
  else if isMarker '-' (g :: rest) then return (one (← s.documentMark? .documentStart)).drop 2
  else if isMarker '.' (g :: rest) then return (one (← s.documentMark? .documentEnd)).drop 2
  else match g.char with
    | '[' => return one (← s.startFlow? g .flowSequenceStart)
    | '\x7b' => return one (← s.startFlow? g .flowMappingStart)
    | ']' => return one (← s.endFlow? .flowSequenceEnd)
    | '\x7d' => return one (← s.endFlow? .flowMappingEnd)
    | ',' => return one (← s.flowEntry?)
    | c =>
      if c == '-' && endsWord rest then return one (← s.blockEntry? g)
      else if c == '?' && (s.inFlow || endsWord rest) then return one (← s.key? g)
      else if c == ':' && (s.inFlow || endsWord rest) then return one (← s.value? g)
      else if ['*', '&', '!', '\x27', '"'].contains c || (!s.inFlow && ['|', '>'].contains c) then
        s.marked? g rest
      else if startsPlain s.inFlow c rest then s.plain? g rest
      else none

def scan (s : Layout) (gs : List Glyph) : Option (List Token) :=
  let start := skipBlank s.inFlow false s.keyAllowed gs
  let s := s.allowKey start.value
  match h : start.rest with
  | [] => s.finish?
  | g :: rest => do
    have : rest.length < gs.length := by
      have := start.rest_lt
      simp only [h, List.length_cons] at this
      omega
    let next ← s.next? g rest
    have := next.rest_lt
    scan next.value next.rest
termination_by gs.length

end Layout

def Token.scan? (text : String) : Option (List Token) :=
  if text.toList.all isAllowed then Layout.scan {} (Glyph.place text.toList) else none

end Interchange.Yaml
