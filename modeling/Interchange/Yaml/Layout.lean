import Interchange.Yaml.Basic
import Interchange.Yaml.Directive
import Interchange.Yaml.Glyph
import Interchange.Yaml.Tag

namespace Interchange.Yaml

/-- A token of a document. Indentation is marked by a start and an end, and names of nodes are
already replaced by their numbers. -/
inductive Token
  | directive
  | documentStart
  | documentEnd
  | blockSequenceStart
  | blockMappingStart
  | blockEnd
  | flowSequenceStart
  | flowSequenceEnd
  | flowMappingStart
  | flowMappingEnd
  | blockEntry
  | flowEntry
  | key
  | value
  | anchor (number : Nat)
  | reference (number : Nat)
  | tag (name : String)
  | scalar (style : Style) (text : String)
deriving Repr, DecidableEq

/-- A place that turns out to be a key if a colon follows on its line. It has to if a key of the
innermost mapping is due there. -/
structure Candidate where
  position : Nat
  required : Bool
  start : Glyph

/-- A key ends on the line where it starts, within 1024 characters. -/
def Candidate.isLate (k : Candidate) (here : Glyph) : Bool :=
  k.start.line < here.line || k.start.index + 1024 < here.index

/-- What is known between two tokens: the tokens so far, the columns of the open blocks, innermost
first, the candidate for a key in the innermost brackets and those outside of each bracket, whether
a key may start here, and the names that were given. -/
structure Layout where
  tokens : Array Token := #[]
  columns : List Nat := []
  candidate : Option Candidate := none
  outer : List (Option Candidate) := []
  keyAllowed : Bool := true
  anchors : List (String × Nat) := []
  handles : Handles := []
  hasVersion : Bool := false

namespace Layout

def inFlow (s : Layout) : Bool := !s.outer.isEmpty

def push (s : Layout) (t : Token) : Layout := { s with tokens := s.tokens.push t }

def allowKey (s : Layout) (allowed : Bool) : Layout := { s with keyAllowed := allowed }

def closeBlocks (s : Layout) (column : Option Nat) : Layout :=
  if s.inFlow then s
  else
    let isInner (c : Nat) : Bool := column.all (· < c)
    { s with
      tokens := s.tokens ++ (s.columns.takeWhile isInner).map fun _ => Token.blockEnd
      columns := s.columns.dropWhile isInner }

/-- Opens a block at a column right of the innermost one, its start standing before the tokens from
a position on. -/
def openBlock (s : Layout) (column position : Nat) (start : Token) : Layout :=
  if s.inFlow || s.columns.head?.any (column ≤ ·) then s
  else
    { s with
      tokens := s.tokens.extract 0 position ++ #[start] ++ s.tokens.extract position s.tokens.size
      columns := column :: s.columns }

def giveUp? : Option Candidate → Option (Option Candidate)
  | none => some none
  | some k => if k.required then none else some none

def dropCandidate? (s : Layout) : Option Layout := do
  return { s with candidate := ← giveUp? s.candidate }

def dropLate? (s : Layout) (here : Glyph) : Option Layout := do
  let check (k : Option Candidate) : Option (Option Candidate) :=
    if k.any (·.isLate here) then giveUp? k else some k
  return { s with candidate := ← check s.candidate, outer := ← s.outer.mapM check }

def saveCandidate? (s : Layout) (here : Glyph) : Option Layout := do
  if s.keyAllowed then
    let _ ← giveUp? s.candidate
    let required := !s.inFlow && s.columns.head? == some here.column
    return { s with candidate := some ⟨s.tokens.size, required, here⟩ }
  else return s

def startFlow? (s : Layout) (here : Glyph) (start : Token) : Option Layout := do
  let s ← s.saveCandidate? here
  let s := { s with outer := s.candidate :: s.outer, candidate := none }
  return (s.allowKey true).push start

def endFlow? (s : Layout) (finish : Token) : Option Layout := do
  let s ← s.dropCandidate?
  let s := match s.outer with
    | [] => s
    | k :: outer => { s with candidate := k, outer := outer }
  return (s.allowKey false).push finish

def flowEntry? (s : Layout) : Option Layout := do
  return ((← s.dropCandidate?).allowKey true).push .flowEntry

/-- A block for an entry or a key that starts here. Outside of brackets it needs a place where a key
may start. -/
def startEntry? (s : Layout) (here : Glyph) (start : Token) : Option Layout :=
  if s.inFlow || s.keyAllowed then some (s.openBlock here.column s.tokens.size start) else none

def blockEntry? (s : Layout) (here : Glyph) : Option Layout := do
  let s ← (← s.startEntry? here .blockSequenceStart).dropCandidate?
  return (s.allowKey true).push .blockEntry

def key? (s : Layout) (here : Glyph) : Option Layout := do
  let s ← (← s.startEntry? here .blockMappingStart).dropCandidate?
  return (s.allowKey !s.inFlow).push .key

/-- A colon makes the candidate a key. Without one it follows a key of several lines. -/
def value? (s : Layout) (here : Glyph) : Option Layout :=
  match s.candidate with
  | some k =>
    let s := { s with
      tokens := s.tokens.extract 0 k.position ++ #[Token.key] ++
        s.tokens.extract k.position s.tokens.size }
    -- both go in before what has been read since the candidate, the mapping before the key
    let s := s.openBlock k.start.column k.position .blockMappingStart
    some ({ s with candidate := none, keyAllowed := false }.push .value)
  | none => do
    let s ← s.startEntry? here .blockMappingStart
    return (s.allowKey !s.inFlow).push .value

def documentMark? (s : Layout) (mark : Token) : Option Layout := do
  let s ← (s.closeBlocks none).dropCandidate?
  return (s.allowKey false).push mark

def directive? (s : Layout) (d : Directive) : Option Layout := do
  let s ← s.documentMark? .directive
  match d with
  | .version => if s.hasVersion then none else return { s with hasVersion := true }
  | .handle name whole =>
    if (s.handles.lookup name).isSome then none
    else return { s with handles := s.handles ++ [(name, whole)] }

def content? (s : Layout) (here : Glyph) (t : Token) : Option Layout := do
  return ((← s.saveCandidate? here).allowKey false).push t

/-- Names a node. Its number is how many names there were before. -/
def anchor? (s : Layout) (here : Glyph) (name : String) : Option Layout :=
  let number := s.anchors.length
  let others := s.anchors.filter (·.1 != name)
  { s with anchors := others ++ [(name, number)] }.content? here (.anchor number)

def reference? (s : Layout) (here : Glyph) (name : String) : Option Layout := do
  s.content? here (.reference (← s.anchors.lookup name))

/-- A block scalar ends at the start of a line, where a key may follow. -/
def blockScalar? (s : Layout) (t : Token) : Option Layout := do
  return ((← s.dropCandidate?).allowKey true).push t

def finish? (s : Layout) : Option (List Token) := do
  let s ← (s.closeBlocks none).dropCandidate?
  return s.tokens.toList

end Layout

end Interchange.Yaml
