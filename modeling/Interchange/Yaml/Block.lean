import Interchange.Yaml.Glyph

namespace Interchange.Yaml

/-- What happens to the ends of lines after a block. -/
inductive Chomping
  | strip
  | clip
  | keep
deriving DecidableEq

namespace Chomping

def ofChar? : Char → Option Chomping
  | '-' => some strip
  | '+' => some keep
  | _ => none

end Chomping

def depthOfChar? (c : Char) : Option Nat :=
  if c.isDigit && c ≠ '0' then some (c.toNat - '0'.toNat) else none

def restOfLine (gs : List Glyph) : Lexed Unit (gs.length + 1) :=
  let line := (Parsed.here () gs).dropWhile Glyph.isBlank
  let line := if startsWithAny ['#'] line.rest then line.dropWhile (!·.isBreak) else line
  match line.rest with
  | [] => some line
  | g :: _ => if g.isBreak then some (line.drop 1) else none

def blockHeader (gs : List Glyph) :
    Lexed (Chomping × Option Nat) (gs.length + 1) :=
  let at? {α : Type} (read : Char → Option α) (k : Nat) : Option α :=
    (gs[k]?).bind fun g => read g.char
  let marks : Chomping × Option Nat :=
    match at? Chomping.ofChar? 0, at? depthOfChar? 0 with
    | some chomping, _ => (chomping, at? depthOfChar? 1)
    | none, some depth => ((at? Chomping.ofChar? 1).getD .clip, some depth)
    | none, none => (.clip, none)
  let count := (if marks.1 = .clip then 0 else 1) + (if marks.2.isSome then 1 else 0)
  let header := (Parsed.here marks gs).drop count
  (restOfLine header.rest).map fun line => header.since (line.map fun _ => marks)

/-- Ends of lines before the next line of a block, with the deepest column seen. Indentation is
spaces up to the column of the block, if that is known. -/
def blockBreaks (column : Option Nat) (deepest : Nat) (breaks : List Char) :
    (gs : List Glyph) → Lexed (Nat × List Char) (gs.length + 1)
  | [] => some (.here (deepest, breaks) [])
  | g :: rest =>
    let deepest := max deepest g.column
    let isBefore := column.all (g.column < ·)
    if isBefore && g.char == ' ' then (blockBreaks column deepest breaks rest).map .behind
    else if isBefore && g.char == '\t' then none
    else if g.isBreak then (blockBreaks column deepest (breaks ++ [g.char]) rest).map .behind
    else some (.here (deepest, breaks) (g :: rest))

/-- What stands between two lines of a block, which end and start with a blank or not. In a folded
block a single end of a line between two words becomes a space. -/
def blockJoin (literal blankBefore blankAfter : Bool) (lead trail : List Char) : List Char :=
  if !literal && lead = ['\n'] && !blankBefore && !blankAfter then
    if trail.isEmpty then [' '] else trail
  else lead ++ trail

def blockLines (literal : Bool) (chomping : Chomping) (column : Nat) (text lead trail : List Char)
    (blankBefore : Bool) (gs : List Glyph) : Lexed String (gs.length + 1) :=
  let all : String := String.ofList <| match chomping with
    | .strip => text
    | .clip => text ++ lead
    | .keep => text ++ lead ++ trail
  match gs with
  | [] => some (.here all [])
  | g :: rest =>
    if g.column ≠ column then some (.here all (g :: rest))
    else
      let words := g.char :: (rest.takeWhile (!·.isBreak)).map Glyph.char
      let text := text ++ blockJoin literal blankBefore g.isBlank lead trail ++ words
      let line := (Parsed.here () rest).dropWhile (!·.isBreak)
      have := line.rest_lt
      let lead := (line.rest.take 1).map Glyph.char
      let line := line.drop 1
      do
        let next ← (blockBreaks (some column) 0 [] line.rest).map line.since
        have := next.rest_lt
        let p ← blockLines literal chomping column text lead next.value.2 g.isBlank next.rest
        return (next.since p).behind
termination_by gs.length
decreasing_by simp only [List.length_cons]; omega

def blockScalar (literal : Bool) (indent : Option Nat) (gs : List Glyph) :
    Lexed String (gs.length + 1) := do
  let header ← blockHeader gs
  let (chomping, depth?) := header.value
  let column? := depth?.map (indent.getD 0 + ·)
  let start ← (blockBreaks column? 0 [] header.rest).map header.since
  let (deepest, breaks) := start.value
  let least := match indent with
    | none => 1
    | some column => column + 1
  -- unless it is given: the deepest column up to the first text, but right of the collection
  let column := column?.getD (max deepest least)
  let p ← blockLines literal chomping column [] [] breaks false start.rest
  return start.since p

end Interchange.Yaml
