import Interchange.Yaml.Block
import Interchange.Yaml.Tag

namespace Interchange.Yaml

inductive Directive
  | version
  | handle (name whole : String)

namespace Directive

def versionPart (gs : List Glyph) : Lexed Nat (gs.length + 1) := do
  let isDigit (g : Glyph) : Bool := g.char.isDigit
  let digits := (gs.takeWhile isDigit).map Glyph.char
  let n ← Number.natOfDigits? 10 digits
  if digits.length ≤ 9 then return (Parsed.here n gs).dropWhile isDigit else none

/-- A version that can be read: 1.1 or 1.2. -/
def version? (gs : List Glyph) : Lexed Directive (gs.length + 1) := do
  let start := (Parsed.here () gs).dropWhile Glyph.isBlank
  let major ← (versionPart start.rest).map start.since
  if startsWithAny ['.'] major.rest then
    let point := major.drop 1
    let minor ← (versionPart point.rest).map point.since
    if major.value = 1 ∧ (minor.value = 1 ∨ minor.value = 2) then
      return minor.map fun _ => version
    else none
  else none

/-- A handle, which has an exclamation mark at both ends or is one, and what it stands for. -/
def handle? (gs : List Glyph) : Lexed Directive (gs.length + 1) := do
  let start := (Parsed.here () gs).dropWhile Glyph.isBlank
  if startsWithAny ['!'] start.rest then
    let word := ((start.drop 1).map fun _ => textOf ((start.rest.drop 1).takeWhile Glyph.isWord))
    let word := word.dropWhile Glyph.isWord
    let closes := startsWithAny ['!'] word.rest
    let blank := if closes then word.drop 1 else word
    if (closes || word.value = "") && startsWithAny [' ', '\t'] blank.rest then
      let start := blank.dropWhile Glyph.isBlank
      let whole ← (uri true start.rest).map start.since
      if whole.value ≠ "" && endsWord whole.rest then
        let name := "!" ++ word.value ++ (if closes then "!" else "")
        return whole.map (handle name ·)
      else none
    else none
  else none

end Directive

def directive (gs : List Glyph) : Lexed Directive (gs.length + 1) := do
  let name := (Parsed.here (textOf (gs.takeWhile Glyph.isWord)) gs).dropWhile Glyph.isWord
  if endsWord name.rest then
    let read := if name.value = "YAML" then some Directive.version?
      else if name.value = "TAG" then some Directive.handle?
      else none
    let value ← ((← read) name.rest).map name.since
    (restOfLine value.rest).map fun line => value.since (line.map fun _ => value.value)
  else none

end Interchange.Yaml
