import Interchange.Number.Digit
import Interchange.Yaml.Glyph

namespace Interchange.Yaml

abbrev Handles := List (String × String)

def defaultHandles : Handles := [("!", "!"), ("!!", "tag:yaml.org,2002:")]

/-- The characters of tags other than those of names. Between angle brackets there may be more. -/
def isUriChar (verbatim : Bool) (c : Char) : Bool :=
  isWord c || [';', '/', '?', ':', '@', '&', '=', '+', '$', '.', '%', '!', '~', '*', '\x27', '(',
    ')'].contains c || (verbatim && [',', '[', ']'].contains c)

def octet? : List Char → Option Nat
  | '%' :: high :: low :: _ => Number.natOfDigits? 16 [high, low]
  | _ => none

/-- How many octets stand for the character that an octet starts, and its own bits of it. -/
def leadingOctet? (octet : Nat) : Option (Nat × Nat) :=
  if octet < 0x80 then some (1, octet)
  else if octet / 0x20 = 6 then some (2, octet % 0x20)
  else if octet / 0x10 = 14 then some (3, octet % 0x10)
  else if octet / 8 = 30 then some (4, octet % 8)
  else none

def trailingOctets? (bits : Nat) : Nat → List Char → Option Nat
  | 0, _ => some bits
  | count + 1, cs => do
    let octet ← octet? cs
    if octet / 0x40 ≠ 2 then none
    else trailingOctets? (0x40 * bits + octet % 0x40) count (cs.drop 3)

def octets? (cs : List Char) : Option (Char × Nat) := do
  let (count, bits) ← leadingOctet? (← octet? cs)
  let n ← trailingOctets? bits (count - 1) (cs.drop 3)
  return (Char.ofNat n, 3 * count)

def decodeUri? (cs : List Char) : Option (List Char) :=
  match cs with
  | [] => some []
  | c :: rest =>
    if c = '%' then
      match octets? (c :: rest) with
      | some (d, count + 1) => (decodeUri? (rest.drop count)).map (d :: ·)
      | _ => none
    else (decodeUri? rest).map (c :: ·)
termination_by cs.length
decreasing_by all_goals simp only [List.length_cons, List.length_drop]; omega

def uri (verbatim : Bool) (gs : List Glyph) : Lexed String (gs.length + 1) := do
  let isPart (g : Glyph) : Bool := isUriChar verbatim g.char
  let text ← decodeUri? ((gs.takeWhile isPart).map Glyph.char)
  return (Parsed.here (String.ofList text) gs).dropWhile isPart

/-- A tag after its exclamation mark: in angle brackets, with a handle, or a name of its own. -/
def tagName (handles : Handles) (gs : List Glyph) : Lexed String (gs.length + 1) := do
  if startsWithAny ['<'] gs then
    let start := (Parsed.here () gs).drop 1
    let name ← (uri true start.rest).map start.since
    if name.value ≠ "" && startsWithAny ['>'] name.rest then return name.drop 1 else none
  else
    let word := (Parsed.here (textOf (gs.takeWhile Glyph.isWord)) gs).dropWhile Glyph.isWord
    if startsWithAny ['!'] word.rest then
      let handle := word.drop 1
      let suffix ← (uri false handle.rest).map handle.since
      let whole ← handles.lookup ("!" ++ word.value ++ "!")
      if suffix.value = "" then none else return suffix.map (whole ++ ·)
    else
      let suffix ← (uri false word.rest).map word.since
      let name := word.value ++ suffix.value
      let whole ← if name = "" then some "!" else handles.lookup "!"
      return suffix.map fun _ => whole ++ name

end Interchange.Yaml
