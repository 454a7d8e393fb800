import Interchange.Json.Text
import Interchange.Json.Value
import Interchange.Parsed

namespace Interchange.Json

def isSpace (c : Char) : Bool := c == ' ' || c == '\n' || c == '\t' || c == '\r'

def skipSpace (cs : List Char) : List Char := cs.dropWhile isSpace

theorem length_skipSpace_le (cs : List Char) : (skipSpace cs).length ≤ cs.length :=
  (cs.dropWhile_sublist isSpace).length_le

/-- The length of a number: an optional minus, digits without a leading zero, and optionally a
fraction and an exponent, each with at least one digit. -/
def numberLength? (cs : List Char) : Option Nat := do
  let minus := if cs.head? = some '-' then 1 else 0
  let digits := ((cs.drop minus).takeWhile Char.isDigit).length
  if digits = 0 ∨ (1 < digits ∧ (cs.drop minus).head? = some '0') then none
  else
    let whole := minus + digits
    let fraction ← match cs.drop whole with
      | '.' :: rest =>
        let n := (rest.takeWhile Char.isDigit).length
        if n = 0 then none else some (n + 1)
      | _ => some 0
    let exponent ← match cs.drop (whole + fraction) with
      | mark :: rest =>
        if mark = 'e' ∨ mark = 'E' then
          let sign := if rest.head? = some '+' ∨ rest.head? = some '-' then 1 else 0
          let n := ((rest.drop sign).takeWhile Char.isDigit).length
          if n = 0 then none else some (n + sign + 1)
        else some 0
      | [] => some 0
    return whole + fraction + exponent

/-- A value and the text after it, shorter than a bound. -/
abbrev Read (α : Type) (bound : Nat) := Parsed Char α bound

def mark? (cs : List Char) : Option (Read Char cs.length) :=
  match h : skipSpace cs with
  | [] => none
  | c :: rest => some ⟨c, rest, by
      have := length_skipSpace_le cs
      simp only [h, List.length_cons] at this
      omega⟩

def word (value : Json) (tail : List Char) (cs : List Char) : Option (Read Json (cs.length + 1)) :=
  if tail.isPrefixOf cs then
    some ⟨value, cs.drop tail.length, by simp only [List.length_drop]; omega⟩
  else none

/-- The rest of a quoted text, if it can be read. -/
def quoted? (cs : List Char) : Option (Read (Option String) cs.length) :=
  match h : skipQuoted? cs with
  | none => none
  | some rest =>
    some ⟨(unquote? cs).map fun r => String.ofList r.1, rest, length_of_skipQuoted? h⟩

def key? (cs : List Char) : Option (Read (Option String) cs.length) := do
  let start ← mark? cs
  let key ← (quoted? start.rest).map start.after
  let colon ← (mark? key.rest).map key.after
  if start.value = '"' ∧ colon.value = ':' then some (colon.map fun _ => key.value) else none

def numeral? {n : Nat} (first : Read Char n) : Option (Read Json n) :=
  match numberLength? (first.value :: first.rest) with
  | some (k + 1) =>
    some ((first.drop k).map fun c => .number (String.ofList (c :: first.rest.take k)))
  | _ => none

mutual

def value (cs : List Char) : Option (Read Json cs.length) := do
  let first ← mark? cs
  have := first.rest_lt
  let c := first.value
  if c = '"' then
    let text ← quoted? first.rest
    -- a text that cannot be read still has an end, and reading goes on there
    return first.after (text.map fun t => (t.map string).getD unreadable)
  else if c = '[' then
    let next ← mark? first.rest
    if next.value = ']' then return first.after (next.map fun _ => array [])
    let all ← elements first.rest
    return first.after (all.map array)
  else if c = '\x7b' then
    let next ← mark? first.rest
    if next.value = '\x7d' then return first.after (next.map fun _ => object [])
    let all ← entries first.rest
    return first.after (all.map ofEntries)
  else if c = 't' then (word (bool true) "rue".toList first.rest).map first.since
  else if c = 'f' then (word (bool false) "alse".toList first.rest).map first.since
  else if c = 'n' then (word null "ull".toList first.rest).map first.since
  else numeral? first
termination_by (cs.length, 0)

def elements (cs : List Char) : Option (Read (List Json) cs.length) := do
  let first ← value cs
  let next ← (mark? first.rest).map first.after
  have := next.rest_lt
  if next.value = ',' then
    let more ← elements next.rest
    return next.after (more.map (first.value :: ·))
  else if next.value = ']' then return next.map fun _ => [first.value]
  else none
termination_by (cs.length, 1)

def entries (cs : List Char) : Option (Read (List (Option String × Json)) cs.length) := do
  let key ← key? cs
  have := key.rest_lt
  let first ← (value key.rest).map key.after
  let next ← (mark? first.rest).map first.after
  have := next.rest_lt
  if next.value = ',' then
    let more ← entries next.rest
    return next.after (more.map ((key.value, first.value) :: ·))
  else if next.value = '\x7d' then return next.map fun _ => [(key.value, first.value)]
  else none
termination_by (cs.length, 1)

end

def parse? (text : String) : Option Json := do
  let r ← value text.toList
  if (skipSpace r.rest).isEmpty then some r.value else none

end Interchange.Json
