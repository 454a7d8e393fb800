import Interchange.Number.Digit

namespace Interchange.Json

def hexUnit? (cs : List Char) : Option Nat :=
  if 4 ≤ cs.length then Number.natOfDigits? 16 (cs.take 4) else none

/-- The character of a unit, or of a unit and the second half of a surrogate pair after it, with the
number of characters read. Halves do not stand alone. -/
def unicodeEscape? (cs : List Char) : Option (Char × Nat) := do
  let first ← hexUnit? cs
  if 0xD800 ≤ first ∧ first < 0xDC00 then
    match cs.drop 4 with
    | '\\' :: 'u' :: rest => do
      let second ← hexUnit? rest
      if 0xDC00 ≤ second ∧ second < 0xE000 then
        some (Char.ofNat (0x10000 + (first - 0xD800) * 0x400 + (second - 0xDC00)), 10)
      else none
    | _ => none
  else if 0xDC00 ≤ first ∧ first < 0xE000 then none
  else some (Char.ofNat first, 4)

def escape? : List Char → Option (Char × Nat)
  | '"' :: _ => some ('"', 1)
  | '\\' :: _ => some ('\\', 1)
  | '/' :: _ => some ('/', 1)
  | 'b' :: _ => some ('\x08', 1)
  | 'f' :: _ => some ('\x0c', 1)
  | 'n' :: _ => some ('\n', 1)
  | 'r' :: _ => some ('\r', 1)
  | 't' :: _ => some ('\t', 1)
  | 'u' :: cs => (unicodeEscape? cs).map fun e => (e.1, e.2 + 1)
  | _ => none

/-- The text up to a closing quote, and what comes after the quote. Control characters have to be
escaped. -/
def unquote? : List Char → Option (List Char × List Char)
  | [] => none
  | c :: cs =>
    if c = '"' then some ([], cs)
    else if c = '\\' then
      match escape? cs with
      | none => none
      | some (x, n) => (unquote? (cs.drop n)).map fun r => (x :: r.1, r.2)
    else if c.toNat < 0x20 then none
    else (unquote? cs).map fun r => (c :: r.1, r.2)
termination_by cs => cs.length
decreasing_by
  all_goals
    simp only [List.length_drop, List.length_cons]
    omega

def escapeLength? : List Char → Option Nat
  | 'u' :: cs => (hexUnit? cs).map fun _ => 5
  | c :: _ => if ['"', '\\', '/', 'b', 'f', 'n', 'r', 't'].contains c then some 1 else none
  | [] => none

/-- What comes after the closing quote of a text, which need not be readable. -/
def skipQuoted? : List Char → Option (List Char)
  | [] => none
  | c :: cs =>
    if c = '"' then some cs
    else if c = '\\' then
      match escapeLength? cs with
      | none => none
      | some n => skipQuoted? (cs.drop n)
    else if c.toNat < 0x20 then none
    else skipQuoted? cs
termination_by cs => cs.length
decreasing_by
  all_goals
    simp only [List.length_drop, List.length_cons]
    omega

theorem length_of_skipQuoted? {cs rest : List Char} (h : skipQuoted? cs = some rest) :
    rest.length < cs.length := by
  fun_induction skipQuoted? cs with
  | case1 => cases h
  | case2 cs =>
    cases h
    exact Nat.lt_succ_self _
  | case3 => cases h
  | case4 cs n _ _ ih =>
    have := ih h
    rw [List.length_drop] at this
    show rest.length < cs.length + 1
    omega
  | case5 => cases h
  | case6 c cs _ _ _ ih => exact Nat.lt_succ_of_lt (ih h)

def hexDigit (n : Nat) : Char := (Nat.toDigits 16 n).headD '0'

/-- A character inside quotes. Only quotes, backslashes and control characters are escaped. -/
def quoteChar (c : Char) : List Char :=
  if c = '"' then ['\\', '"']
  else if c = '\\' then ['\\', '\\']
  else if c = '\n' then ['\\', 'n']
  else if c = '\r' then ['\\', 'r']
  else if c = '\t' then ['\\', 't']
  else if c = '\x08' then ['\\', 'b']
  else if c = '\x0c' then ['\\', 'f']
  else if c.toNat < 0x20 then
    ['\\', 'u', '0', '0', hexDigit (c.toNat / 16), hexDigit (c.toNat % 16)]
  else [c]

def quote (text : String) : String :=
  "\"" ++ String.ofList (text.toList.flatMap quoteChar) ++ "\""

end Interchange.Json
