import Interchange.Number.Digit
import Interchange.Yaml.Plain

namespace Interchange.Yaml

def escape? : Char → Option Char
  | '0' => some '\x00'
  | 'a' => some '\x07'
  | 'b' => some '\x08'
  | 't' | '\t' => some '\t'
  | 'n' => some '\n'
  | 'v' => some '\x0b'
  | 'f' => some '\x0c'
  | 'r' => some '\r'
  | 'e' => some '\x1b'
  | ' ' => some ' '
  | '"' => some '"'
  | '/' => some '/'
  | '\\' => some '\\'
  | 'N' => some '\u0085'
  | '_' => some '\u00a0'
  | 'L' => some '\u2028'
  | 'P' => some '\u2029'
  | _ => none

def escapeLength? : Char → Option Nat
  | 'x' => some 2
  | 'u' => some 4
  | 'U' => some 8
  | _ => none

/-- The character with a number of so many digits, which is no half of a surrogate pair. -/
def hexChar? (length : Nat) (gs : List Glyph) : Option Char := do
  let n ← Number.natOfDigits? 16 ((gs.take length).map Glyph.char)
  if length ≤ gs.length ∧ n.isValidChar then some (Char.ofNat n) else none

/-- The rest of a scalar in single quotes, in which a quote is written twice. -/
def singleQuoted (taken : List Char) (gap : Gap) :
    (gs : List Glyph) → Lexed String gs.length
  | [] => none
  | g :: rest =>
    if g.isBlank then (singleQuoted taken (gap.addBlank g.char) rest).map .behind
    else if g.isBreak then (singleQuoted taken (gap.addLine g.char) rest).map .behind
    else if isDocumentMark (g :: rest) then none
    else
      let taken := gap.text.reverse ++ taken
      if g.char = '\x27' then
        match rest with
        | [] => some (.here (String.ofList taken.reverse) [])
        | h :: rest =>
          if h.char = '\x27' then
            (singleQuoted ('\x27' :: taken) .none rest).map fun p => p.behind.behind
          else some (.here (String.ofList taken.reverse) (h :: rest))
      else (singleQuoted (g.char :: taken) .none rest).map .behind

/-- The rest of a scalar in double quotes, with escapes. An escaped end of a line counts for
nothing. -/
def doubleQuoted (taken : List Char) (gap : Gap) (gs : List Glyph) :
    Lexed String gs.length :=
  match gs with
  | [] => none
  | g :: rest =>
    if g.isBlank then (doubleQuoted taken (gap.addBlank g.char) rest).map .behind
    else if g.isBreak then (doubleQuoted taken (gap.addLine g.char) rest).map .behind
    else if isDocumentMark (g :: rest) then none
    else
      let taken := gap.text.reverse ++ taken
      if g.char = '"' then some (.here (String.ofList taken.reverse) rest)
      else if g.char = '\\' then
        match rest with
        | [] => none
        | h :: rest =>
          if h.isBreak then
            (doubleQuoted taken (.lines none []) rest).map fun p => p.behind.behind
          else
            match escape? h.char, escapeLength? h.char with
            | some c, _ => (doubleQuoted (c :: taken) .none rest).map fun p => p.behind.behind
            | none, some length => do
              let c ← hexChar? length rest
              let p ← doubleQuoted (c :: taken) .none (rest.drop length)
              return p.ofDrop.behind.behind
            | none, none => none
      else (doubleQuoted (g.char :: taken) .none rest).map .behind
termination_by gs.length
decreasing_by all_goals simp only [List.length_cons, List.length_drop]; omega

end Interchange.Yaml
