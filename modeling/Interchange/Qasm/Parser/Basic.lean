import Interchange.Qasm.Error
import Interchange.Qasm.Token

namespace Interchange.Qasm

/-- Reads from a token list and leaves a list that is not longer. -/
def Parser (F : Type) (α : Type) : Type :=
  (ts : List Placed) → Except (Error F) (α × { rest : List Placed // rest.length ≤ ts.length })

namespace Parser

variable {F : Type} {α β : Type}

instance : Monad (Parser F) where
  pure a := fun ts => .ok (a, ⟨ts, Nat.le_refl _⟩)
  bind p f := fun ts => do
    let (a, rest) ← p ts
    let (b, rest') ← f a rest.val
    return (b, ⟨rest'.val, Nat.le_trans rest'.property rest.property⟩)

def fail (e : Error F) : Parser F α := fun _ => .error e

def next (awaited : String) : Parser F Placed
  | [] => .error (.unexpectedEnd awaited)
  | t :: ts => .ok (t, ⟨ts, Nat.le_succ _⟩)

def peek? : Parser F (Option Token) := fun ts => .ok (ts.head?.map (·.token), ⟨ts, Nat.le_refl _⟩)

def unexpected (expected : String) (found : Placed) : Parser F α :=
  fail (.unexpectedToken found.line expected found.token.text)

def expect (token : Token) : Parser F Unit := do
  let found ← next s!"expected {token.text}"
  if found.token = token then return () else unexpected token.text found

def symbol (s : Symbol) : Parser F Unit := expect (.symbol s)

def keyword (k : Keyword) : Parser F Unit := expect (.keyword k)

def accept (s : Symbol) : Parser F Bool
  | [] => .ok (false, ⟨[], Nat.le_refl _⟩)
  | t :: ts =>
    if t.token = .symbol s then .ok (true, ⟨ts, Nat.le_succ _⟩)
    else .ok (false, ⟨t :: ts, Nat.le_refl _⟩)

def identifier : Parser F String := do
  let found ← next "identifier"
  match found.token with
  | .identifier name => return name
  | _ => unexpected "identifier" found

def index : Parser F Nat := do
  let found ← next "integer"
  match found.token with
  | .int value =>
    if value < Number.indexLimit then return value else fail (.integerTooLarge value found.line)
  | _ => unexpected "integer" found

def commaTail (item : Parser F α) : Parser F (List α)
  | [] => .ok ([], ⟨[], Nat.le_refl _⟩)
  | t :: ts =>
    if t.token = .symbol .comma then
      match item ts with
      | .error e => .error e
      | .ok (a, rest) => match commaTail item rest.val with
        | .error e => .error e
        | .ok (as, rest') =>
          .ok (a :: as, ⟨rest'.val, by
            have := rest.property
            have := rest'.property
            simp only [List.length_cons]
            omega⟩)
    else .ok ([], ⟨t :: ts, Nat.le_refl _⟩)
termination_by ts => ts.length
decreasing_by
  have := rest.property
  simp only [List.length_cons]
  omega

def commaList (item : Parser F α) : Parser F (List α) := do
  let first ← item
  return first :: (← commaTail item)

def skipStatement : Parser F Unit
  | [] => .error (.unexpectedEnd "';'")
  | t :: ts =>
    if t.token = .symbol .semicolon then .ok ((), ⟨ts, Nat.le_succ _⟩)
    else match skipStatement ts with
      | .error e => .error e
      | .ok (_, rest) => .ok ((), ⟨rest.val, Nat.le_succ_of_le rest.property⟩)

end Parser

end Interchange.Qasm
