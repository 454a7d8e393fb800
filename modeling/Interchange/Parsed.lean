namespace Interchange

/-- A value read from a list and what stands after it, shorter than a bound. -/
structure Parsed (τ α : Type) (bound : Nat) where
  value : α
  rest : List τ
  rest_lt : rest.length < bound

namespace Parsed

variable {τ α β : Type} {m n : Nat}

def here (value : α) (rest : List τ) : Parsed τ α (rest.length + 1) :=
  ⟨value, rest, Nat.lt_succ_self _⟩

def weaken (p : Parsed τ α m) (h : m ≤ n) : Parsed τ α n :=
  ⟨p.value, p.rest, Nat.lt_of_lt_of_le p.rest_lt h⟩

def map (f : α → β) (p : Parsed τ α n) : Parsed τ β n := ⟨f p.value, p.rest, p.rest_lt⟩

def mapM (f : α → Option β) (p : Parsed τ α n) : Option (Parsed τ β n) :=
  (f p.value).map fun value => p.map fun _ => value

def behind (p : Parsed τ α n) : Parsed τ α (n + 1) := p.weaken (Nat.le_succ n)

/-- What is read after a first value. -/
def after (first : Parsed τ α n) (p : Parsed τ β first.rest.length) : Parsed τ β n :=
  ⟨p.value, p.rest, Nat.lt_trans p.rest_lt first.rest_lt⟩

/-- What is read after a first value, which may be nothing. -/
def since (first : Parsed τ α n) (p : Parsed τ β (first.rest.length + 1)) : Parsed τ β n :=
  p.weaken first.rest_lt

def drop (p : Parsed τ α n) (k : Nat) : Parsed τ α n :=
  ⟨p.value, p.rest.drop k, Nat.lt_of_le_of_lt (p.rest.drop_sublist k).length_le p.rest_lt⟩

def ofDrop {ts : List τ} {k : Nat} (p : Parsed τ α (ts.drop k).length) : Parsed τ α ts.length :=
  p.weaken (ts.drop_sublist k).length_le

def dropWhile (p : Parsed τ α n) (q : τ → Bool) : Parsed τ α n :=
  ⟨p.value, p.rest.dropWhile q, Nat.lt_of_le_of_lt (p.rest.dropWhile_sublist q).length_le p.rest_lt⟩

end Parsed

end Interchange
