import Interchange.Scalar.Basic

namespace Interchange

/-- How often each outcome was observed, in increasing order of the outcomes. -/
structure Counts where
  entries : List (String × Nat) := []
deriving Repr, DecidableEq

namespace Counts

def insertInto (bits : String) (count : Nat) : List (String × Nat) → List (String × Nat)
  | [] => [(bits, count)]
  | e :: es =>
    if bits = e.1 then (bits, e.2 + count) :: es
    else if bits < e.1 then (bits, count) :: e :: es
    else e :: insertInto bits count es

def insert (c : Counts) (bits : String) (count : Nat) : Counts := ⟨insertInto bits count c.entries⟩

def ofList (observations : List (String × Nat)) : Counts :=
  observations.foldl (fun c o => c.insert o.1 o.2) {}

def get (c : Counts) (bits : String) : Nat := (c.entries.lookup bits).getD 0

def total (c : Counts) : Nat := c.entries.foldr (fun e n => e.2 + n) 0

def size (c : Counts) : Nat := c.entries.length

def moreFrequent (a b : String × Nat) : String × Nat := if a.2 < b.2 then b else a

/-- The most frequent outcome; of several the smallest. -/
def mostFrequent? (c : Counts) : Option (String × Nat) :=
  match c.entries with
  | [] => none
  | e :: es => some (es.foldl moreFrequent e)

def probabilities {F : Type} [Scalar F] (c : Counts) : List (String × F) :=
  if c.total = 0 then []
  else c.entries.map fun e => (e.1, Scalar.ofNat e.2 / Scalar.ofNat c.total)

end Counts

end Interchange
