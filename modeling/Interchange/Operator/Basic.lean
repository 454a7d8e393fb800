import Interchange.Operator.Amplitude

namespace Interchange

/-- A dense square matrix, stored by rows. Qubit operators index with the first qubit as the most
significant bit. -/
structure Operator (F : Type) where
  dim : Nat
  entries : Array (Amplitude F)
  size_entries : entries.size = dim * dim

namespace Operator

variable {F : Type}

def ofFn (dim : Nat) (f : Nat → Nat → Amplitude F) : Operator F where
  dim := dim
  entries := Array.ofFn fun k : Fin (dim * dim) => f (k / dim) (k % dim)
  size_entries := Array.size_ofFn

@[simp] theorem dim_ofFn (dim : Nat) (f : Nat → Nat → Amplitude F) : (ofFn dim f).dim = dim := rfl

def set (m : Operator F) (i j : Nat) (x : Amplitude F) : Operator F where
  dim := m.dim
  entries := m.entries.setIfInBounds (i * m.dim + j) x
  size_entries := by rw [Array.size_setIfInBounds, m.size_entries]

@[simp] theorem dim_set (m : Operator F) (i j : Nat) (x : Amplitude F) :
    (m.set i j x).dim = m.dim := rfl

theorem cell_lt {dim i j : Nat} (hi : i < dim) (hj : j < dim) : i * dim + j < dim * dim :=
  calc i * dim + j < i * dim + dim := by omega
    _ = (i + 1) * dim := by rw [Nat.add_mul, Nat.one_mul]
    _ ≤ dim * dim := Nat.mul_le_mul_right dim hi

theorem cell_div {dim j : Nat} (i : Nat) (hj : j < dim) : (i * dim + j) / dim = i := by
  rw [Nat.add_comm, Nat.add_mul_div_right j i (by omega), Nat.div_eq_of_lt hj, Nat.zero_add]

section

variable [Scalar F]

/-- The entry in row `i` and column `j`, zero outside the matrix. -/
def get (m : Operator F) (i j : Nat) : Amplitude F := m.entries.getD (i * m.dim + j) 0

theorem get_ofFn (dim : Nat) (f : Nat → Nat → Amplitude F) {i j : Nat} (hi : i < dim)
    (hj : j < dim) : (ofFn dim f).get i j = f i j := by
  simp [get, ofFn, Array.getD, cell_lt hi hj, cell_div i hj, Nat.mul_add_mod_of_lt hj]

theorem get_set (m : Operator F) (x : Amplitude F) {i j r c : Nat} (hi : i < m.dim)
    (hj : j < m.dim) (hc : c < m.dim) :
    (m.set r c x).get i j = if i = r ∧ j = c then x else m.get i j := by
  have hcell : r * m.dim + c = i * m.dim + j ↔ i = r ∧ j = c := by
    constructor
    · intro h
      have hrow := congrArg (· / m.dim) h
      have hcol := congrArg (· % m.dim) h
      simp only [cell_div _ hc, cell_div _ hj, Nat.mul_add_mod_of_lt hc,
        Nat.mul_add_mod_of_lt hj] at hrow hcol
      exact ⟨hrow.symm, hcol.symm⟩
    · rintro ⟨rfl, rfl⟩
      rfl
  have hk : i * m.dim + j < m.entries.size := by rw [m.size_entries]; exact cell_lt hi hj
  simp only [get, set, Array.getD, Array.size_setIfInBounds, hk, dif_pos,
    Array.getInternal_eq_getElem, Array.getElem_setIfInBounds, hcell]

end

def rows [Scalar F] (m : Operator F) : List (List (Amplitude F)) :=
  (List.range m.dim).map fun i => (List.range m.dim).map (m.get i)

def ofRows? (rows : List (List (Amplitude F))) : Option (Operator F) :=
  if h : rows.flatten.length = rows.length * rows.length then
    if rows.all (·.length == rows.length) then
      some ⟨rows.length, rows.flatten.toArray, by simpa using h⟩
    else none
  else none

def ofPairs? (rows : List (List (F × F))) : Option (Operator F) :=
  ofRows? (rows.map (·.map fun x => ⟨x.1, x.2⟩))

variable [Scalar F]

def toPairs (m : Operator F) : List (List (F × F)) := m.rows.map (·.map fun x => (x.re, x.im))

instance : BEq (Operator F) := ⟨fun a b => a.dim == b.dim && a.entries == b.entries⟩

def identity (dim : Nat) : Operator F := ofFn dim fun i j => if i = j then 1 else 0

def diagonal (entries : List (Amplitude F)) : Operator F :=
  ofFn entries.length fun i j => if i = j then entries.getD i 0 else 0

def map (f : Amplitude F → Amplitude F) (m : Operator F) : Operator F :=
  ofFn m.dim fun i j => f (m.get i j)

def mul (a b : Operator F) : Operator F :=
  ofFn a.dim fun i j => Amplitude.sum ((List.range a.dim).map fun k => a.get i k * b.get k j)

instance : Mul (Operator F) := ⟨mul⟩

/-- The product with every entry accumulated in fused steps. -/
def fusedMul (a b : Operator F) : Operator F :=
  ofFn a.dim fun i j =>
    (List.range a.dim).foldl (fun z k => Amplitude.mulAdd (a.get i k) (b.get k j) z) 0

def transpose (m : Operator F) : Operator F := ofFn m.dim fun i j => m.get j i

def dagger (m : Operator F) : Operator F := ofFn m.dim fun i j => (m.get j i).conj

/-- The tensor product, with `a` on the leading qubits. -/
def kron (a b : Operator F) : Operator F :=
  ofFn (a.dim * b.dim) fun i j =>
    let x := a.get (i / b.dim) (j / b.dim)
    if x == 0 then 0 else x * b.get (i % b.dim) (j % b.dim)

/-- `base` under a number of leading controls: the identity except on the last block. -/
def controlled (base : Operator F) (controls : Nat) : Operator F :=
  let dim := base.dim * Nat.pow 2 controls
  let offset := dim - base.dim
  ofFn dim fun i j =>
    if offset ≤ i ∧ offset ≤ j then base.get (i - offset) (j - offset)
    else if i = j then 1 else 0

/-- The number of qubits an operator acts on: the logarithm of a dimension `2 ^ n` with `0 < n`. -/
def qubits? (m : Operator F) : Option Nat :=
  if 2 ≤ m.dim ∧ Nat.pow 2 (Nat.log2 m.dim) = m.dim then some (Nat.log2 m.dim) else none

def reverseBits : Nat → Nat → Nat
  | 0, _ => 0
  | n + 1, x => x % 2 * Nat.pow 2 n + reverseBits n (x / 2)

def reverseQubits (m : Operator F) : Operator F :=
  match m.qubits? with
  | none => m
  | some n => ofFn m.dim fun i j => m.get (reverseBits n i) (reverseBits n j)

def all (dim : Nat) (p : Nat → Nat → Bool) : Bool :=
  (List.range dim).all fun i => (List.range dim).all fun j => p i j

def near (tolerance : F) (a b : Operator F) : Bool :=
  a.dim == b.dim && all a.dim fun i j => Amplitude.near tolerance (a.get i j) (b.get i j)

def isUnitary (tolerance : F) (m : Operator F) : Bool :=
  m.qubits?.isSome && near tolerance (m * m.dagger) (identity m.dim)

end Operator

end Interchange
