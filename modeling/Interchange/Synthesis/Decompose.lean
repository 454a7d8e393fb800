import Interchange.Synthesis.Kak

namespace Interchange.Synthesis

variable {F : Type} [Scalar F]

/-- Below which off-diagonal entries a one-qubit gate is a phase, unless said otherwise. -/
def defaultTolerance : F := Scalar.tenth 7

variable [Eigensolver F]

def fromMatrix (tolerance : F) (g : Gate F) (m : Operator F) :
    Except (SynthesisError F) (Sequence F) :=
  match g.qubits with
  | 1 => match Unitary2.ofOperator? m with
    | some u => SynthesisError.lift (oneQubit tolerance u)
    | none => .error (.decomposition g.tag 1 .shape)
  | 2 => match Kak.sequence m with
    -- the fault is that of the gate, whose tag need not be the unitary one
    | .error (.decomposition _ _ fault) => .error (.decomposition g.tag 2 fault)
    | result => result
  | n => .error (.decomposition g.tag n .tooWide)

def decompose (tolerance : F) (g : Gate F) : Except (SynthesisError F) (Sequence F) := do
  match ← SynthesisError.lift (closedForm g) with
  | some sequence => return sequence
  | none => match g.matrix with
    | none => .error (.decomposition g.tag g.qubits .symbolic)
    | some m => fromMatrix tolerance g m

/-- A decomposition that remembers the sequences it computed from matrices. -/
structure Decomposer (F : Type) where
  tolerance : F
  cache : List ((Tag × Operator F) × Sequence F) := []

namespace Decomposer

/-- Equality of tags and of the representations of all entries. -/
def sameKey (x y : Tag × Operator F) : Bool :=
  x.1 == y.1 && x.2.dim == y.2.dim &&
    (x.2.entries.toList.zip y.2.entries.toList).all fun e =>
      Scalar.identical e.1.re e.2.re && Scalar.identical e.1.im e.2.im

def cached (d : Decomposer F) : Nat := d.cache.length

def lookup? (d : Decomposer F) (key : Tag × Operator F) : Option (Sequence F) :=
  (d.cache.find? fun e => sameKey e.1 key).map (·.2)

/-- The replacement of a gate, and the decomposer that remembers it. Rules are not remembered. -/
def decompose (d : Decomposer F) (g : Gate F) :
    Decomposer F × Except (SynthesisError F) (Sequence F) :=
  match closedForm g with
  | .error e => (d, .error (.circuit e))
  | .ok (some sequence) => (d, .ok sequence)
  | .ok none => match g.matrix with
    | none => (d, .error (.decomposition g.tag g.qubits .symbolic))
    | some m => match d.lookup? (g.tag, m) with
      | some sequence => (d, .ok sequence)
      | none => match fromMatrix d.tolerance g m with
        | .error e => (d, .error e)
        | .ok sequence => ({ d with cache := d.cache ++ [((g.tag, m), sequence)] }, .ok sequence)

end Decomposer

end Interchange.Synthesis
