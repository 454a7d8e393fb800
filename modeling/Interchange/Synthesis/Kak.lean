import Interchange.Operator.Determinant
import Interchange.Synthesis.Eigenbasis
import Interchange.Synthesis.Error
import Interchange.Synthesis.Euler

namespace Interchange

/-- A two-qubit unitary, up to a phase, as `(k1l ⊗ k1r) exp(i(a XX + b YY + c ZZ)) (k2l ⊗ k2r)`. -/
structure Kak (F : Type) where
  a : F
  b : F
  c : F
  k1l : Unitary2 F
  k1r : Unitary2 F
  k2l : Unitary2 F
  k2r : Unitary2 F

namespace Kak

variable {F : Type} [Scalar F]

open Scalar

def isLocal (k : Kak F) : Bool :=
  decide (abs k.a < Unitary2.angleEpsilon) && decide (abs k.b < Unitary2.angleEpsilon) &&
    decide (abs k.c < Unitary2.angleEpsilon)

/-- The basis in which local unitaries of determinant one are real. -/
def magicBasis : Operator F :=
  let r : Amplitude F := ⟨invSqrtTwo, 0⟩
  let i : Amplitude F := ⟨0, invSqrtTwo⟩
  let rows := [[r, i, 0, 0], [0, 0, i, r], [0, 0, i, -r], [r, -i, 0, 0]]
  .ofFn 4 fun row column => (rows.getD row []).getD column 0

def fault {α : Type} (f : DecompositionFault) : Except (SynthesisError F) α :=
  .error (.decomposition .unitary 2 f)

def block (u : Operator F) (r : Nat) : Unitary2 F :=
  ⟨u.get r 0, u.get r 1, u.get (r + 1) 0, u.get (r + 1) 1⟩

def isSmall (v : Unitary2 F) : Bool := decide (v.det.norm < tenth 1)

def foundBlock (u : Operator F) : Unitary2 F :=
  if isSmall (block u 0) then block u 2 else block u 0

/-- The factors of a tensor product, each of determinant one. The right one is read off a block that
is not small, and divided out. -/
def split (u : Operator F) : Except (SynthesisError F) (Unitary2 F × Unitary2 F) :=
  let found := foundBlock u
  if isSmall found then fault .notProduct
  else
    let right := found.toSpecial
    let t := u * (Operator.identity 2).kron right.dagger.toOperator
    let left : Unitary2 F := ⟨t.get 0 0, t.get 0 2, t.get 2 0, t.get 2 2⟩
    .ok (left.toSpecial, right)

/-- The same basis with determinant one: the first vector is turned round if need be. -/
def properBasis (p : Operator F) : Operator F :=
  if p.det.re < 0 then .ofFn p.dim fun i j => if j = 0 then -p.get i j else p.get i j else p

def phases (angles : List F) : Operator F := .diagonal (angles.map fun t => .polar 1 (-1 * t))

/-- The first angle moves by a half turn if that makes the determinant of the phased basis one. -/
def adjust (columns : Operator F) (angles : List F) : List F :=
  if (columns * phases angles).det.re < 0 then
    match angles with
    | t :: ts => (t + pi) :: ts
    | [] => []
  else angles

/-- The unitary in the magic basis, times the phase that makes its determinant one. -/
def inMagic (u : Operator F) : Operator F :=
  let phase := u.det.pow (-(1 / ofNat 4))
  let magic : Operator F := magicBasis
  (magic.dagger.fusedMul (u.map (· * phase))).fusedMul magic

/-- `mᵀ m`, which does not depend on a real orthogonal factor on the left. -/
def gram (m : Operator F) : Operator F := m.transpose.fusedMul m

/-- Half the angle of each eigenvalue of a square, in a basis of its eigenvectors. -/
def halfAngles (square p : Operator F) : List F :=
  let diagonal := (p.transpose.fusedMul square).fusedMul p
  (List.range 4).map fun k => (diagonal.get k k).arg / two

def decomposeWith (solver : Operator F → Option (Operator F)) (u : Operator F) :
    Except (SynthesisError F) (Kak F) :=
  if u.dim ≠ 4 then .error (.decomposition .unitary (u.qubits?.getD 0) .notFourByFour)
  else do
    let turned := inMagic u
    let square := gram turned
    -- the square has the eigenbasis of the right factor, whatever the left one is
    match solver square with
    | none => fault .notDiagonalizable
    | some found =>
      let magic : Operator F := magicBasis
      let p := properBasis found
      let columns := turned * p
      let angles := adjust columns (halfAngles square p)
      let (k1l, k1r) ← split (magic * (columns * phases angles) * magic.dagger)
      let (k2l, k2r) ← split (magic * p.transpose * magic.dagger)
      -- the mean of the angles is a phase of the whole, and three coordinates remain
      let mean := angles.foldl (· + ·) 0 / ofNat 4
      let t (k : Nat) : F := angles.getD k 0 - mean
      return ⟨(t 0 + t 2) / two, (t 1 + t 2) / two, (t 0 + t 1) / two, k1l, k1r, k2l, k2r⟩

def decompose [Eigensolver F] (u : Operator F) : Except (SynthesisError F) (Kak F) :=
  decomposeWith Eigensolver.eigenbasis? u

open Substitute (fixed rotation)

/-- `exp(i(a XX + b YY + c ZZ))` with three controlled NOTs. -/
def interaction (a b c : F) : Except (CircuitError F) (Synthesis.Sequence F) := do
  return [← rotation .rz halfPi 1,
    ← fixed .cx [1, 0],
    ← rotation .rz (halfPi - two * c) 0,
    ← rotation .ry (halfPi - two * a) 1,
    ← fixed .cx [0, 1],
    ← rotation .ry (two * b - halfPi) 1,
    ← fixed .cx [1, 0],
    ← rotation .rz (-halfPi) 0]

/-- The gates of a decomposition in time order; without interaction the local factors merge. -/
def gates (k : Kak F) : Except (CircuitError F) (Synthesis.Sequence F) := do
  if k.isLocal then
    return (← Synthesis.eulerSequence (k.k1l * k.k2l) 0) ++
      (← Synthesis.eulerSequence (k.k1r * k.k2r) 1)
  else
    return (← Synthesis.eulerSequence k.k2l 0) ++ (← Synthesis.eulerSequence k.k2r 1) ++
      (← interaction k.a k.b k.c) ++ (← Synthesis.eulerSequence k.k1l 0) ++
      (← Synthesis.eulerSequence k.k1r 1)

def sequence [Eigensolver F] (u : Operator F) :
    Except (SynthesisError F) (Synthesis.Sequence F) := do
  SynthesisError.lift (← decompose u).gates

end Kak

end Interchange
