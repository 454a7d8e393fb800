import Interchange.Operator.Basic

namespace Interchange

structure Unitary2 (F : Type) where
  a : Amplitude F
  b : Amplitude F
  c : Amplitude F
  d : Amplitude F

/-- The angles of `e^{i phase} Rz(phi) Ry(theta) Rz(lambda)`. -/
structure EulerAngles (F : Type) where
  phi : F
  theta : F
  lambda : F
  phase : F

namespace Unitary2

variable {F : Type} [Scalar F]

open Scalar

def identity : Unitary2 F := ⟨1, 0, 0, 1⟩

def ofOperator? (m : Operator F) : Option (Unitary2 F) :=
  if m.dim = 2 then some ⟨m.get 0 0, m.get 0 1, m.get 1 0, m.get 1 1⟩ else none

def entries (u : Unitary2 F) : List (Amplitude F) := [u.a, u.b, u.c, u.d]

def toOperator (u : Unitary2 F) : Operator F := .ofFn 2 fun i j => u.entries.getD (i * 2 + j) 0

def ry (angle : F) : Unitary2 F :=
  let s := sin (angle / two)
  let c := cos (angle / two)
  ⟨⟨c, 0⟩, ⟨-s, 0⟩, ⟨s, 0⟩, ⟨c, 0⟩⟩

def rz (angle : F) : Unitary2 F :=
  ⟨.polar 1 (-angle / two), 0, 0, .polar 1 (angle / two)⟩

def mul (u v : Unitary2 F) : Unitary2 F :=
  ⟨u.a * v.a + u.b * v.c, u.a * v.b + u.b * v.d, u.c * v.a + u.d * v.c, u.c * v.b + u.d * v.d⟩

instance : Mul (Unitary2 F) := ⟨mul⟩

def dagger (u : Unitary2 F) : Unitary2 F := ⟨u.a.conj, u.c.conj, u.b.conj, u.d.conj⟩

def det (u : Unitary2 F) : Amplitude F := u.a * u.d - u.b * u.c

def scale (u : Unitary2 F) (k : Amplitude F) : Unitary2 F := ⟨u.a * k, u.b * k, u.c * k, u.d * k⟩

def toSpecial (u : Unitary2 F) : Unitary2 F := u.scale u.det.sqrt.inv

def angleEpsilon : F := tenth 12

/-- Whether `u` times a phase is `v`, up to a tolerance in every entry. The phase is that of the
inner product. -/
def equivalent (tolerance : F) (u v : Unitary2 F) : Bool :=
  let overlap := Amplitude.sum ((u.entries.zip v.entries).map fun e => e.1.conj * e.2)
  if overlap.norm < angleEpsilon then false
  else
    let phase := overlap.divReal overlap.norm
    (u.entries.zip v.entries).all fun e => Amplitude.near tolerance (e.1 * phase) e.2

def zyz (u : Unitary2 F) : EulerAngles F :=
  let s := u.toSpecial
  let plus := two * s.d.arg
  let minus := two * s.c.arg
  { phi := (plus + minus) / two
    theta := two * atan2 s.c.norm s.a.norm
    lambda := (plus - minus) / two
    phase := u.det.arg / two }

end Unitary2

/-- The representative of an angle above `-π` and at most `π`; zero if the angle is not finite. -/
def normalizeAngle {F : Type} [Scalar F] (angle : F) : F :=
  if Scalar.isFinite angle then
    let a := Scalar.modulo angle Scalar.tau
    if Scalar.pi < a then a - Scalar.tau else a
  else 0

end Interchange
