import Interchange.Scalar.Basic

namespace Interchange

/-- A complex number over the scalars. -/
structure Amplitude (F : Type) where
  re : F
  im : F
deriving Repr, BEq

namespace Amplitude

variable {F : Type} [Scalar F]

open Scalar

instance : Zero (Amplitude F) := ⟨⟨0, 0⟩⟩

instance : One (Amplitude F) := ⟨⟨1, 0⟩⟩

instance : Add (Amplitude F) := ⟨fun x y => ⟨x.re + y.re, x.im + y.im⟩⟩

instance : Sub (Amplitude F) := ⟨fun x y => ⟨x.re - y.re, x.im - y.im⟩⟩

instance : Neg (Amplitude F) := ⟨fun x => ⟨-x.re, -x.im⟩⟩

instance : Mul (Amplitude F) :=
  ⟨fun x y => ⟨x.re * y.re - x.im * y.im, x.re * y.im + x.im * y.re⟩⟩

def I : Amplitude F := ⟨0, 1⟩

def ofReal (x : F) : Amplitude F := ⟨x, 0⟩

def conj (x : Amplitude F) : Amplitude F := ⟨x.re, -x.im⟩

def scale (x : Amplitude F) (r : F) : Amplitude F := ⟨x.re * r, x.im * r⟩

def divReal (x : Amplitude F) (r : F) : Amplitude F := ⟨x.re / r, x.im / r⟩

def normSq (x : Amplitude F) : F := x.re * x.re + x.im * x.im

def norm (x : Amplitude F) : F := hypot x.re x.im

def arg (x : Amplitude F) : F := atan2 x.im x.re

def inv (x : Amplitude F) : Amplitude F := ⟨x.re / x.normSq, -x.im / x.normSq⟩

instance : Div (Amplitude F) :=
  ⟨fun x y => ⟨(x.re * y.re + x.im * y.im) / y.normSq, (x.im * y.re - x.re * y.im) / y.normSq⟩⟩

def polar (r angle : F) : Amplitude F := ⟨r * cos angle, r * sin angle⟩

/-- The principal square root; on the axes it is taken without going through the angle. -/
def sqrt (x : Amplitude F) : Amplitude F :=
  if x.im == 0 then
    if Scalar.isNegative x.re then
      let s := Scalar.sqrt (-x.re)
      ⟨0, if Scalar.isNegative x.im then -s else s⟩
    else ⟨Scalar.sqrt x.re, x.im⟩
  else if x.re == 0 then
    let s := Scalar.sqrt (Scalar.abs x.im / two)
    ⟨s, if Scalar.isNegative x.im then -s else s⟩
  else polar (Scalar.sqrt x.norm) (x.arg / two)

def pow (x : Amplitude F) (e : F) : Amplitude F := polar (Scalar.pow x.norm e) (x.arg * e)

def sum (xs : List (Amplitude F)) : Amplitude F := xs.foldl (· + ·) 0

/-- `x * y + z`, each part in two steps. -/
def mulAdd (x y z : Amplitude F) : Amplitude F :=
  ⟨Scalar.mulAdd (-x.im) y.im (Scalar.mulAdd x.re y.re z.re),
    Scalar.mulAdd x.im y.re (Scalar.mulAdd x.re y.im z.im)⟩

def near (tolerance : F) (x y : Amplitude F) : Bool := decide ((x - y).norm ≤ tolerance)

end Amplitude

end Interchange
