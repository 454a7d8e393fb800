import Interchange.Gate.Tag
import Interchange.Operator.Basic

namespace Interchange

namespace Operator

variable {F : Type} [Scalar F]

def twoByTwo (a b c d : Amplitude F) : Operator F :=
  ofFn 2 fun i j => if i = 0 then (if j = 0 then a else b) else (if j = 0 then c else d)

/-- The operator with the given entries on the diagonal and on the antidiagonal, by row. -/
def fourByFour (diagonal antidiagonal : Nat → Amplitude F) : Operator F :=
  ofFn 4 fun i j => if i = j then diagonal i else if i + j = 3 then antidiagonal i else 0

/-- Exchanges the two middle basis states with a factor. -/
def exchange (factor : Amplitude F) : Operator F :=
  ofFn 4 fun i j =>
    if i = j then (if i = 0 ∨ i = 3 then 1 else 0)
    else if i + j = 3 ∧ i ≠ 0 ∧ i ≠ 3 then factor else 0

end Operator

namespace Tag

variable {F : Type} [Scalar F]

open Scalar Amplitude Operator

def cis (angle : F) : Amplitude F := polar 1 angle

def plainMatrix? : Tag → List F → Option (Operator F)
  | h, [] =>
    let r : F := invSqrtTwo
    some (twoByTwo ⟨r, 0⟩ ⟨r, 0⟩ ⟨r, 0⟩ ⟨-r, 0⟩)
  | x, [] => some (twoByTwo 0 1 1 0)
  | y, [] => some (twoByTwo 0 (-I) I 0)
  | z, [] => some (diagonal [1, -1])
  | s, [] => some (diagonal [1, I])
  | sdg, [] => some (diagonal [1, -I])
  | t, [] => some (diagonal [1, cis quarterPi])
  | tdg, [] => some (diagonal [1, cis (-quarterPi)])
  | id, [] => some (identity 2)
  | sx, [] => some (twoByTwo ⟨half, half⟩ ⟨half, -half⟩ ⟨half, -half⟩ ⟨half, half⟩)
  | sxdg, [] => some (twoByTwo ⟨half, -half⟩ ⟨half, half⟩ ⟨half, half⟩ ⟨half, -half⟩)
  | phase, [angle] => some (diagonal [1, cis angle])
  | rx, [angle] =>
    let s := sin (angle / two)
    let c := cos (angle / two)
    some (twoByTwo ⟨c, 0⟩ ⟨0, -s⟩ ⟨0, -s⟩ ⟨c, 0⟩)
  | ry, [angle] =>
    let s := sin (angle / two)
    let c := cos (angle / two)
    some (twoByTwo ⟨c, 0⟩ ⟨-s, 0⟩ ⟨s, 0⟩ ⟨c, 0⟩)
  | rz, [angle] => some (diagonal [cis (-angle / two), cis (angle / two)])
  | u, [theta, phi, lambda] =>
    let s := sin (theta / two)
    let c := cos (theta / two)
    some (twoByTwo ⟨c, 0⟩ (-polar s lambda) (polar s phi) (polar c (phi + lambda)))
  | swap, [] => some (exchange 1)
  | iswap, [] => some (exchange I)
  | rxx, [angle] =>
    let s := sin (angle / two)
    some (fourByFour (fun _ => (1 : Amplitude F).scale (cos (angle / two))) fun _ => ⟨0, -s⟩)
  | ryy, [angle] =>
    let s := sin (angle / two)
    some (fourByFour (fun _ => (1 : Amplitude F).scale (cos (angle / two))) fun i =>
      ⟨0, if i = 0 ∨ i = 3 then s else -s⟩)
  | rzz, [angle] =>
    let minus := cis (-angle / two)
    let plus := cis (angle / two)
    some (diagonal [minus, plus, plus, minus])
  | _, _ => none

/-- The matrix of a gate for values of its parameters, with the first qubit most significant. A
controlled gate acts as its base on the block where all controls are set. -/
def matrix? (tag : Tag) (values : List F) : Option (Operator F) :=
  if values.length = tag.paramCount then
    match tag.base? with
    | some base => (base.plainMatrix? values).map (·.controlled tag.controls)
    | none => tag.plainMatrix? values
  else none

end Tag

end Interchange
