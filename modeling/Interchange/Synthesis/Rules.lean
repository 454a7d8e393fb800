import Interchange.Synthesis.Substitute

namespace Interchange.Synthesis

variable {F : Type} [Scalar F]

open Substitute (fixed turn)

abbrev Sequence (F : Type) := List (Substitute F)

def halved (p : Param F) : Param F := p / .const Scalar.two

/-- The doubly controlled NOT with controls `a`, `b` and target `t`. -/
def toffoli (a b t : Nat) : List (Except (CircuitError F) (Substitute F)) :=
  [fixed .h [t], fixed .cx [b, t], fixed .tdg [t], fixed .cx [a, t], fixed .t [t], fixed .cx [b, t],
    fixed .tdg [t], fixed .cx [a, t], fixed .t [b], fixed .t [t], fixed .h [t], fixed .cx [a, b],
    fixed .t [a], fixed .tdg [b], fixed .cx [a, b]]

def zzRotation (angle : Param F) : List (Except (CircuitError F) (Substitute F)) :=
  [fixed .cx [0, 1], turn .rz angle 1, fixed .cx [0, 1]]

/-- A rotation of the target by half the angle, undone when the control is off. -/
def controlledTurn (axis : Tag) (angle : Param F) : List (Except (CircuitError F) (Substitute F)) :=
  [turn axis (halved angle) 1, fixed .cx [0, 1], turn axis (-halved angle) 1, fixed .cx [0, 1]]

def onBoth (f : Nat → Except (CircuitError F) (Substitute F)) :
    List (Except (CircuitError F) (Substitute F)) := [f 0, f 1]

/-- The rule for a tag, for symbolic angles too. Every gate it emits is in the common core. -/
def rule? (tag : Tag) (params : List (Param F)) :
    Option (List (Except (CircuitError F) (Substitute F))) :=
  let quarter : Param F := .const Scalar.halfPi
  let minusQuarter : Param F := .const (-Scalar.halfPi)
  let eighth : Param F := .const Scalar.quarterPi
  let minusEighth : Param F := .const (-Scalar.quarterPi)
  match tag, params with
  | .sx, _ => some [turn .rx quarter 0]
  | .sxdg, _ => some [turn .rx minusQuarter 0]
  | .phase, [angle] => some [turn .rz angle 0]
  | .u, [theta, phi, lambda] => some [turn .rz lambda 0, turn .ry theta 0, turn .rz phi 0]
  | .cy, _ => some [fixed .sdg [1], fixed .cx [0, 1], fixed .s [1]]
  | .ch, _ => some [turn .ry eighth 1, fixed .cx [0, 1], turn .ry minusEighth 1]
  | .cphase, [angle] =>
    some [turn .rz (halved angle) 0, fixed .cx [0, 1], turn .rz (-halved angle) 1, fixed .cx [0, 1],
      turn .rz (halved angle) 1]
  | .crz, [angle] => some (controlledTurn .rz angle)
  | .cry, [angle] => some (controlledTurn .ry angle)
  | .crx, [angle] => some (fixed .h [1] :: controlledTurn .rz angle ++ [fixed .h [1]])
  | .swap, _ => some [fixed .cx [0, 1], fixed .cx [1, 0], fixed .cx [0, 1]]
  | .iswap, _ =>
    some [fixed .s [0], fixed .s [1], fixed .h [0], fixed .cx [0, 1], fixed .cx [1, 0],
      fixed .h [1]]
  | .rzz, [angle] => some (zzRotation angle)
  | .rxx, [angle] =>
    let h := onBoth fun q => fixed .h [q]
    some (h ++ zzRotation angle ++ h)
  | .ryy, [angle] =>
    some (onBoth (turn .rx quarter) ++ zzRotation angle ++ onBoth (turn .rx minusQuarter))
  | .ccx, _ => some (toffoli 0 1 2)
  | .cswap, _ => some (fixed .cx [2, 1] :: toffoli 0 1 2 ++ [fixed .cx [2, 1]])
  | _, _ => none

def closedForm (g : Gate F) : Except (CircuitError F) (Option (Sequence F)) :=
  match rule? g.tag g.params with
  | none => .ok none
  | some steps => do return some (← steps.mapM fun step => step)

end Interchange.Synthesis
