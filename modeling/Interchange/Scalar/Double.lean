import Interchange.Number.Fused
import Interchange.Number.Numeral
import Interchange.Number.Written
import Interchange.Scalar.Basic

namespace Interchange

open Number

/-- The length of `(x, y)`, scaled by the larger coordinate so that no square overflows. -/
def Number.hypot (x y : Float) : Float :=
  let larger := if x.abs < y.abs then y.abs else x.abs
  if larger == 0.0 || !larger.isFinite then x.abs + y.abs
  else
    let u := x / larger
    let v := y / larger
    larger * (u * u + v * v).sqrt

/-- The exact remainder of the magnitudes with the sign of `x`, moved up by `y` when negative. -/
def Number.modulo (x y : Float) : Float :=
  let (rest, unit) := Binary.remainder (.ofBits x.toBits) (.ofBits y.toBits)
  let magnitude := (Float.ofNat rest).scaleB unit
  let signedRest := if Number.isNegative x then -magnitude else magnitude
  if signedRest < 0.0 then signedRest + y.abs else signedRest

theorem Number.toBits_inj {x y : Float} : x.toBits = y.toBits ↔ x = y := by
  refine ⟨fun h => ?_, congrArg Float.toBits⟩
  obtain ⟨⟨b, hb⟩⟩ := x
  obtain ⟨⟨c, hc⟩⟩ := y
  obtain rfl : b = c := h
  rfl

instance : Scalar Float where
  zero := 0.0
  one := 1.0
  ltDecidable := inferInstance
  leDecidable := inferInstance
  ofNat := Float.ofNat
  ofDecimal := Decimal.toDouble
  pi := 3.14159265358979323846264338327950288
  euler := 2.71828182845904523536028747135266250
  abs := Float.abs
  sqrt := Float.sqrt
  sin := Float.sin
  cos := Float.cos
  tan := Float.tan
  asin := Float.asin
  acos := Float.acos
  atan := Float.atan
  exp := Float.exp
  log := Float.log
  pow := Float.pow
  atan2 := Float.atan2
  hypot := Number.hypot
  modulo := Number.modulo
  mulAdd := Number.mulAdd
  isFinite := Float.isFinite
  isNegative := Number.isNegative
  identical x y := x.toBits == y.toBits
  identical_iff _ _ := beq_iff_eq.trans Number.toBits_inj

instance : Numeral Float where
  write := plain.write
  literal? x := if x.isFinite then some (document.write x) else none

end Interchange
