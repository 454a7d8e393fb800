import Mathlib.Analysis.SpecialFunctions.Complex.Arg
import Mathlib.Analysis.SpecialFunctions.Pow.Real
import Mathlib.Analysis.SpecialFunctions.Trigonometric.Arctan
import Mathlib.Analysis.SpecialFunctions.Trigonometric.Inverse
import Interchange.Operator.Basic

noncomputable section
namespace Interchange
open Number (Decimal)

/-- Exact angles: every operation is the real one, and all numbers are finite. -/
instance exactScalar : Scalar ℝ where
  beq x y := decide (x = y)
  ltDecidable := inferInstance
  leDecidable := inferInstance
  ofNat n := n
  ofDecimal d := d.digits * (10 : ℝ) ^ d.power
  pi := Real.pi
  euler := Real.exp 1
  abs x := |x|
  sqrt := Real.sqrt
  sin := Real.sin
  cos := Real.cos
  tan := Real.tan
  asin := Real.arcsin
  acos := Real.arccos
  atan := Real.arctan
  exp := Real.exp
  log := Real.log
  pow x y := x ^ y
  atan2 y x := Complex.arg ⟨x, y⟩
  hypot x y := Real.sqrt (x * x + y * y)
  modulo x y := x - |y| * ⌊x / |y|⌋
  mulAdd x y z := x * y + z
  isFinite _ := true
  isNegative x := decide (x < 0)
  identical x y := decide (x = y)
  identical_iff _ _ := decide_eq_true_iff

namespace Scalar

theorem beq_iff (x y : ℝ) : (x == y) = true ↔ x = y := decide_eq_true_iff

theorem two_real : (two : ℝ) = 2 := one_add_one_eq_two

theorem halfPi_real : (halfPi : ℝ) = Real.pi / 2 := by
  rw [halfPi, two_real]
  rfl

theorem quarterPi_real : (quarterPi : ℝ) = Real.pi / 4 := by
  rw [quarterPi]
  rfl

theorem tau_real : (tau : ℝ) = 2 * Real.pi := by
  rw [tau, two_real]
  rfl

end Scalar

namespace Amplitude

def toComplex (x : Amplitude ℝ) : ℂ := ⟨x.re, x.im⟩

theorem toComplex_injective : Function.Injective toComplex := by
  intro x y h
  have hre := congrArg Complex.re h
  have him := congrArg Complex.im h
  cases x
  cases y
  simp_all [toComplex]

@[simp] theorem toComplex_zero : toComplex 0 = 0 := rfl

@[simp] theorem toComplex_one : toComplex 1 = 1 := rfl

@[simp] theorem toComplex_I : toComplex I = Complex.I := rfl

@[simp] theorem toComplex_neg (x : Amplitude ℝ) : toComplex (-x) = -toComplex x := rfl

@[simp] theorem toComplex_add (x y : Amplitude ℝ) :
    toComplex (x + y) = toComplex x + toComplex y := rfl

@[simp] theorem toComplex_mul (x y : Amplitude ℝ) :
    toComplex (x * y) = toComplex x * toComplex y := rfl

@[simp] theorem toComplex_mk (x y : ℝ) : toComplex ⟨x, y⟩ = x + y * Complex.I :=
  Complex.mk_eq_add_mul_I x y

@[simp] theorem toComplex_scale (x : Amplitude ℝ) (r : ℝ) :
    toComplex (x.scale r) = toComplex x * r := by
  apply Complex.ext
  · exact (Complex.re_mul_ofReal x.toComplex r).symm
  · exact (Complex.im_mul_ofReal x.toComplex r).symm

/-- A sum of amplitudes from the left is the sum of complex numbers in any order. -/
theorem toComplex_sum (xs : List (Amplitude ℝ)) :
    toComplex (sum xs) = (xs.map toComplex).sum := by
  suffices h : ∀ a, toComplex (xs.foldl (· + ·) a) = toComplex a + (xs.map toComplex).sum by
    rw [sum, h, toComplex_zero, zero_add]
  induction xs with
  | nil => intro a; simp
  | cons x xs ih => intro a; simp [ih, add_assoc]

theorem toComplex_polar (r t : ℝ) : toComplex (polar r t) = r * Complex.exp (t * Complex.I) := by
  have h : toComplex (polar r t) = (r * Real.cos t : ℝ) + (r * Real.sin t : ℝ) * Complex.I :=
    toComplex_mk _ _
  rw [h, Complex.exp_mul_I, Complex.ofReal_mul, Complex.ofReal_mul, Complex.ofReal_cos,
    Complex.ofReal_sin]
  ring

theorem norm_eq (x : Amplitude ℝ) : x.norm = ‖toComplex x‖ := by
  rw [Complex.norm_def, Complex.normSq_apply]
  rfl

end Amplitude

end Interchange
end
