import Interchange.Param.Evaluate
import Interchange.Proofs.ExactScalar
import Interchange.Proofs.Outcome

noncomputable section
namespace Interchange

/-- The arithmetic of the scalars is exact. How decimals are read is left open, so that they may be
rounded to the numbers at hand. -/
class ExactArithmetic (F : Type) [Scalar F] : Prop where
  beq_iff (x y : F) : (x == y) = true ↔ x = y
  neg_neg (x : F) : - -x = x
  zero_add (x : F) : 0 + x = x
  add_zero (x : F) : x + 0 = x
  zero_sub (x : F) : 0 - x = -x
  sub_zero (x : F) : x - 0 = x
  one_mul (x : F) : 1 * x = x
  mul_one (x : F) : x * 1 = x
  neg_one_mul (x : F) : -1 * x = -x
  div_one (x : F) : x / 1 = x
  neg_div (x y : F) : -x / y = -(x / y)
  mul_assoc (x y z : F) : x * y * z = x * (y * z)
  mul_div_assoc (x y z : F) : x * y / z = x * (y / z)
  one_ne_zero : (1 : F) ≠ 0
  two_ne_zero : (Scalar.two : F) ≠ 0
  four_ne_zero : (Scalar.ofNat 4 : F) ≠ 0
  ofNat_two : (Scalar.ofNat 2 : F) = Scalar.two

instance : ExactArithmetic ℝ where
  beq_iff := Scalar.beq_iff
  neg_neg := neg_neg
  zero_add := zero_add
  add_zero := add_zero
  zero_sub := zero_sub
  sub_zero := sub_zero
  one_mul := one_mul
  mul_one := mul_one
  neg_one_mul := neg_one_mul
  div_one := div_one
  neg_div x y := neg_div y x
  mul_assoc := mul_assoc
  mul_div_assoc := mul_div_assoc
  one_ne_zero := one_ne_zero
  two_ne_zero := by rw [Scalar.two_real]; exact two_ne_zero
  four_ne_zero := four_ne_zero
  ofNat_two := by rw [Scalar.two_real]; rfl

namespace Param

variable {F : Type}

/-- All numbers and all free parameters of an expression are of the given kinds. -/
def All (number : F → Prop) (parameter : Handle → Prop) : Param F → Prop
  | const v => number v
  | pi => True
  | ref r => parameter r
  | neg e => e.All number parameter
  | add a b | sub a b | mul a b | div a b => a.All number parameter ∧ b.All number parameter

theorem All.imp {number number' : F → Prop} {parameter parameter' : Handle → Prop}
    (hn : ∀ v, number v → number' v) (hr : ∀ r, parameter r → parameter' r) {p : Param F}
    (h : p.All number parameter) : p.All number' parameter' := by
  induction p with
  | const v => exact hn v h
  | pi => exact h
  | ref r => exact hr r h
  | neg e ih => exact ih h
  | add a b iha ihb | sub a b iha ihb | mul a b iha ihb | div a b iha ihb =>
    exact ⟨iha h.1, ihb h.2⟩

theorem collect_of_not_symbolic {p : Param F} (h : p.isSymbolic = false) (seen : List Handle) :
    p.collect seen = seen := by
  induction p generalizing seen with
  | const | pi => rfl
  | ref => cases h
  | neg e ih => exact ih h seen
  | add a b iha ihb | sub a b iha ihb | mul a b iha ihb | div a b iha ihb =>
    obtain ⟨ha, hb⟩ := Bool.or_eq_false_iff.mp h
    rw [collect, iha ha, ihb hb]

variable [Scalar F]

theorem value?_simplify {p : Param F} {v : F} (h : p.value? = some v) :
    p.simplify.value? = some v := by
  cases p with
  | const | pi => exact h
  | ref => cases h
  | neg | add | sub | mul | div =>
    rw [simplify, h]
    rfl

section Evaluate

variable {a c : Param F} {b : Bindings F} {v : F}

attribute [local simp] evaluate bind_eq_ok_iff

theorem evaluate_neg_eq_ok : (neg a).evaluate b = .ok v ↔ ∃ x, a.evaluate b = .ok x ∧ -x = v := by
  simp [pure, Except.pure]

theorem evaluate_add_eq_ok : (add a c).evaluate b = .ok v ↔
    ∃ x y, a.evaluate b = .ok x ∧ c.evaluate b = .ok y ∧ x + y = v := by
  simp [pure, Except.pure]

theorem evaluate_sub_eq_ok : (sub a c).evaluate b = .ok v ↔
    ∃ x y, a.evaluate b = .ok x ∧ c.evaluate b = .ok y ∧ x - y = v := by
  simp [pure, Except.pure]

theorem evaluate_mul_eq_ok : (mul a c).evaluate b = .ok v ↔
    ∃ x y, a.evaluate b = .ok x ∧ c.evaluate b = .ok y ∧ x * y = v := by
  simp [pure, Except.pure]

theorem evaluate_div_eq_ok : (div a c).evaluate b = .ok v ↔
    ∃ x y, a.evaluate b = .ok x ∧ c.evaluate b = .ok y ∧ (y == 0) = false ∧ x / y = v := by
  rw [evaluate, bind_eq_ok_iff]
  constructor
  · rintro ⟨y, hy, h⟩
    split at h
    next => cases h
    next hne =>
      obtain ⟨x, hx, h⟩ := bind_eq_ok_iff.mp h
      exact ⟨x, y, hx, hy, Bool.eq_false_iff.mpr hne, Except.ok.inj h⟩
  · rintro ⟨x, y, hx, hy, hne, rfl⟩
    refine ⟨y, hy, ?_⟩
    rw [if_neg (Bool.eq_false_iff.mp hne), hx]
    rfl

end Evaluate

theorem evaluate_of_value? {p : Param F} {v : F} (h : p.value? = some v) (b : Bindings F) :
    p.evaluate b = .ok v := by
  induction p generalizing v with
  | const | pi => exact congrArg Except.ok (Option.some.inj h)
  | ref => cases h
  | neg a iha =>
    obtain ⟨x, hx, rfl⟩ := Option.map_eq_some_iff.mp h
    exact evaluate_neg_eq_ok.mpr ⟨x, iha hx, rfl⟩
  | add a c iha ihc | sub a c iha ihc | mul a c iha ihc =>
    simp only [value?, Option.bind_eq_bind, Option.bind_eq_some_iff] at h
    obtain ⟨x, hx, y, hy, h⟩ := h
    simp only [evaluate, iha hx, ihc hy]
    exact congrArg Except.ok (Option.some.inj h)
  | div a c iha ihc =>
    simp only [value?, Option.bind_eq_bind, Option.bind_eq_some_iff] at h
    obtain ⟨y, hy, h⟩ := h
    split at h
    next => cases h
    next hne =>
      obtain ⟨x, hx, h⟩ := Option.bind_eq_some_iff.mp h
      exact evaluate_div_eq_ok.mpr
        ⟨x, y, iha hx, ihc hy, Bool.eq_false_iff.mpr hne, Option.some.inj h⟩

/-- Without bindings, only an expression without free parameters has a value. -/
theorem value?_of_evaluate {p : Param F} {v : F} (h : p.evaluate {} = .ok v) :
    p.value? = some v := by
  induction p generalizing v with
  | const | pi => exact congrArg some (Except.ok.inj h)
  | ref => cases h
  | neg a iha =>
    obtain ⟨x, hx, rfl⟩ := evaluate_neg_eq_ok.mp h
    rw [value?, iha hx, Option.map_some]
  | add a c iha ihc =>
    obtain ⟨x, y, hx, hy, rfl⟩ := evaluate_add_eq_ok.mp h
    simp [value?, iha hx, ihc hy]
  | sub a c iha ihc =>
    obtain ⟨x, y, hx, hy, rfl⟩ := evaluate_sub_eq_ok.mp h
    simp [value?, iha hx, ihc hy]
  | mul a c iha ihc =>
    obtain ⟨x, y, hx, hy, rfl⟩ := evaluate_mul_eq_ok.mp h
    simp [value?, iha hx, ihc hy]
  | div a c iha ihc =>
    obtain ⟨x, y, hx, hy, hne, rfl⟩ := evaluate_div_eq_ok.mp h
    simp [value?, iha hx, ihc hy, hne]

/-- Both evaluate under the same bindings, and to the same numbers. -/
def Equivalent (p q : Param F) : Prop := ∀ b v, p.evaluate b = .ok v ↔ q.evaluate b = .ok v

namespace Equivalent

variable {p q r p' q' : Param F}

theorem refl (p : Param F) : Equivalent p p := fun _ _ => Iff.rfl

theorem symm (h : Equivalent p q) : Equivalent q p := fun b v => (h b v).symm

theorem trans (h : Equivalent p q) (h' : Equivalent q r) : Equivalent p r :=
  fun b v => (h b v).trans (h' b v)

theorem neg (h : Equivalent p q) : Equivalent (.neg p) (.neg q) := by
  intro b v
  simp only [evaluate_neg_eq_ok, h b]

theorem add (h : Equivalent p q) (h' : Equivalent p' q') :
    Equivalent (.add p p') (.add q q') := by
  intro b v
  simp only [evaluate_add_eq_ok, h b, h' b]

theorem sub (h : Equivalent p q) (h' : Equivalent p' q') :
    Equivalent (.sub p p') (.sub q q') := by
  intro b v
  simp only [evaluate_sub_eq_ok, h b, h' b]

theorem mul (h : Equivalent p q) (h' : Equivalent p' q') :
    Equivalent (.mul p p') (.mul q q') := by
  intro b v
  simp only [evaluate_mul_eq_ok, h b, h' b]

theorem div (h : Equivalent p q) (h' : Equivalent p' q') :
    Equivalent (.div p p') (.div q q') := by
  intro b v
  simp only [evaluate_div_eq_ok, h b, h' b]

theorem of_value? {v : F} (hp : p.value? = some v) (hq : q.value? = some v) : Equivalent p q := by
  intro b w
  rw [evaluate_of_value? hp, evaluate_of_value? hq]

end Equivalent

section Exact

variable [ExactArithmetic F] {a c : Param F}

theorem evaluate_of_hasValue {v : F} (h : a.hasValue v = true) (b : Bindings F) :
    a.evaluate b = .ok v := by
  cases hx : a.value? with
  | none => simp [hasValue, hx] at h
  | some x =>
    have hv : (x == v) = true := by simpa [hasValue, hx] using h
    rw [evaluate_of_value? hx, (ExactArithmetic.beq_iff x v).mp hv]

/-- Dropping a neutral element changes no evaluation, not even one that fails. -/
theorem evaluate_reduceNeg (b : Bindings F) : (reduceNeg a).evaluate b = (neg a).evaluate b := by
  cases a with
  | neg inner =>
    simp only [reduceNeg, evaluate, bind_assoc]
    exact (bind_eq_self fun v => congrArg Except.ok (ExactArithmetic.neg_neg v)).symm
  | _ => rfl

theorem evaluate_reduceAdd (b : Bindings F) :
    (reduceAdd a c).evaluate b = (add a c).evaluate b := by
  rw [reduceAdd]
  split_ifs with ha hc
  · rw [evaluate, evaluate_of_hasValue ha]
    exact (bind_eq_self fun v => congrArg Except.ok (ExactArithmetic.zero_add v)).symm
  · rw [evaluate, evaluate_of_hasValue hc]
    exact (bind_eq_self fun v => congrArg Except.ok (ExactArithmetic.add_zero v)).symm
  · rfl

theorem evaluate_reduceSub (b : Bindings F) :
    (reduceSub a c).evaluate b = (sub a c).evaluate b := by
  rw [reduceSub]
  split_ifs with ha hc
  · rw [evaluate, evaluate, evaluate_of_hasValue ha]
    exact bind_congr fun v => congrArg Except.ok (ExactArithmetic.zero_sub v).symm
  · rw [evaluate, evaluate_of_hasValue hc]
    exact (bind_eq_self fun v => congrArg Except.ok (ExactArithmetic.sub_zero v)).symm
  · rfl

theorem evaluate_reduceMul (b : Bindings F) :
    (reduceMul a c).evaluate b = (mul a c).evaluate b := by
  rw [reduceMul]
  split_ifs with ha hc hn
  · rw [evaluate, evaluate_of_hasValue ha]
    exact (bind_eq_self fun v => congrArg Except.ok (ExactArithmetic.one_mul v)).symm
  · rw [evaluate, evaluate_of_hasValue hc]
    exact (bind_eq_self fun v => congrArg Except.ok (ExactArithmetic.mul_one v)).symm
  · rw [evaluate, evaluate, evaluate_of_hasValue hn]
    exact bind_congr fun v => congrArg Except.ok (ExactArithmetic.neg_one_mul v).symm
  · rfl

theorem beq_zero {x : F} (h : x ≠ 0) : (x == 0) = false :=
  Bool.eq_false_iff.mpr fun hx => h ((ExactArithmetic.beq_iff x 0).mp hx)

theorem evaluate_reduceDiv (b : Bindings F) :
    (reduceDiv a c).evaluate b = (div a c).evaluate b := by
  rw [reduceDiv]
  split_ifs with hc
  · have hone : ((1 : F) == 0) = false := beq_zero ExactArithmetic.one_ne_zero
    rw [evaluate, evaluate_of_hasValue hc]
    change _ = if ((1 : F) == 0) = true then _ else _
    rw [if_neg (Bool.eq_false_iff.mp hone)]
    exact (bind_eq_self fun v => congrArg Except.ok (ExactArithmetic.div_one v)).symm
  · rfl

/-- What is folded has a value under all bindings, and what is dropped is neutral. -/
theorem simplify_equivalent (p : Param F) : Equivalent p.simplify p := by
  have hfold : ∀ {q r s : Param F}, (∀ b, r.evaluate b = s.evaluate b) → Equivalent s q →
      Equivalent (q.value?.elim r const) q := by
    intro q r s hr h
    cases hq : q.value? with
    | none => exact .trans (fun b v => by rw [Option.elim_none, hr b]) h
    | some v => exact .of_value? rfl hq
  induction p with
  | const | pi | ref => exact .refl _
  | neg a iha => exact hfold evaluate_reduceNeg iha.neg
  | add a c iha ihc => exact hfold evaluate_reduceAdd (iha.add ihc)
  | sub a c iha ihc => exact hfold evaluate_reduceSub (iha.sub ihc)
  | mul a c iha ihc => exact hfold evaluate_reduceMul (iha.mul ihc)
  | div a c iha ihc => exact hfold evaluate_reduceDiv (iha.div ihc)

end Exact

end Param
end Interchange
end
