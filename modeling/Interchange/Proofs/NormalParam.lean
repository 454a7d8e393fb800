import Interchange.Proofs.SettledParam

namespace Interchange.Param

variable {F : Type}

/-- Nothing is negated twice. -/
def NegatedOnce : Param F → Prop
  | const _ | pi | ref _ => True
  | neg e => (∀ x, e ≠ neg x) ∧ e.NegatedOnce
  | add a b | sub a b | mul a b | div a b => a.NegatedOnce ∧ b.NegatedOnce

theorem negatedOnce_reduceNeg {e : Param F} (h : e.NegatedOnce) : (reduceNeg e).NegatedOnce := by
  cases e with
  | neg inner => exact h.2
  | _ => exact ⟨fun x => by simp, h⟩

variable [Scalar F]

/-- No operation has a value or a neutral operand. -/
def Folded : Param F → Prop
  | const _ | pi | ref _ => True
  | neg e => (neg e).value? = none ∧ e.Folded
  | add a b => (add a b).value? = none ∧ (a.hasValue 0 = false ∧ b.hasValue 0 = false) ∧
      a.Folded ∧ b.Folded
  | sub a b => (sub a b).value? = none ∧ (a.hasValue 0 = false ∧ b.hasValue 0 = false) ∧
      a.Folded ∧ b.Folded
  | mul a b => (mul a b).value? = none ∧
      (a.hasValue 1 = false ∧ b.hasValue 1 = false ∧ a.hasValue (-1) = false) ∧ a.Folded ∧ b.Folded
  | div a b => (div a b).value? = none ∧ b.hasValue 1 = false ∧ a.Folded ∧ b.Folded

section Reduce

variable {a b e p r : Param F}

theorem folded_reduceNeg (h : (neg e).value? = none) (he : e.Folded) : (reduceNeg e).Folded := by
  cases e with
  | neg inner => exact he.2
  | _ => exact ⟨h, he⟩

theorem folded_reduceAdd (h : (add a b).value? = none) (ha : a.Folded) (hb : b.Folded) :
    (reduceAdd a b).Folded := by
  unfold reduceAdd
  split_ifs with ha0 hb0
  · exact hb
  · exact ha
  · exact ⟨h, ⟨Bool.eq_false_iff.mpr ha0, Bool.eq_false_iff.mpr hb0⟩, ha, hb⟩

/-- A difference from zero becomes a negation, of what may be a negation itself. -/
theorem folded_reduceSub (h : (sub a b).value? = none) (ha : a.Folded) (hb : b.Folded) :
    (reduceSub a b).Folded := by
  unfold reduceSub
  split_ifs with ha0 hb0
  · have hvalue := (map₂_eq_none_iff.mp h).resolve_left (value?_ne_none_of_hasValue ha0)
    exact ⟨Option.map_eq_none_iff.mpr hvalue, hb⟩
  · exact ha
  · exact ⟨h, ⟨Bool.eq_false_iff.mpr ha0, Bool.eq_false_iff.mpr hb0⟩, ha, hb⟩

/-- A negation, negated as a difference from zero: one simplification makes `- -x` of it, and a
second one `x`. -/
def minusNegated : Param Float := .sub (.const 0) (.neg (.ref ⟨0, "x"⟩))

theorem folded_reduceMul (h : (mul a b).value? = none) (ha : a.Folded) (hb : b.Folded) :
    (reduceMul a b).Folded := by
  unfold reduceMul
  split_ifs with ha1 hb1 hm1
  · exact hb
  · exact ha
  · have hvalue := (map₂_eq_none_iff.mp h).resolve_left (value?_ne_none_of_hasValue hm1)
    exact ⟨Option.map_eq_none_iff.mpr hvalue, hb⟩
  · exact ⟨h, ⟨Bool.eq_false_iff.mpr ha1, Bool.eq_false_iff.mpr hb1, Bool.eq_false_iff.mpr hm1⟩,
      ha, hb⟩

theorem folded_reduceDiv (h : (div a b).value? = none) (ha : a.Folded) (hb : b.Folded) :
    (reduceDiv a b).Folded := by
  unfold reduceDiv
  split_ifs with hb1
  · exact ha
  · exact ⟨h, Bool.eq_false_iff.mpr hb1, ha, hb⟩

theorem folded_elim (h : p.value? = none → r.Folded) : (p.value?.elim r const).Folded := by
  cases hv : p.value? with
  | some v => trivial
  | none => exact h hv

theorem Folded.simplify_neg (h : (neg e).Folded) : (neg e).simplify = reduceNeg e.simplify := by
  rw [simplify, h.1, Option.elim_none]

end Reduce

section Simplify

variable [FiniteAngles F] {a b : Param F}

theorem value?_simplified (p : Param F) : p.simplify.value? = p.value? :=
  simplify_value? FiniteAngles.beq_one_of_beq_zero p

theorem hasValue_simplify (p : Param F) (v : F) : p.simplify.hasValue v = p.hasValue v := by
  rw [hasValue, value?_simplified, hasValue]

theorem folded_simplify (p : Param F) : p.simplify.Folded := by
  induction p with
  | const | pi | ref => trivial
  | neg e ih =>
    refine folded_elim fun h => folded_reduceNeg ?_ ih
    rw [value?, value?_simplified]
    exact h
  | add a b iha ihb =>
    refine folded_elim fun h => folded_reduceAdd ?_ iha ihb
    rw [value?, value?_simplified, value?_simplified]
    exact h
  | sub a b iha ihb =>
    refine folded_elim fun h => folded_reduceSub ?_ iha ihb
    rw [value?, value?_simplified, value?_simplified]
    exact h
  | mul a b iha ihb =>
    refine folded_elim fun h => folded_reduceMul ?_ iha ihb
    rw [value?, value?_simplified, value?_simplified]
    exact h
  | div a b iha ihb =>
    refine folded_elim fun h => folded_reduceDiv ?_ iha ihb
    rw [value?, value?_simplified, value?_simplified]
    exact h

/-- Only the operands of a folded operation are simplified. -/
theorem Folded.simplify_add (h : (add a b).Folded) :
    (add a b).simplify = add a.simplify b.simplify := by
  rw [simplify, h.1, Option.elim_none, reduceAdd, hasValue_simplify, hasValue_simplify, h.2.1.1,
    h.2.1.2]
  rfl

theorem Folded.simplify_sub (h : (sub a b).Folded) :
    (sub a b).simplify = sub a.simplify b.simplify := by
  rw [simplify, h.1, Option.elim_none, reduceSub, hasValue_simplify, hasValue_simplify, h.2.1.1,
    h.2.1.2]
  rfl

theorem Folded.simplify_mul (h : (mul a b).Folded) :
    (mul a b).simplify = mul a.simplify b.simplify := by
  rw [simplify, h.1, Option.elim_none, reduceMul, hasValue_simplify, hasValue_simplify,
    hasValue_simplify, h.2.1.1, h.2.1.2.1, h.2.1.2.2]
  rfl

theorem Folded.simplify_div (h : (div a b).Folded) :
    (div a b).simplify = div a.simplify b.simplify := by
  rw [simplify, h.1, Option.elim_none, reduceDiv, hasValue_simplify, h.2.1]
  rfl

theorem Folded.negatedOnce_simplify {p : Param F} (h : p.Folded) : p.simplify.NegatedOnce := by
  induction p with
  | const | pi | ref => trivial
  | neg e ih =>
    rw [h.simplify_neg]
    exact negatedOnce_reduceNeg (ih h.2)
  | add a b iha ihb =>
    rw [h.simplify_add]
    exact ⟨iha h.2.2.1, ihb h.2.2.2⟩
  | sub a b iha ihb =>
    rw [h.simplify_sub]
    exact ⟨iha h.2.2.1, ihb h.2.2.2⟩
  | mul a b iha ihb =>
    rw [h.simplify_mul]
    exact ⟨iha h.2.2.1, ihb h.2.2.2⟩
  | div a b iha ihb =>
    rw [h.simplify_div]
    exact ⟨iha h.2.2.1, ihb h.2.2.2⟩

theorem Folded.simplify_eq {p : Param F} (h : p.Folded) (hn : p.NegatedOnce) : p.simplify = p := by
  induction p with
  | const | pi | ref => rfl
  | neg e ih =>
    rw [h.simplify_neg, ih h.2 hn.2]
    cases e with
    | neg x => exact absurd rfl (hn.1 x)
    | _ => rfl
  | add a b iha ihb => rw [h.simplify_add, iha h.2.2.1 hn.1, ihb h.2.2.2 hn.2]
  | sub a b iha ihb => rw [h.simplify_sub, iha h.2.2.1 hn.1, ihb h.2.2.2 hn.2]
  | mul a b iha ihb => rw [h.simplify_mul, iha h.2.2.1 hn.1, ihb h.2.2.2 hn.2]
  | div a b iha ihb => rw [h.simplify_div, iha h.2.2.1 hn.1, ihb h.2.2.2 hn.2]

theorem folded_substitute (p : Param F) (bindings : Bindings F) :
    (p.substitute bindings).Folded := by
  cases p with
  | const | pi => trivial
  | ref r =>
    rw [substitute]
    split <;> trivial
  | neg | add | sub | mul | div => exact folded_simplify _

end Simplify

section Bound

variable {a c p : Param F} {b : Bindings F} {v : F}

theorem value?_div_eq_some : (div a c).value? = some v ↔
    ∃ x y, a.value? = some x ∧ c.value? = some y ∧ (y == 0) = false ∧ x / y = v := by
  rw [value?]
  cases c.value? with
  | none => simp
  | some y => cases a.value? <;> cases hy : y == 0 <;> simp [hy]

variable [FiniteAngles F]

/-- Substitution leaves a value exactly where the parameters have values that give one. -/
theorem value?_substitute_eq_some_iff :
    (p.substitute b).value? = some v ↔ p.evaluate b = .ok v := by
  have hconst (w v : F) : some w = some v ↔ (.ok w : Except (CircuitError F) F) = .ok v := by
    rw [Option.some.injEq, Except.ok.injEq]
  induction p generalizing v with
  | const w => exact hconst w v
  | pi => exact hconst Scalar.pi v
  | ref r =>
    rw [substitute, evaluate]
    cases b.get? r.name with
    | none => exact iff_of_false (by simp [value?]) (by simp)
    | some w => exact hconst w v
  | neg e ih =>
    rw [substitute, value?_simplified, value?, evaluate_neg_eq_ok, Option.map_eq_some_iff]
    simp only [ih]
  | add x y ihx ihy =>
    rw [substitute, value?_simplified, value?, evaluate_add_eq_ok]
    simp [Option.bind_eq_some_iff, ihx, ihy]
  | sub x y ihx ihy =>
    rw [substitute, value?_simplified, value?, evaluate_sub_eq_ok]
    simp [Option.bind_eq_some_iff, ihx, ihy]
  | mul x y ihx ihy =>
    rw [substitute, value?_simplified, value?, evaluate_mul_eq_ok]
    simp [Option.bind_eq_some_iff, ihx, ihy]
  | div x y ihx ihy =>
    rw [substitute, value?_simplified, value?_div_eq_some, evaluate_div_eq_ok]
    simp only [ihx, ihy]

theorem substitute_eq_const (hp : p.isSymbolic = true) (hv : p.evaluate b = .ok v) :
    p.substitute b = .const v := by
  have hvalue := value?_substitute_eq_some_iff.mpr hv
  cases p with
  | const | pi => cases hp
  | ref r =>
    rw [substitute] at hvalue ⊢
    cases hr : b.get? r.name with
    | none => simp [hr, value?] at hvalue
    | some w =>
      rw [hr] at hvalue
      exact congrArg _ (Option.some.inj hvalue)
  | neg | add | sub | mul | div =>
    rw [substitute, value?_simplified] at hvalue
    rw [substitute, simplify, hvalue, Option.elim_some]

end Bound

/-- An expression that neither substitution nor simplification changes. -/
structure Normal (bindings : Bindings F) (p : Param F) : Prop where
  folded : p.Folded
  negatedOnce : p.NegatedOnce
  unbound : p.RefsAll fun r => bindings.get? r.name = none

namespace Normal

variable [FiniteAngles F] {bindings : Bindings F} {p : Param F}

/-- A double negation may come up in substitution; simplification after it leaves none. -/
theorem simplify_substitute (p : Param F) (bindings : Bindings F) :
    Normal bindings (p.substitute bindings).simplify where
  folded := folded_simplify _
  negatedOnce := (folded_substitute p bindings).negatedOnce_simplify
  unbound := refsAll_simplify.mpr (refsAll_substitute.mpr (refsAll_of_forall (fun _ => id) p))

theorem simplify_eq (h : Normal bindings p) : p.simplify = p := h.folded.simplify_eq h.negatedOnce

theorem substitute_eq (h : Normal bindings p) : p.substitute bindings = p := by
  induction p with
  | const | pi => rfl
  | ref r => rw [substitute, show bindings.get? r.name = none from h.unbound]
  | neg e ih =>
    rw [substitute, ih ⟨h.folded.2, h.negatedOnce.2, h.unbound⟩]
    exact h.simplify_eq
  | add a b iha ihb | sub a b iha ihb | mul a b iha ihb | div a b iha ihb =>
    rw [substitute, iha ⟨h.folded.2.2.1, h.negatedOnce.1, h.unbound.1⟩,
      ihb ⟨h.folded.2.2.2, h.negatedOnce.2, h.unbound.2⟩]
    exact h.simplify_eq

end Normal

end Interchange.Param
