import Interchange.Proofs.NumericGate

namespace Interchange

variable {F : Type}

namespace Bindings

/-- The bindings of both; where both bind a name, the first decide. -/
def extendedBy (b b' : Bindings F) : Bindings F :=
  ⟨b.entries ++ b'.entries.filter fun e => (b.get? e.1).isNone⟩

theorem get?_extendedBy (b b' : Bindings F) (name : String) :
    (b.extendedBy b').get? name = (b.get? name).or (b'.get? name) := by
  rw [get?, extendedBy, List.lookup_append]
  cases h : b.get? name with
  | some v => rw [show b.entries.lookup name = some v from h, Option.some_or, Option.some_or]
  | none =>
    rw [show b.entries.lookup name = none from h, Option.none_or, Option.none_or, get?]
    induction b'.entries with
    | nil => rfl
    | cons e rest ih =>
      obtain ⟨key, v⟩ := e
      by_cases hkey : key = name
      · subst hkey
        rw [List.filter_cons_of_pos (by rw [h, Option.isNone_none]), List.lookup_cons_self,
          List.lookup_cons_self]
      · have hne : (name == key) = false := beq_false_of_ne (Ne.symm hkey)
        rw [List.lookup_cons, hne, ← ih, List.filter_cons]
        split_ifs
        · rw [List.lookup_cons, hne]
        · rfl

end Bindings

/-- Two evaluations end alike: in one number, at one parameter without a value, or both at an
expression that has none. -/
inductive SameOutcome : Except (CircuitError F) F → Except (CircuitError F) F → Prop
  | number (v : F) : SameOutcome (.ok v) (.ok v)
  | unbound (name : String) :
    SameOutcome (.error (.unboundParameter name)) (.error (.unboundParameter name))
  | invalid (p q : Param F) :
    SameOutcome (.error (.invalidExpression p)) (.error (.invalidExpression q))

namespace SameOutcome

theorem trans {x y z : Except (CircuitError F) F} (h : SameOutcome x y) (h' : SameOutcome y z) :
    SameOutcome x z := by
  cases h with
  | number | unbound => exact h'
  | invalid p => cases h'; exact .invalid p _

theorem bind {x y : Except (CircuitError F) F} {f g : F → Except (CircuitError F) F}
    (h : SameOutcome x y) (hfg : ∀ v, SameOutcome (f v) (g v)) :
    SameOutcome (x >>= f) (y >>= g) := by
  cases h with
  | number v => exact hfg v
  | unbound name => exact .unbound name
  | invalid p q => exact .invalid p q

variable [Scalar F] {p q p' q' : Param F} {b b' : Bindings F}

/-! ### Operations whose operands end alike -/

theorem neg (h : SameOutcome (p.evaluate b) (p'.evaluate b')) :
    SameOutcome ((Param.neg p).evaluate b) ((Param.neg p').evaluate b') :=
  h.bind fun v => .number (-v)

theorem add (h : SameOutcome (p.evaluate b) (p'.evaluate b'))
    (h' : SameOutcome (q.evaluate b) (q'.evaluate b')) :
    SameOutcome ((Param.add p q).evaluate b) ((Param.add p' q').evaluate b') :=
  h.bind fun v => h'.bind fun w => .number (v + w)

theorem sub (h : SameOutcome (p.evaluate b) (p'.evaluate b'))
    (h' : SameOutcome (q.evaluate b) (q'.evaluate b')) :
    SameOutcome ((Param.sub p q).evaluate b) ((Param.sub p' q').evaluate b') :=
  h.bind fun v => h'.bind fun w => .number (v - w)

theorem mul (h : SameOutcome (p.evaluate b) (p'.evaluate b'))
    (h' : SameOutcome (q.evaluate b) (q'.evaluate b')) :
    SameOutcome ((Param.mul p q).evaluate b) ((Param.mul p' q').evaluate b') :=
  h.bind fun v => h'.bind fun w => .number (v * w)

theorem div (h : SameOutcome (p.evaluate b) (p'.evaluate b'))
    (h' : SameOutcome (q.evaluate b) (q'.evaluate b')) :
    SameOutcome ((Param.div p q).evaluate b) ((Param.div p' q').evaluate b') := by
  refine h'.bind fun w => ?_
  split_ifs
  · exact .invalid _ _
  · exact h.bind fun v => .number (v / w)

/-- Evaluation fails only at a parameter without a value or at a division by zero. -/
theorem refl (p : Param F) (b : Bindings F) : SameOutcome (p.evaluate b) (p.evaluate b) := by
  induction p with
  | const v => exact .number v
  | pi => exact .number Scalar.pi
  | ref r =>
    rw [Param.evaluate]
    cases b.get? r.name with
    | some v => exact .number v
    | none => exact .unbound r.name
  | neg e ih => exact ih.neg
  | add a c iha ihc => exact iha.add ihc
  | sub a c iha ihc => exact iha.sub ihc
  | mul a c iha ihc => exact iha.mul ihc
  | div a c iha ihc => exact iha.div ihc

end SameOutcome

namespace Param

section Collect

variable {a c p : Param F}

theorem collect_reduceNeg (seen : List Handle) : (reduceNeg a).collect seen = a.collect seen := by
  cases a <;> rfl

variable [Scalar F]

theorem collect_of_hasValue {v : F} (h : p.hasValue v = true) (seen : List Handle) :
    p.collect seen = seen := by
  obtain ⟨w, hw, -⟩ := exists_of_hasValue h
  exact collect_of_not_symbolic (isSymbolic_eq_false_of_value? hw) seen

/-! ### Reduced operations: what they drop mentions no parameter -/

theorem collect_reduceAdd (seen : List Handle) :
    (reduceAdd a c).collect seen = c.collect (a.collect seen) := by
  unfold reduceAdd
  split_ifs with ha hc
  · rw [collect_of_hasValue ha]
  · rw [collect_of_hasValue hc]
  · rfl

theorem collect_reduceSub (seen : List Handle) :
    (reduceSub a c).collect seen = c.collect (a.collect seen) := by
  unfold reduceSub
  split_ifs with ha hc
  · rw [collect, collect_of_hasValue ha]
  · rw [collect_of_hasValue hc]
  · rfl

theorem collect_reduceMul (seen : List Handle) :
    (reduceMul a c).collect seen = c.collect (a.collect seen) := by
  unfold reduceMul
  split_ifs with ha hc hn
  · rw [collect_of_hasValue ha]
  · rw [collect_of_hasValue hc]
  · rw [collect, collect_of_hasValue hn]
  · rfl

theorem collect_reduceDiv (seen : List Handle) :
    (reduceDiv a c).collect seen = c.collect (a.collect seen) := by
  unfold reduceDiv
  split_ifs with hc
  · rw [collect_of_hasValue hc]
  · rfl

theorem collect_simplify (p : Param F) (seen : List Handle) :
    p.simplify.collect seen = p.collect seen := by
  have hfold : ∀ {q r : Param F} {seen : List Handle}, r.collect seen = q.collect seen →
      (q.value?.elim r const).collect seen = q.collect seen := by
    intro q r seen h
    cases hq : q.value? with
    | none => exact h
    | some v => exact (collect_of_not_symbolic (isSymbolic_eq_false_of_value? hq) seen).symm
  induction p generalizing seen with
  | const | pi | ref => rfl
  | neg a iha => exact hfold (by rw [collect_reduceNeg, iha, collect])
  | add a c iha ihc => exact hfold (by rw [collect_reduceAdd, iha, ihc, collect])
  | sub a c iha ihc => exact hfold (by rw [collect_reduceSub, iha, ihc, collect])
  | mul a c iha ihc => exact hfold (by rw [collect_reduceMul, iha, ihc, collect])
  | div a c iha ihc => exact hfold (by rw [collect_reduceDiv, iha, ihc, collect])

end Collect

variable [Scalar F] [ExactArithmetic F]

/-- Simplification keeps the outcome under all bindings, also a failure: what it folds has a value,
and what it drops cannot fail. -/
theorem sameOutcome_simplify (p : Param F) (b : Bindings F) :
    SameOutcome (p.simplify.evaluate b) (p.evaluate b) := by
  have hfold : ∀ {q r s : Param F}, r.evaluate b = s.evaluate b →
      SameOutcome (s.evaluate b) (q.evaluate b) →
      SameOutcome ((q.value?.elim r const).evaluate b) (q.evaluate b) := by
    intro q r s hr h
    cases hq : q.value? with
    | none => rwa [Option.elim_none, hr]
    | some v => rw [evaluate_of_value? hq]; exact .number v
  induction p with
  | const | pi | ref => exact .refl _ b
  | neg a iha => exact hfold (evaluate_reduceNeg b) iha.neg
  | add a c iha ihc => exact hfold (evaluate_reduceAdd b) (iha.add ihc)
  | sub a c iha ihc => exact hfold (evaluate_reduceSub b) (iha.sub ihc)
  | mul a c iha ihc => exact hfold (evaluate_reduceMul b) (iha.mul ihc)
  | div a c iha ihc => exact hfold (evaluate_reduceDiv b) (iha.div ihc)

/-- Binding some parameters now and others later is binding all of them at once. -/
theorem sameOutcome_substitute (p : Param F) (b b' : Bindings F) :
    SameOutcome ((p.substitute b).evaluate b') (p.evaluate (b.extendedBy b')) := by
  induction p with
  | const v => exact .number v
  | pi => exact .number Scalar.pi
  | ref r =>
    rw [substitute, evaluate, b.get?_extendedBy b' r.name]
    cases hb : b.get? r.name with
    | some v => exact .number v
    | none => exact .refl (.ref r) b'
  | neg a iha => exact (sameOutcome_simplify _ b').trans iha.neg
  | add a c iha ihc => exact (sameOutcome_simplify _ b').trans (iha.add ihc)
  | sub a c iha ihc => exact (sameOutcome_simplify _ b').trans (iha.sub ihc)
  | mul a c iha ihc => exact (sameOutcome_simplify _ b').trans (iha.mul ihc)
  | div a c iha ihc => exact (sameOutcome_simplify _ b').trans (iha.div ihc)

/-- Neither substitution nor simplification changes what an expression evaluates to or why it does
not, and simplification keeps the list of its parameters. -/
theorem sameOutcome_rewritten (p : Param F) :
    (∀ b b', SameOutcome ((p.substitute b).evaluate b') (p.evaluate (b.extendedBy b'))) ∧
      (∀ b, SameOutcome (p.simplify.evaluate b) (p.evaluate b)) ∧
      p.simplify.refs = p.refs :=
  ⟨sameOutcome_substitute p, sameOutcome_simplify p, collect_simplify p []⟩

/-- A quotient whose divisor vanishes where its two parameters agree. -/
def overDifference : Param ℝ :=
  .div (.ref ⟨0, "theta"⟩) (.sub (.ref ⟨1, "phi"⟩) (.ref ⟨0, "theta"⟩))

theorem sameOutcome_overDifference :
    SameOutcome
        ((overDifference.substitute ⟨[("theta", 1)]⟩).evaluate ⟨[("theta", 0), ("phi", 1)]⟩)
        (overDifference.evaluate ⟨[("theta", 1), ("phi", 1)]⟩) ∧
      SameOutcome (overDifference.simplify.evaluate {}) (overDifference.evaluate {}) ∧
      overDifference.simplify.refs = [⟨0, "theta"⟩, ⟨1, "phi"⟩] := by
  obtain ⟨hsubstitute, hsimplify, hrefs⟩ := sameOutcome_rewritten overDifference
  refine ⟨?_, hsimplify {}, hrefs.trans rfl⟩
  exact hsubstitute ⟨[("theta", 1)]⟩ ⟨[("theta", 0), ("phi", 1)]⟩

end Param

end Interchange
