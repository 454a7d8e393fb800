import Interchange.Framework.Table
import Interchange.Proofs.DoubleRange
import Interchange.Proofs.NumericGate
import Interchange.Synthesis.Rules

namespace Interchange
open Scalar

/-- Finite numbers stay finite under what rules do to angles: negation and halving. The angles that
rules bring in are finite. -/
class FiniteAngles (F : Type) [Scalar F] : Prop where
  beq_one_of_beq_zero (w : F) : (w == 0) = true → (w == 1) = false
  two_ne_zero : ((two : F) == 0) = false
  isFinite_neg {x : F} : isFinite x = true → isFinite (-x) = true
  isFinite_half {x : F} : isFinite x = true → isFinite (x / two) = true
  isFinite_halfPi : isFinite (halfPi : F) = true
  isFinite_quarterPi : isFinite (quarterPi : F) = true

instance : FiniteAngles Float where
  beq_one_of_beq_zero := Number.beq_one_of_beq_zero
  two_ne_zero := rfl
  isFinite_neg := Number.isFinite_neg
  isFinite_half := Number.isFinite_half
  isFinite_halfPi := rfl
  isFinite_quarterPi := rfl

instance : FiniteAngles ℝ where
  beq_one_of_beq_zero w h := by
    rw [(Scalar.beq_iff w 0).mp h]
    exact Bool.eq_false_iff.mpr fun hone => zero_ne_one ((Scalar.beq_iff 0 1).mp hone)
  two_ne_zero := Bool.eq_false_iff.mpr fun h => by
    rw [Scalar.beq_iff, two_real] at h
    exact two_ne_zero h
  isFinite_neg _ := rfl
  isFinite_half _ := rfl
  isFinite_halfPi := rfl
  isFinite_quarterPi := rfl

namespace Param

variable {F : Type}

def RefsAll (R : Handle → Prop) (p : Param F) : Prop := p.All (fun _ => True) R

section RefsAll

variable {R S : Handle → Prop} {a b p : Param F}

theorem RefsAll.mono (hRS : ∀ r, R r → S r) (h : p.RefsAll R) : p.RefsAll S :=
  All.imp (fun _ => id) hRS h

theorem RefsAll.and (hR : p.RefsAll R) (hS : p.RefsAll S) : p.RefsAll fun r => R r ∧ S r := by
  induction p with
  | const | pi => trivial
  | ref r => exact ⟨hR, hS⟩
  | neg e ih => exact ih hR hS
  | add a b iha ihb | sub a b iha ihb | mul a b iha ihb | div a b iha ihb =>
    exact ⟨iha hR.1 hS.1, ihb hR.2 hS.2⟩

theorem refsAll_of_forall (h : ∀ r, R r) (p : Param F) : p.RefsAll R := by
  induction p with
  | const | pi => trivial
  | ref r => exact h r
  | neg e ih => exact ih
  | add a b iha ihb | sub a b iha ihb | mul a b iha ihb | div a b iha ihb => exact ⟨iha, ihb⟩

theorem isSymbolic_eq_false_iff : p.isSymbolic = false ↔ p.RefsAll fun _ => False := by
  induction p with
  | const | pi => exact iff_of_true rfl trivial
  | ref r => exact iff_of_false (Bool.noConfusion ·) id
  | neg e ih => exact ih
  | add a b iha ihb | sub a b iha ihb | mul a b iha ihb | div a b iha ihb =>
    rw [isSymbolic, Bool.or_eq_false_iff, iha, ihb]
    rfl

theorem RefsAll.of_not_symbolic (h : p.isSymbolic = false) : p.RefsAll R :=
  (isSymbolic_eq_false_iff.mp h).mono fun _ => False.elim

theorem refsAll_reduceNeg : (reduceNeg a).RefsAll R ↔ a.RefsAll R := by cases a <;> exact Iff.rfl

variable [Scalar F]

theorem RefsAll.of_value? {v : F} (h : p.value? = some v) : p.RefsAll R :=
  .of_not_symbolic (isSymbolic_eq_false_of_value? h)

theorem RefsAll.of_hasValue {v : F} (h : p.hasValue v = true) : p.RefsAll R := by
  obtain ⟨w, hw, -⟩ := exists_of_hasValue h
  exact .of_value? hw

/-! ### Reduced operations: what they drop is a number -/

theorem refsAll_reduceAdd : (reduceAdd a b).RefsAll R ↔ a.RefsAll R ∧ b.RefsAll R := by
  unfold reduceAdd
  split_ifs with ha hb
  · exact (and_iff_right (.of_hasValue ha)).symm
  · exact (and_iff_left (.of_hasValue hb)).symm
  · exact Iff.rfl

theorem refsAll_reduceSub : (reduceSub a b).RefsAll R ↔ a.RefsAll R ∧ b.RefsAll R := by
  unfold reduceSub
  split_ifs with ha hb
  · exact (and_iff_right (.of_hasValue ha)).symm
  · exact (and_iff_left (.of_hasValue hb)).symm
  · exact Iff.rfl

theorem refsAll_reduceMul : (reduceMul a b).RefsAll R ↔ a.RefsAll R ∧ b.RefsAll R := by
  unfold reduceMul
  split_ifs with ha hb hc
  · exact (and_iff_right (.of_hasValue ha)).symm
  · exact (and_iff_left (.of_hasValue hb)).symm
  · exact (and_iff_right (.of_hasValue hc)).symm
  · exact Iff.rfl

theorem refsAll_reduceDiv : (reduceDiv a b).RefsAll R ↔ a.RefsAll R ∧ b.RefsAll R := by
  unfold reduceDiv
  split_ifs with hb
  · exact (and_iff_left (.of_hasValue hb)).symm
  · exact Iff.rfl

/-- A part that has a value is folded into a number. -/
theorem refsAll_folded {r : Param F} (h : r.RefsAll R ↔ p.RefsAll R) :
    (p.value?.elim r const).RefsAll R ↔ p.RefsAll R := by
  cases hv : p.value? with
  | some v => exact iff_of_true trivial (.of_value? hv)
  | none => exact h

theorem refsAll_simplify : p.simplify.RefsAll R ↔ p.RefsAll R := by
  induction p with
  | const | pi | ref => exact Iff.rfl
  | neg e ih => exact refsAll_folded (refsAll_reduceNeg.trans ih)
  | add a b iha ihb => exact refsAll_folded (refsAll_reduceAdd.trans (and_congr iha ihb))
  | sub a b iha ihb => exact refsAll_folded (refsAll_reduceSub.trans (and_congr iha ihb))
  | mul a b iha ihb => exact refsAll_folded (refsAll_reduceMul.trans (and_congr iha ihb))
  | div a b iha ihb => exact refsAll_folded (refsAll_reduceDiv.trans (and_congr iha ihb))

theorem isSymbolic_simplify (p : Param F) : p.simplify.isSymbolic = p.isSymbolic := by
  rw [← Bool.not_inj_iff, Bool.eq_iff_iff, Bool.not_eq_true', Bool.not_eq_true',
    isSymbolic_eq_false_iff, isSymbolic_eq_false_iff, refsAll_simplify]

end RefsAll

section Substitute

variable [Scalar F] {bindings : Bindings F} {R : Handle → Prop}

/-- The free parameters that substitution leaves are those without a value. -/
theorem refsAll_substitute {p : Param F} :
    (p.substitute bindings).RefsAll R ↔
      p.RefsAll fun r => bindings.get? r.name = none → R r := by
  induction p with
  | const | pi => exact Iff.rfl
  | ref r =>
    rw [substitute]
    cases hr : bindings.get? r.name with
    | some v => exact iff_of_true trivial fun h => absurd h (by simp [hr])
    | none => exact ⟨fun h _ => h, fun h => h hr⟩
  | neg e ih => exact refsAll_simplify.trans ih
  | add a b iha ihb | sub a b iha ihb | mul a b iha ihb | div a b iha ihb =>
    exact refsAll_simplify.trans (and_congr iha ihb)

/-- No binding changes the value of an expression that mentions only unbound parameters. -/
theorem value?_substitute [FiniteAngles F] {p : Param F}
    (h : p.RefsAll fun r => bindings.get? r.name = none) :
    (p.substitute bindings).value? = p.value? := by
  have hsimplify := simplify_value? (F := F) FiniteAngles.beq_one_of_beq_zero
  induction p with
  | const | pi => rfl
  | ref r => rw [substitute, show bindings.get? r.name = none from h]
  | neg e ih => rw [substitute, hsimplify, value?, ih h, value?]
  | add a b iha ihb | sub a b iha ihb | mul a b iha ihb | div a b iha ihb =>
    rw [substitute, hsimplify, value?, iha h.1, ihb h.2, value?]

theorem isSymbolic_substitute {p : Param F} (h : p.RefsAll fun r => bindings.get? r.name = none) :
    (p.substitute bindings).isSymbolic = p.isSymbolic := by
  rw [← Bool.not_inj_iff, Bool.eq_iff_iff, Bool.not_eq_true', Bool.not_eq_true',
    isSymbolic_eq_false_iff, isSymbolic_eq_false_iff, refsAll_substitute]
  exact ⟨fun hp => (h.and hp).mono fun _ hr => hr.2 hr.1, fun hp => hp.mono fun _ => False.elim⟩

end Substitute

/-- A parameter that a gate of the table can have, and on which the bindings have no effect left. -/
structure Settled [Scalar F] (table : GateTable) (bindings : Bindings F) (p : Param F) : Prop where
  admissible : p.isAdmissible = true
  unbound : p.RefsAll fun r => bindings.get? r.name = none
  allowed : table.freeParameters = true ∨ p.isSymbolic = false

section

variable [Scalar F] {p q : Param F}

theorem isAdmissible_congr (hs : p.isSymbolic = q.isSymbolic) (hv : p.value? = q.value?) :
    p.isAdmissible = q.isAdmissible := by
  rw [isAdmissible, hs, hv, isAdmissible]

/-- A number that is computed from a finite one without leaving the finite ones. -/
theorem isAdmissible_of_map {f : F → F} (hs : q.isSymbolic = p.isSymbolic)
    (hv : ∀ v, p.value? = some v → q.value? = some (f v))
    (hf : ∀ v, isFinite v = true → isFinite (f v) = true) (h : p.isAdmissible = true) :
    q.isAdmissible = true := by
  rw [isAdmissible, Bool.or_eq_true, Option.any_eq_true] at *
  rw [hs]
  rcases h with hsymbolic | ⟨v, hpv, hfinite⟩
  · exact .inl hsymbolic
  · exact .inr ⟨f v, hv v hpv, hf v hfinite⟩

end

namespace Settled

variable [Scalar F] {table : GateTable} {bindings : Bindings F} {p : Param F}

theorem of_const {v : F} (h : isFinite v = true) : Settled table bindings (.const v) :=
  ⟨by simpa [isAdmissible, isSymbolic, value?] using h, trivial, .inr rfl⟩

theorem of_substitute (ha : (p.substitute bindings).isAdmissible = true)
    (hp : table.freeParameters = true ∨ p.RefsAll fun r => (bindings.get? r.name).isSome = true) :
    Settled table bindings (p.substitute bindings) where
  admissible := ha
  unbound := refsAll_substitute.mpr (refsAll_of_forall (fun _ => id) p)
  allowed := hp.imp_right fun h => by
    rw [isSymbolic_eq_false_iff, refsAll_substitute]
    exact h.mono fun r hr hnone => by simp [hnone] at hr

variable [FiniteAngles F]

/-- An expression without free parameters is settled if substitution, which only folds it, leaves a
finite number. -/
theorem of_not_symbolic (hs : p.isSymbolic = false)
    (ha : (p.substitute bindings).isAdmissible = true) : Settled table bindings p where
  admissible := by
    rwa [isAdmissible_congr (isSymbolic_substitute (.of_not_symbolic hs))
      (value?_substitute (.of_not_symbolic hs))] at ha
  unbound := .of_not_symbolic hs
  allowed := .inr hs

theorem isAdmissible_substitute (h : Settled table bindings p) :
    (p.substitute bindings).isAdmissible = true :=
  (isAdmissible_congr (isSymbolic_substitute h.unbound) (value?_substitute h.unbound)).trans
    h.admissible

theorem simplify (h : Settled table bindings p) : Settled table bindings p.simplify where
  admissible := (isAdmissible_congr (isSymbolic_simplify p)
    (simplify_value? FiniteAngles.beq_one_of_beq_zero p)).trans h.admissible
  unbound := refsAll_simplify.mpr h.unbound
  allowed := by rw [isSymbolic_simplify]; exact h.allowed

theorem neg (h : Settled table bindings p) : Settled table bindings (-p) := by
  have hneg : Settled table bindings (.neg p) := by
    refine ⟨isAdmissible_of_map (p := p) rfl ?_ (fun _ => FiniteAngles.isFinite_neg) h.admissible,
      h.unbound, h.allowed⟩
    intro v hv
    rw [value?, hv, Option.map_some]
  exact hneg.simplify

theorem halved (h : Settled table bindings p) : Settled table bindings (Synthesis.halved p) := by
  have hsymbolic : (Param.div p (.const two)).isSymbolic = p.isSymbolic := Bool.or_false _
  have hdiv : Settled table bindings (.div p (.const two)) := by
    refine ⟨isAdmissible_of_map hsymbolic ?_ (fun _ => FiniteAngles.isFinite_half) h.admissible,
      ⟨h.unbound, trivial⟩, by rw [hsymbolic]; exact h.allowed⟩
    intro v hv
    simp [value?, hv, FiniteAngles.two_ne_zero]
  exact hdiv.simplify

end Settled

end Param

end Interchange
