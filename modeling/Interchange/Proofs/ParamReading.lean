import Mathlib.Analysis.Real.Pi.Bounds
import Interchange.Proofs.ParamText

noncomputable section
namespace Interchange
open Qasm

namespace Param

variable {F : Type} [Scalar F]

theorem quotient_ne_const (a b : Param F) (v : F) : quotient a b ≠ const v := by
  obtain ⟨_ | _, x, y, h⟩ := quotient_eq_scaled a b
  all_goals
    rw [h]
    rintro ⟨⟩

theorem eq_const_of_regrouped {p : Param F} {v : F} (h : p.regrouped = const v) : p = const v := by
  cases p with
  | const w => exact h
  | div a b => exact absurd h (quotient_ne_const _ _ v)
  | _ => cases h

variable [ExactArithmetic F]

/-- A divisor that is not written as a product or a quotient divides as a whole. -/
theorem quotient_of_plain {a b : Param F}
    (h : ∀ v ∈ [Scalar.halfPi, -Scalar.halfPi, Scalar.quarterPi, -Scalar.quarterPi, Scalar.tau],
      b ≠ const v) : quotient a b = div a b := by
  cases b with
  | const v =>
    rw [quotient]
    cases hf : PiForm.of? v with
    | none => rfl
    | some f =>
      have hv := PiForm.value_of_of? hf
      cases f with
      | pi | minusPi => rfl
      | half | minusHalf | quarter | minusQuarter | twice =>
        exact absurd (congrArg const hv.symm) (h _ (by simp [PiForm.value]))
  | _ => rfl

theorem regrouped_equivalent {p : Param F} (h : p.DividesPlainly) : p.regrouped.Equivalent p := by
  induction p with
  | const | pi | ref => exact .refl _
  | neg e ih => exact (ih h).neg
  | add a b iha ihb => exact (iha h.1).add (ihb h.2)
  | sub a b iha ihb => exact (iha h.1).sub (ihb h.2)
  | mul a b iha ihb => exact (iha h.1).mul (ihb h.2)
  | div a b iha ihb =>
    obtain ⟨ha, hb, hplain⟩ := h
    -- regrouping makes no new constants, so a plain divisor stays plain
    have hwhole : (div a b).regrouped = div a.regrouped b.regrouped :=
      quotient_of_plain fun v hv hconst => hplain v hv (eq_const_of_regrouped hconst)
    rw [hwhole]
    exact (iha ha).div (ihb hb)

end Param

namespace Qasm

variable {F : Type} [Scalar F] [Numeral F] [ExactArithmetic F]

theorem exists_readsAs_regrouped {inputs : List Handle} (hids : (inputs.map Handle.id).Nodup)
    {p : Param F} (hp : p.All Writable (· ∈ inputs)) :
    ∃ text q, writeParam (nameInputs inputs) p = .ok text ∧
      ReadsAs { inputs := declared F inputs } text q ∧ q.Equivalent p.regrouped := by
  have hbound : p.All Writable (Bound (nameInputs inputs) { inputs := declared F inputs }) :=
    hp.imp (fun _ h => h) fun _ hr => exists_identifier hids hr
  obtain ⟨text, ts, hwrite, hchunk, hspelling⟩ := exists_spelling hbound
  obtain ⟨e, he, q, hq, hregrouped⟩ := hspelling.whole
  exact ⟨text, q, hwrite, readsAs_of_chunk hchunk (.sumOf he) hq, hregrouped⟩

/-- The text of a parameter is an expression. Over exact numbers it evaluates like the parameter in
which a divisor that is written as a product or a quotient divides by its first factor only, hence
like the parameter itself where no divisor is written so. -/
theorem exists_readsAs_writeParam {inputs : List Handle} (hids : (inputs.map Handle.id).Nodup)
    {p : Param F} (hp : p.All Writable (· ∈ inputs)) :
    ∃ text q, writeParam (nameInputs inputs) p = .ok text ∧
      ReadsAs { inputs := declared F inputs } text q ∧ q.Equivalent p.regrouped ∧
      (p.DividesPlainly → q.Equivalent p) := by
  obtain ⟨text, q, hwrite, hread, hregrouped⟩ := exists_readsAs_regrouped hids hp
  exact ⟨text, q, hwrite, hread, hregrouped,
    fun h => hregrouped.trans (Param.regrouped_equivalent h)⟩

/-- Writes natural numbers in decimal, and for other numbers the natural number below them. -/
abbrev naturalNumeral : Numeral ℝ := ⟨fun v => toString ⌊v⌋₊, fun _ => none⟩

theorem readsBack_natural {n : ℕ} (hn : n < Lexeme.integerLimit) :
    @ReadsBack ℝ _ naturalNumeral n := by
  refine ⟨false, .int n, n, ?_, rfl, rfl⟩
  change IsNumeral (toString ⌊(n : ℝ)⌋₊).toList false (.int n)
  rw [Nat.floor_natCast]
  exact isNumeral_nat hn

omit [Numeral F] in
theorem writable_form (numeral : Numeral F) {f : PiForm} (hf : f ∈ PiForm.all)
    (hfin : Scalar.isFinite (f.value : F) = true) : @Writable F _ numeral f.value := by
  refine ⟨hfin, fun h => ?_⟩
  exact absurd ((ExactArithmetic.beq_iff _ _).mpr rfl) (List.find?_eq_none.mp h f hf)

def sharedNames : List Handle := [⟨0, "a b"⟩, ⟨1, "a_b"⟩]

def scaledDifference : Param ℝ :=
  .sub (.mul (.const (-Scalar.halfPi)) (.ref ⟨0, "a b"⟩)) (.div (.ref ⟨1, "a_b"⟩) (.const 3))

theorem scaledDifference_dividesPlainly : scaledDifference.DividesPlainly := by
  have hpi := Real.pi_gt_three
  have hpi' := Real.pi_lt_four
  refine ⟨⟨trivial, trivial⟩, trivial, trivial, ?_⟩
  intro v hv h
  have hthree : (3 : ℝ) = v := Param.const.inj h
  subst hthree
  simp only [List.mem_cons, List.not_mem_nil, or_false, Scalar.halfPi_real, Scalar.quarterPi_real,
    Scalar.tau_real] at hv
  rcases hv with hv | hv | hv | hv | hv <;> linarith

theorem exists_readsAs_scaledDifference :
    scaledDifference.All (@Writable ℝ _ naturalNumeral) (· ∈ sharedNames) ∧
      ∃ text q,
        @writeParam ℝ _ naturalNumeral (nameInputs sharedNames) scaledDifference = .ok text ∧
        ReadsAs { inputs := declared ℝ sharedNames } text q ∧ q.Equivalent scaledDifference := by
  have hall : scaledDifference.All (@Writable ℝ _ naturalNumeral) (· ∈ sharedNames) := by
    refine ⟨⟨writable_form naturalNumeral (f := .minusHalf) (by simp [PiForm.all]) rfl, ?_⟩, ?_, ?_⟩
    · exact List.mem_cons_self
    · exact List.mem_cons_of_mem _ List.mem_cons_self
    · exact ⟨rfl, fun _ => readsBack_natural (n := 3) (by decide)⟩
  obtain ⟨text, q, hwrite, hread, -, heq⟩ :=
    @exists_readsAs_writeParam ℝ _ naturalNumeral _ _ (by decide) _ hall
  exact ⟨hall, text, q, hwrite, hread, heq scaledDifference_dividesPlainly⟩

def overHalfPi : Param ℝ := .div (.ref ⟨0, "theta"⟩) (.const Scalar.halfPi)

theorem of?_halfPi : PiForm.of? (Scalar.halfPi : ℝ) = some .half := by
  have hpos := Real.pi_pos
  have hpi : ((Scalar.pi : ℝ) == Scalar.halfPi) = false := by
    refine Bool.eq_false_iff.mpr fun h => ?_
    have hpi : Real.pi = Real.pi / 2 := ((Scalar.beq_iff _ _).mp h).trans Scalar.halfPi_real
    linarith
  have hminus : ((-Scalar.pi : ℝ) == Scalar.halfPi) = false := by
    refine Bool.eq_false_iff.mpr fun h => ?_
    have hpi : -Real.pi = Real.pi / 2 := ((Scalar.beq_iff _ _).mp h).trans Scalar.halfPi_real
    linarith
  simp [PiForm.of?, PiForm.all, PiForm.value, List.find?, hpi, hminus]

/-- A quotient by `π / 2` is read as a quotient by `π` and then by 2. -/
theorem overHalfPi_changes_value :
    ∃ text q, @writeParam ℝ _ naturalNumeral (nameInputs [⟨0, "theta"⟩]) overHalfPi = .ok text ∧
      ReadsAs { inputs := declared ℝ [⟨0, "theta"⟩] } text q ∧
      overHalfPi.evaluate ⟨[("theta", 1)]⟩ = .ok (2 / Real.pi) ∧
      q.evaluate ⟨[("theta", 1)]⟩ = .ok (1 / (2 * Real.pi)) ∧ 1 / (2 * Real.pi) ≠ 2 / Real.pi := by
  have hall : overHalfPi.All (@Writable ℝ _ naturalNumeral) (· ∈ [⟨0, "theta"⟩]) :=
    ⟨List.mem_cons_self, writable_form naturalNumeral (f := .half) (by simp [PiForm.all]) rfl⟩
  obtain ⟨text, q, hwrite, hread, hq⟩ :=
    @exists_readsAs_regrouped ℝ _ naturalNumeral _ _ (by decide) _ hall
  have hregrouped : overHalfPi.regrouped =
      .div (.div (.ref ⟨0, "theta"⟩) .pi) (.const (Scalar.ofNat 2)) := by
    change Param.quotient (.ref ⟨0, "theta"⟩) (.const Scalar.halfPi) = _
    rw [Param.quotient, of?_halfPi]
    rfl
  rw [hregrouped] at hq
  have hpos := Real.pi_pos
  have htheta : (Param.ref ⟨0, "theta"⟩ : Param ℝ).evaluate ⟨[("theta", 1)]⟩ = .ok 1 := rfl
  refine ⟨text, q, hwrite, hread, ?_, (hq _ _).mpr ?_, ?_⟩
  · refine Param.evaluate_div_eq_ok.mpr ⟨1, _, htheta, rfl, Param.beq_zero ?_, ?_⟩
    · rw [Scalar.halfPi_real]
      positivity
    · rw [Scalar.halfPi_real]
      field_simp
  · have hinner : (Param.div (.ref ⟨0, "theta"⟩) .pi : Param ℝ).evaluate ⟨[("theta", 1)]⟩ =
        .ok (1 / Real.pi) :=
      Param.evaluate_div_eq_ok.mpr ⟨1, _, htheta, rfl, Param.beq_zero hpos.ne', rfl⟩
    refine Param.evaluate_div_eq_ok.mpr ⟨_, 2, hinner, rfl, Param.beq_zero two_ne_zero, ?_⟩
    field_simp
  · intro h
    field_simp at h
    norm_num at h

end Qasm

end Interchange
end
