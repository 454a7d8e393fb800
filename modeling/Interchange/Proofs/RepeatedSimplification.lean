import Interchange.Proofs.ParamRereading

namespace Interchange.Param
open Number

section Simplify

variable {F : Type} [Scalar F]

/-- What simplifies to a negation is negated by a sign only, neither as a difference from zero nor
by the factor minus one. -/
def NegatedBySign : Param F → Prop
  | const _ | pi | ref _ => True
  | neg e => e.NegatedBySign
  | add a b | div a b => a.NegatedBySign ∧ b.NegatedBySign
  | sub a b => (a.hasValue 0 = true → ∀ x, b.simplify ≠ neg x) ∧
      a.NegatedBySign ∧ b.NegatedBySign
  | mul a b => (a.hasValue (-1) = true → ∀ x, b.simplify ≠ neg x) ∧
      a.NegatedBySign ∧ b.NegatedBySign

section Reduce

variable {a b p r : Param F}

theorem negatedOnce_reduceAdd (ha : a.NegatedOnce) (hb : b.NegatedOnce) :
    (reduceAdd a b).NegatedOnce := by
  unfold reduceAdd
  split_ifs
  · exact hb
  · exact ha
  · exact ⟨ha, hb⟩

theorem negatedOnce_reduceSub (h : a.hasValue 0 = true → ∀ x, b ≠ neg x) (ha : a.NegatedOnce)
    (hb : b.NegatedOnce) : (reduceSub a b).NegatedOnce := by
  unfold reduceSub
  split_ifs with hzero
  · exact ⟨h hzero, hb⟩
  · exact ha
  · exact ⟨ha, hb⟩

theorem negatedOnce_reduceMul (h : a.hasValue (-1) = true → ∀ x, b ≠ neg x)
    (ha : a.NegatedOnce) (hb : b.NegatedOnce) : (reduceMul a b).NegatedOnce := by
  unfold reduceMul
  split_ifs with _ _ hminus
  · exact hb
  · exact ha
  · exact ⟨h hminus, hb⟩
  · exact ⟨ha, hb⟩

theorem negatedOnce_reduceDiv (ha : a.NegatedOnce) (hb : b.NegatedOnce) :
    (reduceDiv a b).NegatedOnce := by
  unfold reduceDiv
  split_ifs
  · exact ha
  · exact ⟨ha, hb⟩

theorem negatedOnce_elim (h : r.NegatedOnce) : (p.value?.elim r const).NegatedOnce := by
  cases p.value? with
  | some v => trivial
  | none => exact h

end Reduce

variable [FiniteAngles F]

theorem NegatedBySign.negatedOnce_simplify {p : Param F} (h : p.NegatedBySign) :
    p.simplify.NegatedOnce := by
  induction p with
  | const | pi | ref => trivial
  | neg e ih => exact negatedOnce_elim (negatedOnce_reduceNeg (ih h))
  | add a b iha ihb => exact negatedOnce_elim (negatedOnce_reduceAdd (iha h.1) (ihb h.2))
  | sub a b iha ihb =>
    refine negatedOnce_elim (negatedOnce_reduceSub ?_ (iha h.2.1) (ihb h.2.2))
    rw [hasValue_simplify]
    exact h.1
  | mul a b iha ihb =>
    refine negatedOnce_elim (negatedOnce_reduceMul ?_ (iha h.2.1) (ihb h.2.2))
    rw [hasValue_simplify]
    exact h.1
  | div a b iha ihb => exact negatedOnce_elim (negatedOnce_reduceDiv (iha h.1) (ihb h.2))

/-- A second simplification changes nothing just if the first one left no double negation. -/
theorem simplify_simplify_eq_iff (p : Param F) :
    p.simplify.simplify = p.simplify ↔ p.simplify.NegatedOnce := by
  constructor
  · intro h
    rw [← h]
    exact (folded_simplify p).negatedOnce_simplify
  · exact (folded_simplify p).simplify_eq

/-- A third one never does. -/
theorem simplify_simplify_simplify (p : Param F) :
    p.simplify.simplify.simplify = p.simplify.simplify :=
  (folded_simplify _).simplify_eq (folded_simplify p).negatedOnce_simplify

end Simplify

section Reading

theorem mapRefs_eq_self {F : Type} {f : Handle → Handle} {p : Param F}
    (h : p.RefsAll fun r => f r = r) : p.mapRefs f = p := by
  induction p with
  | const | pi => rfl
  | ref r => exact congrArg ref h
  | neg e ih => exact congrArg neg (ih h)
  | add a b iha ihb => exact congrArg₂ add (iha h.1) (ihb h.2)
  | sub a b iha ihb => exact congrArg₂ sub (iha h.1) (ihb h.2)
  | mul a b iha ihb => exact congrArg₂ mul (iha h.1) (ihb h.2)
  | div a b iha ihb => exact congrArg₂ div (iha h.1) (ihb h.2)

/-- Where the numbers are finite and the parameters are registered, a text is read as the simplified
expression. -/
theorem parse_write_of_registered {registry : Registry} {e : Param Float}
    (hfinite : e.FiniteNumbers)
    (hnames : e.RefsAll fun r => registry.lookup? r.name = some r ∧ IsName r.name) :
    parse registry e.write = (registry, .ok e.simplify) := by
  -- all names are known, so that reading adds none and finds each parameter again
  have hregistered : registry.registerAll e.words = registry := by
    rw [words_of_finite hfinite]
    refine Registry.registerAll_of_lookup fun name hname => ?_
    obtain ⟨r, hr, rfl⟩ := hnames.exists_of_mem_names hname
    rw [hr.1]
    rfl
  have hfixed : e.mapRefs (fun r => handleIn registry r.name) = e :=
    mapRefs_eq_self (hnames.mono fun r hr => by rw [handleIn, hr.1]; rfl)
  rw [parse_write_of_readable registry (hnames.mono fun _ hr => hr.2), hregistered,
    simplify_reread (name_handleIn registry) hfinite, hfixed]

/-- One simplification reaches a normal form, and its text is read as the same expression, just if
it left no double negation. It leaves none where negations are negated by signs; a second one always
takes them away. -/
theorem simplify_idempotent_iff (p : Param Float) :
    (p.simplify.simplify = p.simplify ↔ p.simplify.NegatedOnce) ∧
      (∀ registry : Registry, p.simplify.FiniteNumbers →
        (p.RefsAll fun r => registry.lookup? r.name = some r ∧ IsName r.name) →
        (parse registry p.simplify.write = (registry, .ok p.simplify) ↔
          p.simplify.NegatedOnce)) ∧
      (p.NegatedBySign → p.simplify.NegatedOnce) ∧
      p.simplify.simplify.simplify = p.simplify.simplify := by
  refine ⟨p.simplify_simplify_eq_iff, fun registry hfinite hnames => ?_,
    NegatedBySign.negatedOnce_simplify, p.simplify_simplify_simplify⟩
  rw [parse_write_of_registered hfinite (refsAll_simplify.mpr hnames),
    ← p.simplify_simplify_eq_iff, Prod.mk.injEq, Except.ok.injEq]
  exact and_iff_right rfl

/-- A parameter negated by a factor, and a quotient negated twice by signs. -/
def twiceNegated : Param Float :=
  .sub (.mul (.const (-1)) (.ref ⟨1, "theta"⟩)) (.neg (.neg (.div (.ref ⟨0, "phi"⟩) (.const 3))))

theorem simplify_idempotent_twiceNegated :
    twiceNegated.NegatedBySign ∧ twiceNegated.simplify.simplify = twiceNegated.simplify ∧
      parse ⟨["phi", "theta"]⟩ twiceNegated.simplify.write =
        (⟨["phi", "theta"]⟩, .ok twiceNegated.simplify) := by
  have hnames : twiceNegated.RefsAll fun r =>
      Registry.lookup? ⟨["phi", "theta"]⟩ r.name = some r ∧ IsName r.name := by
    refine ⟨⟨trivial, by decide, ?_, by decide⟩, ⟨by decide, ?_, by decide⟩, trivial⟩
    · exact Token.isIdentifier_of_word 't' ['h', 'e', 't', 'a'] rfl
    · exact Token.isIdentifier_of_word 'p' ['h', 'i'] rfl
  have hsign : twiceNegated.NegatedBySign := by
    refine ⟨fun h => Bool.noConfusion h, ⟨fun _ x => ?_, trivial, trivial⟩, trivial, trivial⟩
    simp [simplify]
  have hsimplify : twiceNegated.simplify =
      .sub (.neg (.ref ⟨1, "theta"⟩)) (.div (.ref ⟨0, "phi"⟩) (.const 3)) := rfl
  have hfinite : twiceNegated.simplify.FiniteNumbers := by
    rw [hsimplify]
    exact ⟨trivial, trivial, (by decide : (3 : Float).isFinite = true)⟩
  obtain ⟨htwice, hread, hnegated, -⟩ := simplify_idempotent_iff twiceNegated
  exact ⟨hsign, htwice.mpr (hnegated hsign), (hread _ hfinite hnames).mpr (hnegated hsign)⟩

/-- Both negations stay, and only a second simplification or reading the text cancels them. -/
theorem simplify_minusNegated :
    minusNegated.simplify = .neg (.neg (.ref ⟨0, "x"⟩)) ∧
      minusNegated.simplify.simplify = .ref ⟨0, "x"⟩ ∧
      minusNegated.simplify.simplify ≠ minusNegated.simplify ∧
      parse ⟨["x"]⟩ minusNegated.simplify.write =
        (⟨["x"]⟩, .ok minusNegated.simplify.simplify) := by
  have hsimplify : minusNegated.simplify = .neg (.neg (.ref ⟨0, "x"⟩)) := rfl
  have hname : IsName "x" := ⟨Token.isIdentifier_of_word 'x' [] rfl, by decide⟩
  have hagain : minusNegated.simplify.simplify = .ref ⟨0, "x"⟩ := rfl
  refine ⟨hsimplify, hagain, ?_, ?_⟩
  · rw [hagain, hsimplify]
    simp
  · refine parse_write_of_registered ?_ ?_ <;> rw [hsimplify]
    · trivial
    · exact ⟨by decide, hname⟩

end Reading

end Interchange.Param
