import Interchange.Proofs.CirqPassage
import Interchange.Proofs.ParamOutcome
import Interchange.Proofs.RegisteredCircuit

noncomputable section
namespace Interchange

theorem SameOutcome.eq_ok_iff {F : Type} {x y : Except (CircuitError F) F} (h : SameOutcome x y)
    {v : F} : x = .ok v ↔ y = .ok v := by
  cases h <;> simp

namespace Param

/-- To bind a parameter and to evaluate it under the bindings is the same. -/
theorem value?_substitute_iff {p : Param ℝ} {b : Bindings ℝ} {v : ℝ} :
    (p.substitute b).value? = some v ↔ p.evaluate b = .ok v := by
  have hsame := sameOutcome_substitute p b {}
  rw [show b.extendedBy {} = b by simp [Bindings.extendedBy]] at hsame
  rw [← hsame.eq_ok_iff]
  exact ⟨fun h => evaluate_of_value? h {}, value?_of_evaluate⟩

/-- The second parameter has the values of the first, under all bindings that give it one, and free
parameters just if the first has. -/
structure KeptBy (p q : Param ℝ) : Prop where
  symbolic : q.isSymbolic = p.isSymbolic
  value : ∀ b v, p.evaluate b = .ok v → q.evaluate b = .ok v

namespace KeptBy

variable {p q r p' q' : Param ℝ}

theorem refl (p : Param ℝ) : p.KeptBy p := ⟨rfl, fun _ _ => id⟩

theorem trans (h : p.KeptBy q) (h' : q.KeptBy r) : p.KeptBy r :=
  ⟨h'.symbolic.trans h.symbolic, fun b v hv => h'.value b v (h.value b v hv)⟩

theorem simplify (h : p.KeptBy q) : p.KeptBy q.simplify :=
  h.trans ⟨isSymbolic_simplify q, fun b v => (simplify_equivalent q b v).mpr⟩

theorem of_value? {v : ℝ} (h : p.value? = some v) : p.KeptBy (.const v) := by
  refine ⟨(isSymbolic_eq_false_of_value? h).symm, fun b w hw => ?_⟩
  rwa [evaluate_of_value? h] at hw

theorem add (h : p.KeptBy q) (h' : p'.KeptBy q') : (p.add p').KeptBy (q.add q') := by
  refine ⟨congrArg₂ _ h.symbolic h'.symbolic, fun b v hv => ?_⟩
  obtain ⟨x, y, hx, hy, rfl⟩ := evaluate_add_eq_ok.mp hv
  exact evaluate_add_eq_ok.mpr ⟨x, y, h.value b x hx, h'.value b y hy, rfl⟩

theorem mul (h : p.KeptBy q) (h' : p'.KeptBy q') : (p.mul p').KeptBy (q.mul q') := by
  refine ⟨congrArg₂ _ h.symbolic h'.symbolic, fun b v hv => ?_⟩
  obtain ⟨x, y, hx, hy, rfl⟩ := evaluate_mul_eq_ok.mp hv
  exact evaluate_mul_eq_ok.mpr ⟨x, y, h.value b x hx, h'.value b y hy, rfl⟩

theorem div (h : p.KeptBy q) (h' : p'.KeptBy q') : (p.div p').KeptBy (q.div q') := by
  refine ⟨congrArg₂ _ h.symbolic h'.symbolic, fun b v hv => ?_⟩
  obtain ⟨x, y, hx, hy, hne, rfl⟩ := evaluate_div_eq_ok.mp hv
  exact evaluate_div_eq_ok.mpr ⟨x, y, h.value b x hx, h'.value b y hy, hne, rfl⟩

theorem opposite (p : Param ℝ) : p.neg.KeptBy (.mul (.const (-1)) p) := by
  refine ⟨Bool.false_or _, fun b v hv => ?_⟩
  obtain ⟨x, hx, rfl⟩ := evaluate_neg_eq_ok.mp hv
  exact evaluate_mul_eq_ok.mpr ⟨-1, x, rfl, hx, neg_one_mul x⟩

theorem difference (p q : Param ℝ) : (p.sub q).KeptBy (p.add (.mul (.const (-1)) q)) := by
  refine ⟨rfl, fun b v hv => ?_⟩
  obtain ⟨x, y, hx, hy, rfl⟩ := evaluate_sub_eq_ok.mp hv
  refine evaluate_add_eq_ok.mpr ⟨x, -1 * y, hx, evaluate_mul_eq_ok.mpr ⟨-1, y, rfl, hy, rfl⟩, ?_⟩
  ring

theorem quotient (p q : Param ℝ) : (p.div q).KeptBy (p.mul (.div (.const 1) q)) := by
  refine ⟨rfl, fun b v hv => ?_⟩
  obtain ⟨x, y, hx, hy, hne, rfl⟩ := evaluate_div_eq_ok.mp hv
  refine evaluate_mul_eq_ok.mpr
    ⟨x, 1 / y, hx, evaluate_div_eq_ok.mpr ⟨1, y, rfl, hy, hne, rfl⟩, ?_⟩
  ring

theorem halfTurns (p : Param ℝ) : p.KeptBy (.mul .pi (.div p .pi)) := by
  refine ⟨by simp [isSymbolic], fun b v hv => ?_⟩
  have hne : (Real.pi == 0) = false := beq_zero Real.pi_ne_zero
  have hdiv : (p.div .pi).evaluate b = .ok (v / Real.pi) :=
    evaluate_div_eq_ok.mpr ⟨v, Real.pi, hv, rfl, hne, rfl⟩
  exact evaluate_mul_eq_ok.mpr ⟨Real.pi, _, rfl, hdiv, mul_div_cancel₀ v Real.pi_ne_zero⟩

theorem value?_eq (h : p.KeptBy q) {v : ℝ} (hv : p.value? = some v) : q.value? = some v :=
  value?_of_evaluate (h.value {} v (evaluate_of_value? hv {}))

theorem isAdmissible (h : p.KeptBy q) (hp : p.isAdmissible = true) : q.isAdmissible = true :=
  isAdmissible_of_map (f := id) h.symbolic (fun _ => h.value?_eq) (fun _ => id) hp

theorem forall₂_evaluate {ps qs : List (Param ℝ)} (h : List.Forall₂ KeptBy ps qs) {b : Bindings ℝ}
    {values : List ℝ} (hv : List.Forall₂ (fun p v => p.evaluate b = .ok v) ps values) :
    List.Forall₂ (fun q v => q.evaluate b = .ok v) qs values := by
  induction h generalizing values with
  | nil =>
    rw [List.forall₂_nil_left_iff] at hv ⊢
    exact hv
  | cons hp _ ih =>
    obtain ⟨v, rest, hfirst, hrest, rfl⟩ := List.forall₂_cons_left_iff.mp hv
    exact .cons (hp.value b v hfirst) (ih hrest)

end KeptBy

end Param

namespace Cirq

/-- Whatever names are registered, an expression is read as a parameter with the property. -/
def Expression.Reads (e : Expression ℝ) (P : Param ℝ → Prop) : Prop :=
  ∀ r, ∃ r' q, e.toParam r = .ok (r', q) ∧ P q

theorem Expression.toParams_pair {e e' : Expression ℝ} {q q' : Param ℝ} {r r₁ r₂ : Registry}
    (h : e.toParam r = .ok (r₁, q)) (h' : e'.toParam r₁ = .ok (r₂, q')) :
    toParams r [e, e'] = .ok (r₂, [q, q']) := by
  have htail : toParams r₁ [e'] = .ok (r₂, [q']) := by
    rw [toParams, h']
    rfl
  rw [toParams, h]
  change (toParams r₁ [e'] >>= _) = _
  rw [htail]
  rfl

namespace Expression.Reads

variable {e e' : Expression ℝ} {p p' : Param ℝ}

theorem number {P : Param ℝ → Prop} {x : ℝ} (h : P (.const x)) : (Expression.number x).Reads P :=
  fun r => ⟨r, _, rfl, h⟩

theorem of_keptBy (h : e.Reads p'.KeptBy) (hp : p.KeptBy p') : e.Reads p.KeptBy := by
  intro r
  obtain ⟨r', q, hq, hkept⟩ := h r
  exact ⟨r', q, hq, hp.trans hkept⟩

theorem add (h : e.Reads p.KeptBy) (h' : e'.Reads p'.KeptBy) :
    (Expression.add [e, e']).Reads (p.add p').KeptBy := by
  intro r
  obtain ⟨r₁, q, hq, hkept⟩ := h r
  obtain ⟨r₂, q', hq', hkept'⟩ := h' r₁
  refine ⟨r₂, (q + q').simplify, ?_, (hkept.add hkept').simplify.simplify⟩
  rw [toParam, toParams_pair hq hq']
  rfl

theorem mul (h : e.Reads p.KeptBy) (h' : e'.Reads p'.KeptBy) :
    (Expression.mul [e, e']).Reads (p.mul p').KeptBy := by
  intro r
  obtain ⟨r₁, q, hq, hkept⟩ := h r
  obtain ⟨r₂, q', hq', hkept'⟩ := h' r₁
  refine ⟨r₂, (q * q').simplify, ?_, (hkept.mul hkept').simplify.simplify⟩
  rw [toParam, toParams_pair hq hq']
  rfl

theorem opposite (h : e.Reads p.KeptBy) :
    (Expression.mul [.number (-1), e]).Reads (Param.mul (.const (-1)) p).KeptBy :=
  mul (number (.refl _)) h

/-- The power by minus one is the reciprocal, also where it is computed. -/
theorem reciprocal (h : e.Reads p.KeptBy) :
    (Expression.pow [e, .number (-1)]).Reads (Param.div (.const 1) p).KeptBy := by
  intro r
  obtain ⟨r₁, q, hq, hkept⟩ := h r
  suffices hpower : ∃ s, power q (.const (-1)) = .ok s ∧ (Param.div (.const 1) p).KeptBy s by
    obtain ⟨s, hs, hkept⟩ := hpower
    refine ⟨r₁, s.simplify, ?_, hkept.simplify⟩
    rw [toParam, toParams_pair hq rfl]
    change (power q (.const (-1)) >>= _) = _
    rw [hs]
    rfl
  unfold power
  cases hv : q.value? with
  | none =>
    exact ⟨_, if_pos ((Scalar.beq_iff _ _).mpr rfl), ((Param.KeptBy.refl _).div hkept).simplify⟩
  | some x =>
    refine ⟨_, rfl, ?_, fun b v hdiv => ?_⟩
    · change false = (false || p.isSymbolic)
      rw [← hkept.symbolic, Param.isSymbolic_eq_false_of_value? hv]
      rfl
    · obtain ⟨one, y, hone, hy, -, rfl⟩ := Param.evaluate_div_eq_ok.mp hdiv
      obtain rfl : 1 = one := Except.ok.inj hone
      have hx := hkept.value b y hy
      rw [Param.evaluate_of_value? hv, Except.ok.injEq] at hx
      change Except.ok (x ^ (-1 : ℝ)) = _
      rw [Real.rpow_neg_one, hx, one_div]

end Expression.Reads

/-- What is written for a parameter is read as one with its values. -/
theorem Expression.reads_ofParam (p : Param ℝ) : (ofParam p).Reads p.KeptBy := by
  have hfold {p : Param ℝ} {e : Expression ℝ} (heq : p.value? = none → ofParam p = e)
      (he : e.Reads p.KeptBy) : (ofParam p).Reads p.KeptBy := by
    cases hv : p.value? with
    | some x =>
      rw [ofParam_of_value? hv]
      exact .number (.of_value? hv)
    | none =>
      rw [heq hv]
      exact he
  induction p with
  | const | pi => exact .number (.of_value? rfl)
  | ref x =>
    intro r
    obtain ⟨-, hname⟩ := r.contains_register x.name
    refine ⟨_, .ref (r.register x.name).2, rfl, rfl, fun b v hv => ?_⟩
    rwa [Param.evaluate, hname]
  | neg a iha => exact hfold (fun hv => by rw [ofParam, hv]) (iha.opposite.of_keptBy (.opposite a))
  | add a c iha ihc => exact hfold (fun hv => by rw [ofParam, hv]) (iha.add ihc)
  | sub a c iha ihc =>
    exact hfold (fun hv => by rw [ofParam, hv]) ((iha.add ihc.opposite).of_keptBy (.difference a c))
  | mul a c iha ihc => exact hfold (fun hv => by rw [ofParam, hv]) (iha.mul ihc)
  | div a c iha ihc =>
    exact hfold (fun hv => by rw [ofParam, hv]) ((iha.mul ihc.reciprocal).of_keptBy (.quotient a c))

namespace Expression

section Symbols

variable {F : Type}

mutual

def symbols : Expression F → List String
  | symbol name => [name]
  | add args | mul args | pow args => symbolsAll args
  | number _ | float _ | integer _ | rational _ _ | pi => []

def symbolsAll : List (Expression F) → List String
  | [] => []
  | e :: es => e.symbols ++ symbolsAll es

end

variable [Scalar F]

mutual

/-- An expression that is read has its symbols registered, from left to right. -/
theorem registry_toParam (r : Registry) (e : Expression F) :
    Returns (e.toParam r) fun x => x.1 = r.registerAll e.symbols := by
  cases e with
  | number | float | integer | pi =>
    rw [toParam, symbols]
    exact .ok rfl
  | symbol name =>
    rw [toParam, symbols]
    exact .ok rfl
  | rational m n =>
    rw [toParam, symbols]
    split_ifs
    · exact .error _ _
    · exact .ok rfl
  | add args | mul args =>
    rw [toParam, symbols]
    exact (registry_toParams r args).bind fun x hx => .ok hx
  | pow args =>
    rw [toParam, symbols]
    split_ifs
    · exact .error _ _
    refine (registry_toParams r args).bind fun x hx => ?_
    split
    next => exact .andThen fun _ => .ok hx
    next => exact .error _ _

theorem registry_toParams (r : Registry) (es : List (Expression F)) :
    Returns (toParams r es) fun x => x.1 = r.registerAll (symbolsAll es) := by
  cases es with
  | nil =>
    rw [toParams, symbolsAll]
    exact .ok rfl
  | cons e es =>
    rw [toParams, symbolsAll, Registry.registerAll_append]
    refine (registry_toParam r e).bind fun x hx => ?_
    exact (registry_toParams x.1 es).bind fun y hy => .ok (hx ▸ hy)

end

theorem symbols_ofParam (p : Param F) : (ofParam p).symbols = p.names := by
  -- a part that has a value is written as a number and mentions nothing
  have hfold {p : Param F} {e : Expression F} (heq : p.value? = none → ofParam p = e)
      (he : e.symbols = p.names) : (ofParam p).symbols = p.names := by
    cases hv : p.value? with
    | some v => rw [ofParam_of_value? hv, Param.names_of_value? hv, symbols]
    | none => rw [heq hv, he]
  induction p with
  | const | pi | ref => rfl
  | neg a iha =>
    refine hfold (fun hv => by rw [ofParam, hv]) ?_
    simp [symbols, symbolsAll, iha, Param.names]
  | add a c iha ihc | sub a c iha ihc | mul a c iha ihc | div a c iha ihc =>
    refine hfold (fun hv => by rw [ofParam, hv]) ?_
    simp [symbols, symbolsAll, iha, ihc, Param.names]

end Symbols

/-- What is written for a parameter with a value, of numbers taken as exact, is read from an empty
registry as a parameter with that value. The names that are registered are those of the parameter's
references, in the order in which they are listed. -/
theorem toParam_ofParam_evaluates (p : Param ℝ) (registry : Registry) (b : Bindings ℝ) (v : ℝ)
    (hregistry : registry.names.Nodup)
    (hp : p.RefsAll fun r => registry.contains r = true) (hv : p.evaluate b = .ok v) :
    ∃ r q, (ofParam p).toParam {} = .ok (r, q) ∧ q.evaluate b = .ok v ∧
      r.names = p.refs.map Handle.name := by
  obtain ⟨r, q, hq, hkept⟩ := reads_ofParam p {}
  refine ⟨r, q, hq, hkept.value b v hv, ?_⟩
  have hr : r = ({} : Registry).registerAll p.names := by
    rw [← symbols_ofParam p]
    exact registry_toParam {} _ _ hq
  rw [hr]
  obtain ⟨-, hnames⟩ := Param.map_name_collect
    (fun _ _ ha hb => Registry.id_eq_iff hregistry ha hb) hp
    (fun _ hs => absurd hs List.not_mem_nil)
  exact hnames.symm

/-- A difference that is negated and divided by a number, and a reciprocal. -/
def negatedShare : Param ℝ :=
  .add (.div (.neg (.sub (.ref ⟨1, "phi"⟩) (.ref ⟨0, "theta"⟩))) (.mul (.const Scalar.two) .pi))
    (.div (.const 1) (.ref ⟨1, "phi"⟩))

theorem toParam_ofParam_negatedShare :
    ∃ r q, (ofParam negatedShare).toParam {} = .ok (r, q) ∧
      q.evaluate ⟨[("theta", 0), ("phi", 1)]⟩ =
        .ok (-(1 - 0) / (Scalar.two * Real.pi) + 1 / 1) ∧
      r.names = ["phi", "theta"] := by
  have htau : (Scalar.two * Real.pi : ℝ) ≠ 0 := by
    rw [Scalar.two_real]
    exact mul_ne_zero two_ne_zero Real.pi_ne_zero
  have hvalue : negatedShare.evaluate ⟨[("theta", 0), ("phi", 1)]⟩ =
      .ok (-(1 - 0) / (Scalar.two * Real.pi) + 1 / 1) := by
    refine Param.evaluate_add_eq_ok.mpr ⟨_, _, Param.evaluate_div_eq_ok.mpr
      ⟨-(1 - 0), Scalar.two * Real.pi, rfl, rfl, Param.beq_zero htau, rfl⟩,
      Param.evaluate_div_eq_ok.mpr ⟨1, 1, rfl, rfl, Param.beq_zero one_ne_zero, rfl⟩, rfl⟩
  exact toParam_ofParam_evaluates negatedShare ⟨["theta", "phi"]⟩ _ _ (by decide)
    ⟨⟨⟨rfl, rfl⟩, trivial, trivial⟩, trivial, rfl⟩ hvalue

end Expression

end Cirq

namespace Gate

def IsConstructed {F : Type} [Scalar F] (g : Gate F) : Prop :=
  (∃ params, new g.tag params = .ok g) ∨ ∃ m, ofMatrix m = .ok g

theorem IsConstructed.exists_new {F : Type} [Scalar F] {g : Gate F} (h : g.IsConstructed)
    (hu : g.tag ≠ .unitary) : ∃ params, new g.tag params = .ok g := by
  refine h.resolve_right ?_
  rintro ⟨m, hm⟩
  exact hu (tag_of_ofMatrix hm)

section

variable {g g' : Gate ℝ} {params : List (Param ℝ)} {b : Bindings ℝ} {values : List ℝ}

theorem matrix_of_new {tag : Tag} (h : new tag params = .ok g) :
    g.matrix = g.numeric?.bind tag.matrix? := by
  obtain ⟨-, -, -, rfl⟩ := new_eq_ok_iff.mp h
  rfl

/-- Where binding leaves numbers only, the parameters have these values under the bindings. -/
theorem evaluate_of_substitute (hnew : new g.tag params = .ok g) (h : g.substitute b = .ok g')
    (hv : g'.numeric? = some values) : g'.tag = g.tag ∧ g'.matrix = g.tag.matrix? values ∧
      List.Forall₂ (fun p v => p.evaluate b = .ok v) g.params values := by
  cases hp : g.isParameterized with
  | false =>
    rw [substitute_of_not_parameterized hp] at h
    obtain rfl := Except.ok.inj h
    refine ⟨rfl, by rw [matrix_of_new hnew, hv]; rfl, ?_⟩
    exact (mapM_eq_some_iff.mp hv).imp fun p v hpv => Param.evaluate_of_value? hpv b
  | true =>
    rw [substitute, if_pos hp] at h
    refine ⟨tag_of_new h, by rw [matrix_of_new h, hv]; rfl, ?_⟩
    obtain ⟨-, -, -, rfl⟩ := new_eq_ok_iff.mp h
    have hvalues := mapM_eq_some_iff.mp hv
    rw [List.map_map, List.forall₂_map_left_iff] at hvalues
    refine hvalues.imp fun p v hpv => Param.value?_substitute_iff.mp ?_
    rwa [Function.comp_apply, Param.simplify_value? FiniteAngles.beq_one_of_beq_zero] at hpv

theorem exists_substitute (hnew : new g.tag params = .ok g)
    (h : List.Forall₂ (fun p v => p.evaluate b = .ok v) g.params values) :
    ∃ g', g.substitute b = .ok g' ∧ g'.tag = g.tag ∧ g'.numeric? = some values ∧
      g'.matrix = g.tag.matrix? values := by
  have hbuilt := isBuilt_of_new hnew
  have hvalues : values? (g.params.map (·.substitute b)) = some values := by
    rw [values?, mapM_eq_some_iff, List.forall₂_map_left_iff]
    exact h.imp fun p v => Param.value?_substitute_iff.mpr
  cases hp : g.isParameterized with
  | false =>
    have hfixed : ∀ p ∈ g.params, p.isSymbolic = false := by
      simpa [isParameterized] using hp
    have hnumeric : g.numeric? = some values := by
      refine mapM_eq_some_iff.mpr (((List.forall₂_and_left _ _).mpr ⟨hfixed, h⟩).imp ?_)
      rintro p v ⟨hp, hv⟩
      have hsame : (p.substitute b).value? = p.value? :=
        Param.value?_substitute (.of_not_symbolic hp)
      rw [← hsame]
      exact Param.value?_substitute_iff.mpr hv
    refine ⟨g, substitute_of_not_parameterized hp b, rfl, hnumeric, ?_⟩
    rw [matrix_of_new hnew, hnumeric]
    rfl
  | true =>
    obtain ⟨g', hg', htag, hg⟩ := exists_new_of_values hbuilt.tag_ne
      (by rw [List.length_map, hbuilt.length_params]) hvalues fun _ _ => rfl
    refine ⟨g', ?_, htag, hg.params, htag ▸ hg.matrix⟩
    rw [substitute, if_pos hp]
    exact hg'

end

end Gate

end Interchange
end
