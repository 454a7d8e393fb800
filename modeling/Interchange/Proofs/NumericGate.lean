import Interchange.Proofs.Construction
import Interchange.Proofs.ParamValue
import Interchange.Scalar.Double

namespace Interchange

namespace Param

theorem map₂_eq_none_iff {α : Type} {x y : Option α} {f : α → α → α} :
    (do return f (← x) (← y)) = none ↔ x = none ∨ y = none := by
  cases x <;> cases y <;> simp

variable {F : Type} [Scalar F] {a b e : Param F}

theorem exists_of_hasValue {v : F} (h : e.hasValue v = true) :
    ∃ w, e.value? = some w ∧ (w == v) = true := by
  rwa [hasValue, Option.any_eq_true] at h

theorem value?_ne_none_of_hasValue {v : F} (h : e.hasValue v = true) : e.value? ≠ none := by
  obtain ⟨w, hw, -⟩ := exists_of_hasValue h
  rw [hw]
  exact Option.some_ne_none w

theorem value?_reduceNeg (h : (neg e).value? = none) : (reduceNeg e).value? = none := by
  cases e with
  | neg inner => simpa only [reduceNeg, value?, Option.map_eq_none_iff] using h
  | _ => exact h

theorem value?_reduceAdd (h : (add a b).value? = none) : (reduceAdd a b).value? = none := by
  unfold reduceAdd
  split_ifs with ha hb
  · exact (map₂_eq_none_iff.mp h).resolve_left (value?_ne_none_of_hasValue ha)
  · exact (map₂_eq_none_iff.mp h).resolve_right (value?_ne_none_of_hasValue hb)
  · exact h

theorem value?_reduceSub (h : (sub a b).value? = none) : (reduceSub a b).value? = none := by
  unfold reduceSub
  split_ifs with ha hb
  · have hb := (map₂_eq_none_iff.mp h).resolve_left (value?_ne_none_of_hasValue ha)
    exact Option.map_eq_none_iff.mpr hb
  · exact (map₂_eq_none_iff.mp h).resolve_right (value?_ne_none_of_hasValue hb)
  · exact h

theorem value?_reduceMul (h : (mul a b).value? = none) : (reduceMul a b).value? = none := by
  unfold reduceMul
  split_ifs with ha hb hc
  · exact (map₂_eq_none_iff.mp h).resolve_left (value?_ne_none_of_hasValue ha)
  · exact (map₂_eq_none_iff.mp h).resolve_right (value?_ne_none_of_hasValue hb)
  · have hb := (map₂_eq_none_iff.mp h).resolve_left (value?_ne_none_of_hasValue hc)
    exact Option.map_eq_none_iff.mpr hb
  · exact h

/-- A division by zero has no value, and a divisor that equals 1 is not zero. -/
theorem value?_reduceDiv (hsep : ∀ w : F, (w == 0) = true → (w == 1) = false)
    (h : (div a b).value? = none) : (reduceDiv a b).value? = none := by
  unfold reduceDiv
  split_ifs with hb
  · obtain ⟨w, hw, hone⟩ := exists_of_hasValue hb
    have hzero : (w == 0) = false := by
      by_contra hz
      rw [hsep w (by simpa using hz)] at hone
      cases hone
    cases ha : a.value? with
    | none => rfl
    | some u => simp [value?, hw, hzero, ha] at h
  · exact h

/-- Simplification keeps the value, and what has none gets none. -/
theorem simplify_value? (hsep : ∀ w : F, (w == 0) = true → (w == 1) = false) (p : Param F) :
    p.simplify.value? = p.value? := by
  induction p with
  | const | pi | ref => rfl
  | neg e ih =>
    cases hv : (neg e).value? with
    | some v => exact value?_simplify hv
    | none =>
      rw [simplify, hv]
      exact value?_reduceNeg (by rw [value?, ih]; exact hv)
  | add a b iha ihb =>
    cases hv : (add a b).value? with
    | some v => exact value?_simplify hv
    | none =>
      rw [simplify, hv]
      exact value?_reduceAdd (by rw [value?, iha, ihb]; exact hv)
  | sub a b iha ihb =>
    cases hv : (sub a b).value? with
    | some v => exact value?_simplify hv
    | none =>
      rw [simplify, hv]
      exact value?_reduceSub (by rw [value?, iha, ihb]; exact hv)
  | mul a b iha ihb =>
    cases hv : (mul a b).value? with
    | some v => exact value?_simplify hv
    | none =>
      rw [simplify, hv]
      exact value?_reduceMul (by rw [value?, iha, ihb]; exact hv)
  | div a b iha ihb =>
    cases hv : (div a b).value? with
    | some v => exact value?_simplify hv
    | none =>
      rw [simplify, hv]
      exact value?_reduceDiv hsep (by rw [value?, iha, ihb]; exact hv)

theorem simplify_of_value? {p : Param F} {v : F} (h : p.value? = some v) :
    p.simplify = const v ∨ p.simplify = pi := by
  cases p with
  | const => exact .inl (congrArg const (Option.some.inj h))
  | pi => exact .inr rfl
  | ref => cases h
  | neg | add | sub | mul | div =>
    rw [simplify, h]
    exact .inl rfl

end Param

theorem Number.beq_one_of_beq_zero (w : Float) (h : (w == 0) = true) : (w == 1) = false := by
  have hzero : (0.0 : Float).toModel.unpack = .zero .positive := rfl
  have hone : ∃ m e hm, (1.0 : Float).toModel.unpack = .finite .positive m e hm :=
    ⟨2 ^ 52, -52, by decide, rfl⟩
  obtain ⟨m, e, hm, hone⟩ := hone
  change w.toModel.unpack.beq (Float.toModel 0.0).unpack = true at h
  change w.toModel.unpack.beq (Float.toModel 1.0).unpack = false
  rw [hzero] at h
  rw [hone]
  -- what equals zero is a zero, of either sign, and no zero equals a number with a mantissa
  generalize w.toModel.unpack = u at h ⊢
  cases u with
  | infinity s => cases s <;> cases h
  | notANumber => rfl
  | zero s => rfl
  | finite s => cases s <;> cases h

namespace Gate

variable {F : Type} [Scalar F]

theorem values?_simplify {params : List (Param F)} {values : List F}
    (h : values? params = some values) : values? (params.map Param.simplify) = some values := by
  rw [values?, mapM_eq_some_iff, List.forall₂_map_left_iff]
  exact (mapM_eq_some_iff.mp h).imp fun _ _ => Param.value?_simplify

/-- The tag and the parameters are those of a gate that was built from a tag. -/
def IsBuilt (g : Gate F) : Prop := ∃ params g', new g.tag params = .ok g' ∧ g.params = g'.params

theorem isBuilt_of_new {tag : Tag} {params : List (Param F)} {g : Gate F}
    (h : new tag params = .ok g) : g.IsBuilt :=
  ⟨params, g, by rwa [tag_of_new h], rfl⟩

theorem IsBuilt.tag_ne {g : Gate F} (h : g.IsBuilt) : g.tag ≠ .unitary := by
  obtain ⟨_, _, hnew, -⟩ := h
  exact (new_eq_ok_iff.mp hnew).1

theorem IsBuilt.length_params {g : Gate F} (h : g.IsBuilt) :
    g.params.length = g.tag.paramCount := by
  obtain ⟨params, _, hnew, hparams⟩ := h
  obtain ⟨-, hlength, -, rfl⟩ := new_eq_ok_iff.mp hnew
  rw [hparams, List.length_map, hlength]

theorem IsBuilt.exists_finite_of_not_symbolic {g : Gate F} (h : g.IsBuilt) {p : Param F}
    (hp : p ∈ g.params) (hsymbolic : p.isSymbolic = false) :
    ∃ v, p.value? = some v ∧ Scalar.isFinite v = true := by
  obtain ⟨params, _, hnew, hparams⟩ := h
  obtain ⟨-, -, hadmissible, rfl⟩ := new_eq_ok_iff.mp hnew
  rw [hparams] at hp
  have hfinite := hadmissible p hp
  rwa [Param.isAdmissible, hsymbolic, Bool.false_or, Option.any_eq_true] at hfinite

theorem IsBuilt.exists_finite {g : Gate F} (h : g.IsBuilt) (hn : g.isParameterized = false)
    {p : Param F} (hp : p ∈ g.params) : ∃ v, p.value? = some v ∧ Scalar.isFinite v = true :=
  h.exists_finite_of_not_symbolic hp (by simpa using List.any_eq_false.mp hn p hp)

theorem IsBuilt.exists_numeric {g : Gate F} (h : g.IsBuilt) (hn : g.isParameterized = false) :
    ∃ values, g.numeric? = some values ∧ values.length = g.tag.paramCount ∧
      ∀ v ∈ values, Scalar.isFinite v = true := by
  have hvalue (p : Param F) (hp : p ∈ g.params) : p.value? = some (p.value?.getD 0) ∧
      Scalar.isFinite (p.value?.getD 0) = true := by
    obtain ⟨v, hv, hfinite⟩ := h.exists_finite hn hp
    rw [hv]
    exact ⟨rfl, hfinite⟩
  refine ⟨g.params.map fun p => p.value?.getD 0, ?_, ?_, ?_⟩
  · rw [numeric?, values?, mapM_eq_some_iff, List.forall₂_map_right_iff, List.forall₂_same]
    exact fun p hp => (hvalue p hp).1
  · rw [List.length_map, h.length_params]
  · exact List.forall_mem_map.mpr fun p hp => (hvalue p hp).2

/-- In doubles the parameters are numbers, or `π`. -/
theorem IsBuilt.exists_value {g : Gate Float} (h : g.IsBuilt) (hn : g.isParameterized = false)
    {p : Param Float} (hp : p ∈ g.params) :
    ∃ v, p.value? = some v ∧ Scalar.isFinite v = true ∧ (p = .const v ∨ p = .pi) := by
  obtain ⟨v, hv, hfinite⟩ := h.exists_finite hn hp
  obtain ⟨params, _, hnew, hparams⟩ := h
  obtain ⟨-, -, -, rfl⟩ := new_eq_ok_iff.mp hnew
  rw [hparams] at hp
  obtain ⟨p', -, rfl⟩ := List.mem_map.mp hp
  refine ⟨v, hv, hfinite, Param.simplify_of_value? ?_⟩
  rw [← hv, Param.simplify_value? Number.beq_one_of_beq_zero]

end Gate

end Interchange
