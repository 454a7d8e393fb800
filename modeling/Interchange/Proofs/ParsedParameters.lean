import Interchange.Proofs.ParameterNames

namespace Interchange.Param
open Token

section Parser

variable {F : Type} [Scalar F] {R : Handle → Prop} {handle : String → Handle}

/-- The parameters that the names among tokens stand for have the property. -/
def NamesAll (R : Handle → Prop) (handle : String → Handle) (ts : List Token) : Prop :=
  ∀ text, .name text ∈ ts → isPi text = false → R (handle text)

theorem NamesAll.mono {ts us : List Token} (h : NamesAll R handle ts) (hsuffix : us <:+ ts) :
    NamesAll R handle us := fun text ht => h text (hsuffix.subset ht)

theorem NamesAll.tail {t : Token} {ts : List Token} (h : NamesAll R handle (t :: ts)) :
    NamesAll R handle ts := h.mono (List.suffix_cons t ts)

/-- Whatever is read has parameters with the property, and the last tokens are left. -/
def Draws (R : Handle → Prop) (ts : List Token) {n : ℕ} (x : Attempt (Param F) n) : Prop :=
  Returns x fun r => r.value.RefsAll R ∧ r.rest <:+ ts

mutual

theorem draws_sum (ts : List Token) (h : NamesAll R handle ts) :
    Draws (F := F) R ts (parseSum handle ts) := by
  rw [parseSum]
  refine (draws_product ts h).bind fun first hfirst => ?_
  have := first.rest_lt
  exact (draws_sumTail hfirst.1 first.rest (h.mono hfirst.2)).bind fun all hall =>
    .ok ⟨hall.1, hall.2.trans hfirst.2⟩
termination_by (ts.length, 4)

theorem draws_sumTail {left : Param F} (hleft : left.RefsAll R) (ts : List Token)
    (h : NamesAll R handle ts) : Draws R ts (parseSumTail handle left ts) := by
  rw [parseSumTail.eq_def]
  split
  case h_1 rest =>
    refine (draws_product rest h.tail).bind fun right hright => ?_
    have := right.rest_lt
    have hboth : (Param.add left right.value).RefsAll R := ⟨hleft, hright.1⟩
    exact (draws_sumTail hboth right.rest (h.tail.mono hright.2)).bind fun all hall =>
      .ok ⟨hall.1, (hall.2.trans hright.2).trans (List.suffix_cons _ rest)⟩
  case h_2 rest =>
    refine (draws_product rest h.tail).bind fun right hright => ?_
    have := right.rest_lt
    have hboth : (Param.sub left right.value).RefsAll R := ⟨hleft, hright.1⟩
    exact (draws_sumTail hboth right.rest (h.tail.mono hright.2)).bind fun all hall =>
      .ok ⟨hall.1, (hall.2.trans hright.2).trans (List.suffix_cons _ rest)⟩
  case h_3 => exact .ok ⟨hleft, List.suffix_rfl⟩
termination_by (ts.length, 0)
decreasing_by all_goals (subst_vars; decreasing_tactic)

theorem draws_product (ts : List Token) (h : NamesAll R handle ts) :
    Draws (F := F) R ts (parseProduct handle ts) := by
  rw [parseProduct]
  refine (draws_unary ts h).bind fun first hfirst => ?_
  have := first.rest_lt
  exact (draws_productTail hfirst.1 first.rest (h.mono hfirst.2)).bind fun all hall =>
    .ok ⟨hall.1, hall.2.trans hfirst.2⟩
termination_by (ts.length, 3)

theorem draws_productTail {left : Param F} (hleft : left.RefsAll R) (ts : List Token)
    (h : NamesAll R handle ts) : Draws R ts (parseProductTail handle left ts) := by
  rw [parseProductTail.eq_def]
  split
  case h_1 rest =>
    refine (draws_unary rest h.tail).bind fun right hright => ?_
    have := right.rest_lt
    have hboth : (Param.mul left right.value).RefsAll R := ⟨hleft, hright.1⟩
    exact (draws_productTail hboth right.rest (h.tail.mono hright.2)).bind fun all hall =>
      .ok ⟨hall.1, (hall.2.trans hright.2).trans (List.suffix_cons _ rest)⟩
  case h_2 rest =>
    refine (draws_unary rest h.tail).bind fun right hright => ?_
    have := right.rest_lt
    have hboth : (Param.div left right.value).RefsAll R := ⟨hleft, hright.1⟩
    exact (draws_productTail hboth right.rest (h.tail.mono hright.2)).bind fun all hall =>
      .ok ⟨hall.1, (hall.2.trans hright.2).trans (List.suffix_cons _ rest)⟩
  case h_3 => exact .ok ⟨hleft, List.suffix_rfl⟩
termination_by (ts.length, 0)
decreasing_by all_goals (subst_vars; decreasing_tactic)

theorem draws_unary (ts : List Token) (h : NamesAll R handle ts) :
    Draws (F := F) R ts (parseUnary handle ts) := by
  rw [parseUnary.eq_def]
  split
  case h_1 rest | h_2 rest =>
    exact (draws_unary rest h.tail).bind fun inner hinner =>
      .ok ⟨hinner.1, hinner.2.trans (List.suffix_cons _ rest)⟩
  case h_3 => exact draws_atom ts h
termination_by (ts.length, 2)
decreasing_by all_goals (subst_vars; decreasing_tactic)

theorem draws_atom (ts : List Token) (h : NamesAll R handle ts) :
    Draws (F := F) R ts (parseAtom handle ts) := by
  rw [parseAtom.eq_def]
  split
  next value rest => exact .ok ⟨trivial, List.suffix_cons _ rest⟩
  next text rest =>
    refine .ok ⟨?_, List.suffix_cons _ rest⟩
    change RefsAll R (if isPi text then .pi else .ref (handle text))
    split_ifs with hpi
    · trivial
    · exact h text List.mem_cons_self (Bool.eq_false_iff.mpr hpi)
  next rest =>
    refine (draws_sum rest h.tail).bind fun inner hinner => ?_
    split
    next after hafter =>
      have hsuffix : after <:+ inner.rest := hafter ▸ List.suffix_cons _ after
      exact .ok ⟨hinner.1, (hsuffix.trans hinner.2).trans (List.suffix_cons _ rest)⟩
    next => exact .error _ _
  next => exact .error _ _
  next => exact .error _ _
termination_by (ts.length, 1)
decreasing_by all_goals (subst_vars; decreasing_tactic)

end

end Parser

theorem contains_handleIn {registry : Registry} {name : String} (h : name ∈ registry.names) :
    registry.contains (handleIn registry name) = true ∧ (handleIn registry name).name = name := by
  obtain ⟨id, hid⟩ : ∃ id, registry.names.idxOf? name = some id := by
    rw [← Option.isSome_iff_exists, Option.isSome_iff_ne_none, Ne, List.idxOf?_eq_none_iff,
      not_not]
    exact h
  have hhandle : handleIn registry name = ⟨id, name⟩ := by
    rw [handleIn, Registry.lookup?, hid]
    rfl
  obtain ⟨hlt, hname, -⟩ := List.idxOf?_eq_some_iff.mp hid
  rw [hhandle, Registry.contains_iff]
  exact ⟨List.getElem?_eq_some_iff.mpr ⟨hlt, hname⟩, rfl⟩

/-- The parameters of an expression that is read are registered under names that can be read. -/
theorem refsAll_of_parse {F : Type} [Scalar F] {registry registry' : Registry} {text : String}
    {p : Param F} (h : parse registry text = (registry', .ok p)) :
    registry.Grows registry' ∧
      p.RefsAll fun r => registry'.contains r = true ∧ IsName r.name := by
  unfold parse at h
  split at h
  next => cases h
  next tokens hscan =>
    dsimp only at h
    split at h
    next => cases h
    next e hlt hsum =>
      obtain ⟨rfl, rfl⟩ : registry.registerAll (Token.names tokens) = registry' ∧
          e.simplify = p := by
        obtain ⟨hregistry, hp⟩ := Prod.mk.inj h
        exact ⟨hregistry, Except.ok.inj hp⟩
      have hnames : NamesAll
          (fun r => (registry.registerAll (Token.names tokens)).contains r = true ∧ IsName r.name)
          (handleIn (registry.registerAll (Token.names tokens))) tokens := by
        intro word hword hpi
        have hmem : word ∈ Token.names tokens :=
          List.mem_filterMap.mpr ⟨_, hword, by simp [hpi]⟩
        obtain ⟨hcontains, hname⟩ := contains_handleIn
          (Registry.mem_registerAll (r := registry).mpr (.inr hmem))
        refine ⟨hcontains, ?_⟩
        rw [hname]
        exact ⟨isIdentifier_iff.mpr (exists_nameText_of_mem_scan hscan hword), hpi⟩
      exact ⟨registry.grows_registerAll _,
        refsAll_simplify.mpr (draws_sum tokens hnames _ hsum).1⟩
    next => cases h

end Interchange.Param
