import Interchange.Circuit.Stats
import Interchange.Proofs.ExpressionText
import Interchange.Proofs.ParameterRegistry

namespace Interchange

variable {F : Type}

theorem Param.refsAll_iff {P : String → Prop} {p : Param F} :
    p.RefsAll (fun r => P r.name) ↔ ∀ name ∈ p.names, P name := by
  induction p with
  | const | pi => simp [names, RefsAll, All]
  | ref r =>
    rw [names, List.forall_mem_singleton]
    rfl
  | neg e ih => exact ih
  | add a b iha ihb | sub a b iha ihb | mul a b iha ihb | div a b iha ihb =>
    exact (and_congr iha ihb).trans List.forall_mem_append.symm

namespace Param

section Mentioned

variable {a b p : Param F}

theorem names_eq_nil_iff : p.names = [] ↔ p.isSymbolic = false := by
  rw [isSymbolic_eq_false_iff, List.eq_nil_iff_forall_not_mem]
  exact refsAll_iff.symm

theorem names_reduceNeg : (reduceNeg p).names = p.names := by cases p <;> rfl

variable [Scalar F]

theorem names_of_value? {v : F} (h : p.value? = some v) : p.names = [] :=
  names_eq_nil_iff.mpr (isSymbolic_eq_false_of_value? h)

theorem names_of_hasValue {v : F} (h : p.hasValue v = true) : p.names = [] := by
  obtain ⟨w, hw, -⟩ := exists_of_hasValue h
  exact names_of_value? hw

theorem names_reduceAdd : (reduceAdd a b).names = a.names ++ b.names := by
  unfold reduceAdd
  split_ifs with ha hb
  · rw [names_of_hasValue ha, List.nil_append]
  · rw [names_of_hasValue hb, List.append_nil]
  · rfl

theorem names_reduceSub : (reduceSub a b).names = a.names ++ b.names := by
  unfold reduceSub
  split_ifs with ha hb
  · rw [names_of_hasValue ha, List.nil_append, names]
  · rw [names_of_hasValue hb, List.append_nil]
  · rfl

theorem names_reduceMul : (reduceMul a b).names = a.names ++ b.names := by
  unfold reduceMul
  split_ifs with ha hb hc
  · rw [names_of_hasValue ha, List.nil_append]
  · rw [names_of_hasValue hb, List.append_nil]
  · rw [names_of_hasValue hc, List.nil_append, names]
  · rfl

theorem names_reduceDiv : (reduceDiv a b).names = a.names ++ b.names := by
  unfold reduceDiv
  split_ifs with hb
  · rw [names_of_hasValue hb, List.append_nil]
  · rfl

theorem names_folded {q : Param F} (h : q.names = p.names) :
    (p.value?.elim q const).names = p.names := by
  cases hv : p.value? with
  | some v => exact (names_of_value? hv).symm
  | none => exact h

/-- Simplification leaves every name where it stands. -/
theorem names_simplify (p : Param F) : p.simplify.names = p.names := by
  induction p with
  | const | pi | ref => rfl
  | neg e ih => exact names_folded (names_reduceNeg.trans ih)
  | add a b iha ihb => exact names_folded (names_reduceAdd.trans (congrArg₂ _ iha ihb))
  | sub a b iha ihb => exact names_folded (names_reduceSub.trans (congrArg₂ _ iha ihb))
  | mul a b iha ihb => exact names_folded (names_reduceMul.trans (congrArg₂ _ iha ihb))
  | div a b iha ihb => exact names_folded (names_reduceDiv.trans (congrArg₂ _ iha ihb))

/-- Substitution takes out the names that have a value and leaves the others where they stand. -/
theorem names_substitute (bindings : Bindings F) (p : Param F) :
    (p.substitute bindings).names =
      p.names.filter fun name => (bindings.get? name).isNone := by
  induction p with
  | const | pi => rfl
  | ref r =>
    rw [substitute, names]
    cases hr : bindings.get? r.name with
    | none => simp [names, hr]
    | some v => simp [names, hr]
  | neg e ih =>
    rw [substitute, names_simplify]
    exact ih
  | add a b iha ihb | sub a b iha ihb | mul a b iha ihb | div a b iha ihb =>
    rw [substitute, names_simplify, names, iha, ihb, names, List.filter_append]

omit [Scalar F] in
theorem head?_collect (p : Param F) (seen : List Handle) :
    (p.collect seen).head?.map Handle.name =
      (seen.head?.map Handle.name).or p.names.head? := by
  induction p generalizing seen with
  | const | pi => exact (Option.or_none).symm
  | ref r =>
    rw [collect]
    cases seen with
    | nil => rfl
    | cons s seen => split_ifs <;> rfl
  | neg e ih => exact ih seen
  | add a b iha ihb | sub a b iha ihb | mul a b iha ihb | div a b iha ihb =>
    rw [collect, ihb, iha, names, List.head?_append, Option.or_assoc]

end Mentioned

end Param

section Names

variable {R : Handle → Prop} (hR : ∀ a b, R a → R b → (a.id = b.id ↔ a.name = b.name))

include hR

/-- A parameter that is listed unless its number is has its name registered. -/
theorem map_name_listed {r : Handle} {seen : List Handle} (hr : R r) (hseen : ∀ s ∈ seen, R s) :
    (if seen.any (·.id == r.id) then seen else seen ++ [r]).map Handle.name =
      ((⟨seen.map Handle.name⟩ : Registry).register r.name).1.names := by
  have hiff : seen.any (·.id == r.id) = true ↔ r.name ∈ seen.map Handle.name := by
    rw [List.any_eq_true, List.mem_map]
    refine exists_congr fun s => and_congr_right fun hs => ?_
    rw [beq_iff_eq, hR s r (hseen s hs) hr]
  rw [Registry.names_register]
  simp only [hiff]
  split_ifs
  · rfl
  · exact List.map_append

omit hR in
theorem forall_mem_listed {r : Handle} {seen : List Handle} (hr : R r) (hseen : ∀ s ∈ seen, R s) :
    ∀ s ∈ (if seen.any (·.id == r.id) then seen else seen ++ [r]), R s := by
  split_ifs
  · exact hseen
  · exact List.forall_mem_append.mpr ⟨hseen, List.forall_mem_singleton.mpr hr⟩

theorem Param.map_name_collect {p : Param F} (hp : p.RefsAll R) {seen : List Handle}
    (hseen : ∀ s ∈ seen, R s) :
    (∀ s ∈ p.collect seen, R s) ∧ (p.collect seen).map Handle.name =
      ((⟨seen.map Handle.name⟩ : Registry).registerAll p.names).names := by
  induction p generalizing seen with
  | const | pi => exact ⟨hseen, rfl⟩
  | ref r => exact ⟨forall_mem_listed hp hseen, map_name_listed hR hp hseen⟩
  | neg e ih => exact ih hp hseen
  | add a b iha ihb | sub a b iha ihb | mul a b iha ihb | div a b iha ihb =>
    obtain ⟨ha, hnames⟩ := iha hp.1 hseen
    obtain ⟨hb, hnames'⟩ := ihb hp.2 ha
    refine ⟨hb, hnames'.trans ?_⟩
    rw [hnames, names, Registry.registerAll_append]

theorem map_name_foldl {l seen : List Handle} (hl : ∀ r ∈ l, R r) (hseen : ∀ s ∈ seen, R s) :
    (l.foldl (fun seen r => if seen.any (·.id == r.id) then seen else seen ++ [r]) seen).map
        Handle.name =
      ((⟨seen.map Handle.name⟩ : Registry).registerAll (l.map Handle.name)).names := by
  induction l generalizing seen with
  | nil => rfl
  | cons r l ih =>
    obtain ⟨hr, hl⟩ := List.forall_mem_cons.mp hl
    rw [List.foldl_cons, ih hl (forall_mem_listed hr hseen), map_name_listed hR hr hseen]
    rfl

end Names

namespace Gate

theorem head?_refs (g : Gate F) :
    g.refs.head?.map Handle.name = (g.params.flatMap Param.names).head? := by
  rw [refs, List.head?_flatMap, List.head?_flatMap, List.map_findSome?]
  exact congrArg₂ _ (funext fun p => (p.head?_collect []).trans (Option.none_or)) rfl

theorem isParameterized_iff {g : Gate F} :
    g.isParameterized = true ↔ g.params.flatMap Param.names ≠ [] := by
  rw [isParameterized, List.any_eq_true, ne_eq, List.flatMap_eq_nil_iff, not_forall]
  refine exists_congr fun p => ?_
  rw [Classical.not_imp, Param.names_eq_nil_iff, Bool.not_eq_false]

end Gate

namespace Circuit

def params (c : Circuit F) : List (Param F) := c.instructions.flatMap (·.gate.params)

/-- The free parameters of a circuit have the names that occur in it, each once. -/
theorem map_name_freeParameters {R : Handle → Prop}
    (hR : ∀ a b, R a → R b → (a.id = b.id ↔ a.name = b.name)) {c : Circuit F}
    (hc : ∀ p ∈ c.params, p.RefsAll R) :
    c.freeParameters.map Handle.name = (Registry.ofNames (c.params.flatMap Param.names)).names := by
  have hrefs : c.instructions.flatMap (·.gate.refs) = c.params.flatMap Param.refs := by
    rw [params, List.flatMap_assoc]
    rfl
  have hcollect : ∀ p ∈ c.params, (∀ s ∈ p.refs, R s) ∧
      p.refs.map Handle.name = (Registry.ofNames p.names).names :=
    fun p hp => Param.map_name_collect hR (hc p hp) (by simp)
  have hnames : (c.params.flatMap Param.refs).map Handle.name =
      c.params.flatMap fun p => (Registry.ofNames p.names).names := by
    rw [List.map_flatMap]
    exact List.flatMap_congr fun p hp => (hcollect p hp).2
  have hall : ∀ r ∈ c.params.flatMap Param.refs, R r := by
    intro r hr
    obtain ⟨p, hp, hr⟩ := List.mem_flatMap.mp hr
    exact (hcollect p hp).1 r hr
  rw [freeParameters, hrefs, map_name_foldl hR hall (by simp), hnames]
  exact congrArg Registry.names (Registry.registerAll_flatMap {} _ _)

end Circuit

end Interchange
