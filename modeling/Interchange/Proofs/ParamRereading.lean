import Interchange.Proofs.NormalParam
import Interchange.Proofs.ParamOutcome
import Interchange.Proofs.ShortestDecimal
import Interchange.Proofs.WrittenNames

noncomputable section
namespace Interchange

theorem SameOutcome.symm {F : Type} {x y : Except (CircuitError F) F} (h : SameOutcome x y) :
    SameOutcome y x := by
  cases h with
  | number v => exact .number v
  | unbound name => exact .unbound name
  | invalid p q => exact .invalid q p

namespace Param

variable {F G : Type} [Scalar F] [Scalar G]

def mapNumbers (f : F → G) : Param F → Param G
  | const v => const (f v)
  | pi => const (f Scalar.pi)
  | ref r => ref r
  | neg e => neg (e.mapNumbers f)
  | add a b => add (a.mapNumbers f) (b.mapNumbers f)
  | sub a b => sub (a.mapNumbers f) (b.mapNumbers f)
  | mul a b => mul (a.mapNumbers f) (b.mapNumbers f)
  | div a b => div (a.mapNumbers f) (b.mapNumbers f)

theorem sameOutcome_mapNumbers_id (p : Param F) (b : Bindings F) :
    SameOutcome ((p.mapNumbers id).evaluate b) (p.evaluate b) := by
  induction p with
  | const v => exact .number v
  | pi => exact .number Scalar.pi
  | ref r => exact .refl (.ref r) b
  | neg e ih => exact ih.neg
  | add x y ihx ihy => exact ihx.add ihy
  | sub x y ihx ihy => exact ihx.sub ihy
  | mul x y ihx ihy => exact ihx.mul ihy
  | div x y ihx ihy => exact ihx.div ihy

/-- Two expressions have the same value in an arithmetic, whatever the parameters are. -/
def SameIn (f : F → G) (p q : Param F) : Prop :=
  ∀ b : Bindings G, SameOutcome ((p.mapNumbers f).evaluate b) ((q.mapNumbers f).evaluate b)

theorem SameIn.trans {f : F → G} {p q r : Param F} (h : SameIn f p q) (h' : SameIn f q r) :
    SameIn f p r := fun b => (h b).trans (h' b)

theorem SameIn.symm {f : F → G} {p q : Param F} (h : SameIn f p q) : SameIn f q p :=
  fun b => (h b).symm

section Renaming

variable {rename : Handle → Handle}

theorem value?_mapRefs (p : Param F) : (p.mapRefs rename).value? = p.value? := by
  induction p with
  | const | pi | ref => rfl
  | neg e ih => rw [mapRefs, value?, value?, ih]
  | add a b iha ihb | sub a b iha ihb | mul a b iha ihb | div a b iha ihb =>
    rw [mapRefs, value?, value?, iha, ihb]

theorem hasValue_mapRefs (p : Param F) (v : F) : (p.mapRefs rename).hasValue v = p.hasValue v := by
  rw [hasValue, hasValue, value?_mapRefs]

theorem Folded.mapRefs {p : Param F} (h : p.Folded) : (p.mapRefs rename).Folded := by
  induction p with
  | const | pi | ref => trivial
  | neg e ih => exact ⟨(value?_mapRefs (neg e)).trans h.1, ih h.2⟩
  | add a b iha ihb =>
    obtain ⟨hvalue, ⟨hza, hzb⟩, ha, hb⟩ := h
    exact ⟨(value?_mapRefs (add a b)).trans hvalue, ⟨(hasValue_mapRefs a 0).trans hza,
      (hasValue_mapRefs b 0).trans hzb⟩, iha ha, ihb hb⟩
  | sub a b iha ihb =>
    obtain ⟨hvalue, ⟨hza, hzb⟩, ha, hb⟩ := h
    exact ⟨(value?_mapRefs (sub a b)).trans hvalue, ⟨(hasValue_mapRefs a 0).trans hza,
      (hasValue_mapRefs b 0).trans hzb⟩, iha ha, ihb hb⟩
  | mul a b iha ihb =>
    obtain ⟨hvalue, ⟨hone, hone', hminus⟩, ha, hb⟩ := h
    exact ⟨(value?_mapRefs (mul a b)).trans hvalue, ⟨(hasValue_mapRefs a 1).trans hone,
      (hasValue_mapRefs b 1).trans hone', (hasValue_mapRefs a (-1)).trans hminus⟩, iha ha, ihb hb⟩
  | div a b iha ihb =>
    obtain ⟨hvalue, hone, ha, hb⟩ := h
    exact ⟨(value?_mapRefs (div a b)).trans hvalue, (hasValue_mapRefs b 1).trans hone, iha ha,
      ihb hb⟩

/-- Parameters have their values by name. -/
theorem sameIn_mapRefs (f : F → G) (hname : ∀ r, (rename r).name = r.name) (p : Param F) :
    SameIn f (p.mapRefs rename) p := by
  intro b
  induction p with
  | const v => exact .number (f v)
  | pi => exact .number (f Scalar.pi)
  | ref r =>
    change SameOutcome ((ref (rename r)).evaluate b) ((ref r).evaluate b)
    rw [evaluate, evaluate, hname]
    exact .refl (ref r) b
  | neg e ih => exact ih.neg
  | add x y ihx ihy => exact ihx.add ihy
  | sub x y ihx ihy => exact ihx.sub ihy
  | mul x y ihx ihy => exact ihx.mul ihy
  | div x y ihx ihy => exact ihx.div ihy

end Renaming

section Simplified

variable {f : F → G} (hneg : ∀ x : G, - -x = x)
include hneg

theorem sameIn_reduceNeg (e : Param F) : SameIn f (reduceNeg e) (neg e) := by
  intro b
  cases e with
  | neg x =>
    have h := SameOutcome.refl (x.mapNumbers f) b
    change SameOutcome ((x.mapNumbers f).evaluate b)
      ((do return -(← (x.mapNumbers f).evaluate b)) >>= fun v => pure (-v))
    generalize (x.mapNumbers f).evaluate b = outcome at h
    cases h with
    | number v =>
      change SameOutcome (.ok v) (.ok (- -v))
      rw [hneg]
      exact .number v
    | unbound name => exact .unbound name
    | invalid p => exact .invalid p _
  | _ => exact .refl _ b

/-- What simplification does to a folded expression has no effect on its value in any arithmetic
where negating twice has none. -/
theorem Folded.sameIn_simplify [FiniteAngles F] {p : Param F} (h : p.Folded) :
    SameIn f p.simplify p := by
  intro b
  induction p with
  | const v => exact .number (f v)
  | pi => exact .number (f Scalar.pi)
  | ref r => exact .refl (ref r) b
  | neg e ih =>
    rw [h.simplify_neg]
    exact (sameIn_reduceNeg hneg e.simplify b).trans (ih h.2).neg
  | add x y ihx ihy =>
    rw [h.simplify_add]
    exact (ihx h.2.2.1).add (ihy h.2.2.2)
  | sub x y ihx ihy =>
    rw [h.simplify_sub]
    exact (ihx h.2.2.1).sub (ihy h.2.2.2)
  | mul x y ihx ihy =>
    rw [h.simplify_mul]
    exact (ihx h.2.2.1).mul (ihy h.2.2.2)
  | div x y ihx ihy =>
    rw [h.simplify_div]
    exact (ihx h.2.2.1).div (ihy h.2.2.2)

end Simplified

theorem Folded.eq_of_value? {p : Param F} {v : F} (h : p.Folded) (hv : p.value? = some v) :
    p = const v ∨ p = pi ∧ v = Scalar.pi := by
  cases p with
  | const w => exact .inl (congrArg const (Option.some.inj hv))
  | pi => exact .inr ⟨rfl, (Option.some.inj hv).symm⟩
  | ref => cases hv
  | neg | add | sub | mul | div =>
    rw [h.1] at hv
    cases hv

section Reread
open Number

variable {handle : String → Handle}

theorem reread_mapRefs (hname : ∀ name, (handle name).name = name) (p : Param Float) :
    (p.mapRefs fun r => handle r.name).reread handle = p.reread handle := by
  induction p with
  | const | pi => rfl
  | ref r => rw [mapRefs, reread, reread, hname]
  | neg e ih => rw [mapRefs, reread, reread, ih]
  | add a b iha ihb | sub a b iha ihb | mul a b iha ihb | div a b iha ihb =>
    rw [mapRefs, reread, reread, iha, ihb]

theorem FiniteNumbers.readsBack (hname : ∀ name, (handle name).name = name) {p : Param Float}
    (h : p.FiniteNumbers) : (p.mapRefs fun r => handle r.name).All
      (fun v => v.isFinite = true ∧ ReadsBack v.abs) fun r => handle r.name = r := by
  induction p with
  | const v => exact ⟨h, readsBack_abs h⟩
  | pi => trivial
  | ref r => exact congrArg handle (hname r.name)
  | neg e ih => exact ih h
  | add a b iha ihb | sub a b iha ihb | mul a b iha ihb | div a b iha ihb =>
    exact ⟨iha h.1, ihb h.2⟩

theorem simplify_reread (hname : ∀ name, (handle name).name = name) {p : Param Float}
    (h : p.FiniteNumbers) :
    (p.reread handle).simplify = (p.mapRefs fun r => handle r.name).simplify := by
  rw [← reread_mapRefs hname]
  exact (reread_of_readsBack (h.readsBack hname)).2

end Reread

end Param

/-- The exact value of a double; zero stands for those that have none. -/
def Number.toReal (x : Float) : ℝ := ((value? x).getD 0 : ℚ)

namespace Param
open Number

/-- Two parameters have the same value under all bindings, as doubles compute it and exactly. -/
structure SameValues (p q : Param Float) : Prop where
  computed : ∀ b : Bindings Float, SameOutcome (p.evaluate b) (q.evaluate b)
  exact : ∀ b : Bindings ℝ, SameOutcome ((p.mapNumbers toReal).evaluate b)
    ((q.mapNumbers toReal).evaluate b)

theorem sameValues_of_sameIn {p q : Param Float}
    (h : ∀ {G : Type} [Scalar G] (f : Float → G), (∀ x : G, - -x = x) → SameIn f p q) :
    p.SameValues q :=
  ⟨fun b => (sameOutcome_mapNumbers_id p b).symm.trans
    ((h id neg_neg_double b).trans (sameOutcome_mapNumbers_id q b)), h toReal neg_neg⟩

/-- Simplification keeps the value also in doubles, where all but a value is folded already. -/
theorem evaluate_simplify_of_folded {p : Param Float} {b : Bindings Float} {v : Float}
    (hp : p.value? = none → p.Folded) (hv : p.evaluate b = .ok v) :
    p.simplify.evaluate b = .ok v := by
  cases hvalue : p.value? with
  | some w =>
    rw [evaluate_of_value? hvalue] at hv
    obtain rfl := Except.ok.inj hv
    exact evaluate_of_value? (value?_simplify hvalue) b
  | none =>
    have hsame := (sameValues_of_sameIn fun _ hneg => (hp hvalue).sameIn_simplify hneg).computed b
    rw [hv] at hsame
    generalize p.simplify.evaluate b = outcome at hsame ⊢
    cases hsame
    rfl

end Param

namespace Angle

variable {p q : Param Float} {c c₁ : Circuit Float}

/-- What is read back from a parameter has the same values. -/
theorem sameIn_of_read (hp : p.Folded) (hreadable : p.Readable) (hfinite : p.FiniteNumbers)
    (h : ((ofParam p).read c).2 = .ok q) {G : Type} [Scalar G] (f : Float → G)
    (hneg : ∀ x : G, - -x = x) : Param.SameIn f p q.simplify := by
  rw [ofParam] at h
  cases hvalue : p.value? with
  | some v =>
    rw [hvalue] at h
    obtain rfl : Param.const v = q := Except.ok.inj h
    rcases hp.eq_of_value? hvalue with rfl | ⟨rfl, rfl⟩
    · exact fun b => .number (f v)
    · exact fun b => .number (f Scalar.pi)
  | none =>
    rw [hvalue, read, Circuit.readParam, Param.parse_write_of_readable c.registry hreadable] at h
    obtain rfl := Except.ok.inj h
    rw [Param.simplify_reread (Param.name_handleIn _) hfinite]
    have hfolded : (p.mapRefs fun r =>
        Param.handleIn (c.registry.registerAll p.words) r.name).Folded := hp.mapRefs
    refine Param.SameIn.symm (((Param.folded_simplify _).sameIn_simplify hneg).trans ?_)
    exact (hfolded.sameIn_simplify hneg).trans
      (Param.sameIn_mapRefs f (fun r => Param.name_handleIn _ r.name) p)

theorem forall₂_of_readAll {ps qs : List (Param Float)}
    (hps : ∀ p ∈ ps, p.Folded ∧ p.Readable ∧ p.FiniteNumbers)
    (h : readAll c (ps.map ofParam) = .ok (c₁, qs)) :
    List.Forall₂ Param.SameValues ps (qs.map Param.simplify) := by
  induction ps generalizing c qs with
  | nil =>
    obtain ⟨-, rfl⟩ := Prod.mk.inj (Except.ok.inj h)
    exact .nil
  | cons p ps ih =>
    obtain ⟨⟨hp, hreadable, hfinite⟩, hps⟩ := List.forall_mem_cons.mp hps
    obtain ⟨q, hq, h⟩ := bind_eq_ok_iff.mp h
    obtain ⟨⟨c₂, rest⟩, hrest, h⟩ := bind_eq_ok_iff.mp h
    obtain ⟨rfl, rfl⟩ := Prod.mk.inj (Except.ok.inj h)
    exact .cons (Param.sameValues_of_sameIn (sameIn_of_read hp hreadable hfinite hq)) (ih hps hrest)

end Angle

end Interchange
end
