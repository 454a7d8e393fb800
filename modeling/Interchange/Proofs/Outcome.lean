import Mathlib.Data.List.Forall2
import Interchange.Convert.Error
import Interchange.InPlace

namespace Interchange

section

variable {ε α β : Type}

theorem bind_eq_ok_iff {x : Except ε α} {f : α → Except ε β} {b : β} :
    x >>= f = .ok b ↔ ∃ a, x = .ok a ∧ f a = .ok b := by
  cases x <;> simp [bind, Except.bind]

theorem bind_eq_error_iff {x : Except ε α} {f : α → Except ε β} {e : ε} :
    x >>= f = .error e ↔ x = .error e ∨ ∃ a, x = .ok a ∧ f a = .error e := by
  cases x <;> simp [bind, Except.bind]

theorem bind_eq_self {x : Except ε α} {f : α → Except ε α} (h : ∀ a, f a = .ok a) :
    x >>= f = x := by
  cases x with
  | error e => rfl
  | ok a => exact h a

theorem bind_congr_ok {x : Except ε α} {f g : α → Except ε β} (h : ∀ a, x = .ok a → f a = g a) :
    x >>= f = x >>= g := by
  cases x with
  | error e => rfl
  | ok a => exact h a rfl

def Returns (x : Except ε α) (P : α → Prop) : Prop := ∀ a, x = .ok a → P a

theorem Returns.ok {P : α → Prop} {a : α} (h : P a) : Returns (.ok a : Except ε α) P := by
  rintro _ ⟨⟩
  exact h

theorem Returns.error (e : ε) (P : α → Prop) : Returns (.error e) P := by
  rintro _ ⟨⟩

theorem Returns.bind {x : Except ε α} {f : α → Except ε β} {P : α → Prop} {Q : β → Prop}
    (hx : Returns x P) (hf : ∀ a, P a → Returns (f a) Q) : Returns (x >>= f) Q := by
  intro b hb
  obtain ⟨a, ha, hb⟩ := bind_eq_ok_iff.mp hb
  exact hf a (hx a ha) b hb

/-- Only what comes last counts. -/
theorem Returns.andThen {x : Except ε α} {f : α → Except ε β} {P : β → Prop}
    (hf : ∀ a, Returns (f a) P) : Returns (x >>= f) P :=
  Returns.bind (fun _ _ => trivial) fun a (_ : True) => hf a

theorem Returns.foldlM {step : β → α → Except ε β} {P : β → Prop} {xs : List α}
    (hstep : ∀ b, P b → ∀ x ∈ xs, Returns (step b x) P) {b : β} (hb : P b) :
    Returns (xs.foldlM step b) P := by
  induction xs generalizing b with
  | nil => exact .ok hb
  | cons x xs ih =>
    rw [List.foldlM_cons]
    exact (hstep b hb x List.mem_cons_self).bind fun b' hb' =>
      ih (fun b hb y hy => hstep b hb y (List.mem_cons_of_mem x hy)) hb'

/-- If every step that succeeds does the same as another one, so does a run. -/
theorem foldlM_of_steps {step step' : β → α → Except ε β} {xs : List α}
    (h : ∀ x ∈ xs, ∀ b b', step b x = .ok b' → step' b x = .ok b') {b b' : β}
    (hrun : xs.foldlM step b = .ok b') : xs.foldlM step' b = .ok b' := by
  induction xs generalizing b with
  | nil => exact hrun
  | cons x xs ih =>
    rw [List.foldlM_cons] at hrun ⊢
    obtain ⟨hx, hxs⟩ := List.forall_mem_cons.mp h
    obtain ⟨b₁, hb₁, hrun⟩ := bind_eq_ok_iff.mp hrun
    exact bind_eq_ok_iff.mpr ⟨b₁, hx b b₁ hb₁, ih hxs hrun⟩

def Raises (x : Except ε α) (P : ε → Prop) : Prop := ∀ e, x = .error e → P e

theorem Raises.ok (a : α) (P : ε → Prop) : Raises (.ok a) P := by
  rintro _ ⟨⟩

theorem Raises.error {P : ε → Prop} {e : ε} (h : P e) : Raises (.error e : Except ε α) P := by
  rintro _ ⟨⟩
  exact h

theorem Raises.bind {x : Except ε α} {f : α → Except ε β} {P : ε → Prop} (hx : Raises x P)
    (hf : ∀ a, x = .ok a → Raises (f a) P) : Raises (x >>= f) P := by
  cases x with
  | ok a => exact hf a rfl
  | error e => exact .error (hx e rfl)

theorem Raises.mapM {f : α → Except ε β} {xs : List α} {P : ε → Prop}
    (h : ∀ x ∈ xs, Raises (f x) P) : Raises (xs.mapM f) P := by
  induction xs with
  | nil => exact .ok _ _
  | cons x xs ih =>
    rw [List.mapM_cons]
    obtain ⟨hx, hxs⟩ := List.forall_mem_cons.mp h
    exact hx.bind fun _ _ => (ih hxs).bind fun _ _ => .ok _ _

theorem Raises.foldlM {step : β → α → Except ε β} {P : ε → Prop}
    {xs : List α} (h : ∀ x ∈ xs, ∀ b, Raises (step b x) P) (b : β) :
    Raises (xs.foldlM step b) P := by
  induction xs generalizing b with
  | nil => exact .ok _ _
  | cons x xs ih =>
    rw [List.foldlM_cons]
    obtain ⟨hx, hxs⟩ := List.forall_mem_cons.mp h
    exact (hx b).bind fun b' _ => ih hxs b'

/-- A traversal succeeds with the results of the single steps. -/
theorem mapM_eq_ok_iff {f : α → Except ε β} {xs : List α} {ys : List β} :
    xs.mapM f = .ok ys ↔ List.Forall₂ (fun x y => f x = .ok y) xs ys := by
  induction xs generalizing ys with
  | nil =>
    rw [List.mapM_nil, List.forall₂_nil_left_iff]
    exact ⟨fun h => (Except.ok.inj h).symm, fun h => congrArg Except.ok h.symm⟩
  | cons x xs ih =>
    rw [List.mapM_cons, bind_eq_ok_iff, List.forall₂_cons_left_iff]
    constructor
    · rintro ⟨y, hy, h⟩
      obtain ⟨zs, hzs, h⟩ := bind_eq_ok_iff.mp h
      exact ⟨y, zs, hy, ih.mp hzs, (Except.ok.inj h).symm⟩
    · rintro ⟨y, zs, hy, hzs, rfl⟩
      exact ⟨y, hy, bind_eq_ok_iff.mpr ⟨zs, ih.mpr hzs, rfl⟩⟩

theorem mapM_congr_forall₂ {γ : Type} {f : α → Except ε γ} {g : β → Except ε γ} {xs : List α}
    {ys : List β} (h : List.Forall₂ (fun x y => f x = g y) xs ys) : xs.mapM f = ys.mapM g := by
  induction h with
  | nil => rfl
  | cons hxy _ ih => rw [List.mapM_cons, List.mapM_cons, hxy, ih]

/-- A traversal ends in the error of the first step that fails. -/
theorem mapM_eq_error_iff {f : α → Except ε β} {xs : List α} {e : ε} :
    xs.mapM f = .error e ↔ ∃ before x after, xs = before ++ x :: after ∧
      (∀ y ∈ before, ∃ z, f y = .ok z) ∧ f x = .error e := by
  induction xs with
  | nil =>
    constructor
    · rintro ⟨⟩
    · rintro ⟨before, x, after, h, -⟩
      exact absurd h.symm (List.append_ne_nil_of_right_ne_nil before (List.cons_ne_nil x after))
  | cons x xs ih =>
    rw [List.mapM_cons, bind_eq_error_iff]
    constructor
    · rintro (hx | ⟨y, hy, h⟩)
      · exact ⟨[], x, xs, rfl, fun _ h => absurd h List.not_mem_nil, hx⟩
      · obtain hxs | ⟨_, -, h⟩ := bind_eq_error_iff.mp h
        · obtain ⟨before, x', after, rfl, hbefore, hx'⟩ := ih.mp hxs
          exact ⟨x :: before, x', after, rfl, List.forall_mem_cons.mpr ⟨⟨y, hy⟩, hbefore⟩, hx'⟩
        · cases h
    · rintro ⟨before, x', after, h, hbefore, hx'⟩
      rcases List.cons_eq_append_iff.mp h with ⟨rfl, h⟩ | ⟨before, rfl, rfl⟩
      · obtain ⟨rfl, -⟩ := List.cons.inj h
        exact .inl hx'
      · obtain ⟨⟨y, hy⟩, hbefore⟩ := List.forall_mem_cons.mp hbefore
        have hxs := ih.mpr ⟨before, x', after, rfl, hbefore, hx'⟩
        exact .inr ⟨y, hy, bind_eq_error_iff.mpr (.inl hxs)⟩

/-- A traversal whose steps succeed under a condition, with results that do not depend on it. -/
theorem mapM_eq_ok_map {f : α → Except ε β} {g : α → β} {P : α → Prop}
    (hf : ∀ x y, f x = .ok y ↔ P x ∧ y = g x) {xs : List α} {ys : List β} :
    xs.mapM f = .ok ys ↔ (∀ x ∈ xs, P x) ∧ ys = xs.map g := by
  rw [mapM_eq_ok_iff]
  simp only [hf]
  induction xs generalizing ys with
  | nil => simp
  | cons x xs ih =>
    rw [List.forall₂_cons_left_iff, List.forall_mem_cons]
    constructor
    · rintro ⟨y, zs, ⟨hx, rfl⟩, hrest, rfl⟩
      obtain ⟨hxs, rfl⟩ := ih.mp hrest
      exact ⟨⟨hx, hxs⟩, rfl⟩
    · rintro ⟨⟨hx, hxs⟩, rfl⟩
      exact ⟨g x, xs.map g, ⟨hx, rfl⟩, ih.mpr ⟨hxs, rfl⟩, rfl⟩

theorem exists_mapM_eq_ok {f : α → Except ε β} {xs : List α} (h : ∀ x ∈ xs, ∃ y, f x = .ok y) :
    ∃ ys, xs.mapM f = .ok ys := by
  simp only [mapM_eq_ok_iff]
  induction xs with
  | nil => exact ⟨[], .nil⟩
  | cons x xs ih =>
    obtain ⟨⟨y, hy⟩, hxs⟩ := List.forall_mem_cons.mp h
    obtain ⟨ys, hys⟩ := ih hxs
    exact ⟨y :: ys, .cons hy hys⟩

theorem mapM_eq_some_iff {f : α → Option β} {xs : List α} {ys : List β} :
    xs.mapM f = some ys ↔ List.Forall₂ (fun x y => f x = some y) xs ys := by
  induction xs generalizing ys with
  | nil =>
    rw [List.mapM_nil, List.forall₂_nil_left_iff]
    exact ⟨fun h => (Option.some.inj h).symm, fun h => congrArg some h.symm⟩
  | cons x xs ih =>
    rw [List.mapM_cons, List.forall₂_cons_left_iff, Option.bind_eq_bind, Option.bind_eq_some_iff]
    constructor
    · rintro ⟨y, hy, h⟩
      obtain ⟨zs, hzs, h⟩ := Option.bind_eq_some_iff.mp h
      exact ⟨y, zs, hy, ih.mp hzs, (Option.some.inj h).symm⟩
    · rintro ⟨y, zs, hy, hzs, rfl⟩
      exact ⟨y, hy, Option.bind_eq_some_iff.mpr ⟨zs, ih.mpr hzs, rfl⟩⟩

theorem exists_of_forall₂_left {R : α → β → Prop} {xs : List α} {ys : List β}
    (h : List.Forall₂ R xs ys) {x : α} (hx : x ∈ xs) : ∃ y ∈ ys, R x y := by
  induction h with
  | nil => cases hx
  | cons hr _ ih =>
    rcases List.mem_cons.mp hx with rfl | hx
    · exact ⟨_, List.mem_cons_self, hr⟩
    · obtain ⟨y, hy, hr⟩ := ih hx
      exact ⟨y, List.mem_cons_of_mem _ hy, hr⟩

theorem exists_of_forall₂_right {R : α → β → Prop} {xs : List α} {ys : List β}
    (h : List.Forall₂ R xs ys) {y : β} (hy : y ∈ ys) : ∃ x ∈ xs, R x y :=
  exists_of_forall₂_left (List.Forall₂.flip (R := flip R) h) hy

theorem exists_of_mem_flatten {f : α → Except ε (List β)} {xs : List α} {outs : List (List β)}
    (h : xs.mapM f = .ok outs) {y : β} (hy : y ∈ outs.flatten) :
    ∃ x ∈ xs, ∃ out, f x = .ok out ∧ y ∈ out := by
  obtain ⟨out, hout, hy⟩ := List.mem_flatten.mp hy
  obtain ⟨x, hx, hxout⟩ := exists_of_forall₂_right (mapM_eq_ok_iff.mp h) hout
  exact ⟨x, hx, out, hxout, hy⟩

theorem forM_eq_ok_iff {f : α → Except ε Unit} {xs : List α} :
    xs.forM f = .ok () ↔ ∀ x ∈ xs, f x = .ok () := by
  induction xs with
  | nil => exact ⟨fun _ x hx => absurd hx List.not_mem_nil, fun _ => rfl⟩
  | cons x xs ih =>
    rw [List.forall_mem_cons, ← ih]
    change (f x >>= fun _ => xs.forM f) = .ok () ↔ _
    rw [bind_eq_ok_iff]
    exact ⟨fun ⟨_, hx, h⟩ => ⟨hx, h⟩, fun ⟨hx, h⟩ => ⟨(), hx, h⟩⟩

namespace InPlace

variable {σ : Type}

theorem outcome_eq_ok_iff {work : InPlace ε σ Unit} {s s' : σ} :
    work.outcome s = .ok s' ↔ work.perform s = (.ok (), s') := by
  unfold outcome
  rcases work.perform s with ⟨_ | ⟨⟨⟩⟩, s₁⟩ <;> simp

theorem perform_discard (x : Except ε α) (s : σ) :
    (discard x : InPlace ε σ Unit).perform s = (x.map fun _ => (), s) := by
  cases x <;> rfl

end InPlace

end

variable {F α : Type}

@[simp] theorem SynthesisError.lift_eq_ok_iff {x : Except (CircuitError F) α} {a : α} :
    SynthesisError.lift x = .ok a ↔ x = .ok a := by
  cases x <;> simp [SynthesisError.lift]

@[simp] theorem ConvertError.lift_eq_ok_iff {f : Framework} {x : Except (CircuitError F) α}
    {a : α} : ConvertError.lift f x = .ok a ↔ x = .ok a := by
  cases x <;> simp [ConvertError.lift]

end Interchange
