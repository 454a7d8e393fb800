import Interchange.Proofs.Construction

namespace Interchange

/-- A measurement into one bit of the register, or a gate that writes no bit. -/
def Instruction.Recorded {F : Type} (clbits : ℕ) (i : Instruction F) : Prop :=
  if i.isMeasure then ∃ b < clbits, i.clbits = [b] else i.clbits = []

theorem Instruction.Recorded.mono {F : Type} {m n : ℕ} (hmn : m ≤ n) {i : Instruction F}
    (h : i.Recorded m) : i.Recorded n := by
  unfold Recorded at h ⊢
  split_ifs at h ⊢
  · obtain ⟨b, hb, hbits⟩ := h
    exact ⟨b, by omega, hbits⟩
  · exact h

theorem Instruction.Recorded.exists_clbits {F : Type} {n : ℕ} {i : Instruction F}
    (h : i.Recorded n) (hm : i.isMeasure = true) : ∃ b < n, i.clbits = [b] := by
  rwa [Recorded, if_pos hm] at h

theorem Instruction.Recorded.clbits_eq_nil {F : Type} {n : ℕ} {i : Instruction F}
    (h : i.Recorded n) (hm : i.isMeasure = false) : i.clbits = [] := by
  rwa [Recorded, hm, if_neg Bool.false_ne_true] at h

theorem Instruction.Recorded.lt {F : Type} {n : ℕ} {i : Instruction F} (h : i.Recorded n) :
    ∀ b ∈ i.clbits, b < n := by
  cases hm : i.isMeasure with
  | true =>
    obtain ⟨b, hb, hclbits⟩ := h.exists_clbits hm
    rw [hclbits]
    exact List.forall_mem_singleton.mpr hb
  | false =>
    rw [h.clbits_eq_nil hm]
    exact fun _ hb => absurd hb List.not_mem_nil

namespace Circuit

variable {F : Type}

/-- Instructions were appended, each recorded. The qubits stay, and the bits may become more. -/
structure Grows (c : Circuit F) (js : List (Instruction F)) (c' : Circuit F) : Prop where
  qubits : c'.qubits = c.qubits
  layout : c'.layout = c.layout
  instructions : c'.instructions = c.instructions ++ js
  clbits : c.clbits ≤ c'.clbits
  recorded : ∀ j ∈ js, j.Recorded c'.clbits

variable {c c₁ c' : Circuit F} {js ks : List (Instruction F)}

theorem Grows.refl (c : Circuit F) : c.Grows [] c :=
  ⟨rfl, rfl, (List.append_nil _).symm, Nat.le_refl _, by simp⟩

theorem Grows.trans (h : c.Grows js c₁) (h' : c₁.Grows ks c') : c.Grows (js ++ ks) c' := by
  refine ⟨h'.qubits.trans h.qubits, h'.layout.trans h.layout, ?_,
    Nat.le_trans h.clbits h'.clbits, ?_⟩
  · rw [h'.instructions, h.instructions, List.append_assoc]
  · rw [List.forall_mem_append]
    exact ⟨fun j hj => (h.recorded j hj).mono h'.clbits, h'.recorded⟩

theorem Grows.of_registry {registry : Registry} (h : { c with registry := registry }.Grows js c') :
    c.Grows js c' :=
  ⟨h.qubits, h.layout, h.instructions, h.clbits, h.recorded⟩

def Extends (c c' : Circuit F) : Prop := ∃ js, c.Grows js c'

/-- What every step appends, a run appends one after the other. The steps may rely on what was
read before. -/
theorem foldlM_grows {σ α ε : Type} (circuit : σ → Circuit F) {step : σ → α → Except ε σ}
    {I : List α → σ → Prop} {R : α → List (Instruction F) → Prop} {xs : List α}
    (hstep : ∀ done x rest s s', done ++ x :: rest = xs → I done s → step s x = .ok s' →
      I (done ++ [x]) s' ∧ ∃ js, R x js ∧ (circuit s).Grows js (circuit s'))
    {s s' : σ} (hs : I [] s) (h : xs.foldlM step s = .ok s') :
    I xs s' ∧
      ∃ blocks, List.Forall₂ R xs blocks ∧ (circuit s).Grows blocks.flatten (circuit s') := by
  suffices hrun : ∀ rest done s, done ++ rest = xs → I done s → rest.foldlM step s = .ok s' →
      I xs s' ∧
        ∃ blocks, List.Forall₂ R rest blocks ∧ (circuit s).Grows blocks.flatten (circuit s') from
    hrun xs [] s rfl hs h
  intro rest
  induction rest with
  | nil =>
    rintro done s hxs hs h
    obtain rfl := Except.ok.inj h
    rw [List.append_nil] at hxs
    exact ⟨hxs ▸ hs, [], .nil, .refl _⟩
  | cons x rest ih =>
    intro done s hxs hs h
    obtain ⟨s₁, hx, hrest⟩ := bind_eq_ok_iff.mp h
    obtain ⟨hs₁, js, hjs, hgrows⟩ := hstep done x rest s s₁ hxs hs hx
    obtain ⟨hend, blocks, hblocks, hmore⟩ :=
      ih (done ++ [x]) s₁ ((List.append_assoc _ _ _).trans hxs) hs₁ hrest
    exact ⟨hend, js :: blocks, .cons hjs hblocks, hgrows.trans hmore⟩

theorem foldlM_extends {σ α ε : Type} (circuit : σ → Circuit F) {step : σ → α → Except ε σ}
    {xs : List α} (hstep : ∀ x ∈ xs, ∀ s s', step s x = .ok s' → (circuit s).Extends (circuit s'))
    {s s' : σ} (h : xs.foldlM step s = .ok s') : (circuit s).Extends (circuit s') := by
  obtain ⟨-, blocks, -, hgrows⟩ := foldlM_grows (I := fun _ _ => True) (R := fun _ _ => True)
    circuit (fun done x rest s s' hxs _ hx => ⟨trivial, (hstep x (by simp [← hxs]) s s' hx).imp
      fun _ hjs => ⟨trivial, hjs⟩⟩) trivial h
  exact ⟨_, hgrows⟩

theorem grows_of_push {i : Instruction F} (h : c.push i = .ok c')
    (hi : if i.isMeasure then ∃ b, i.clbits = [b] else i.clbits = []) : c.Grows [i] c' := by
  obtain ⟨-, rfl⟩ := push_eq_ok_iff.mp h
  refine ⟨rfl, rfl, rfl, ?_, ?_⟩
  · dsimp only [pushed]
    split
    next bit hbit =>
      have hle := List.find?_some hbit
      exact Nat.le_succ_of_le (of_decide_eq_true hle)
    next => exact Nat.le_refl _
  · rw [List.forall_mem_singleton, Instruction.Recorded]
    split_ifs at hi ⊢
    · obtain ⟨b, hbits⟩ := hi
      refine ⟨b, ?_, hbits⟩
      -- the register grows to hold the bit unless it does already
      by_cases hb : c.clbits ≤ b
      · simp [pushed, hbits, hb]
      · simp [pushed, hbits, hb]
        omega
    · exact hi

theorem grows_of_measure {q b : ℕ} (h : c.measure q b = .ok c') : c.Grows [.measure q b] c' :=
  grows_of_push h ⟨b, rfl⟩

theorem grows_of_pushGate {g : Gate F} {qs : List ℕ} (h : c.pushGate g qs = .ok c')
    (hg : g.tag ≠ .measure) : c.Grows [⟨g, qs, []⟩] c' := by
  obtain ⟨i, hi, h⟩ := pushGate_eq_ok_iff.mp h
  obtain ⟨-, rfl⟩ := Instruction.new_eq_ok_iff.mp hi
  refine grows_of_push h ?_
  rw [if_neg (by simpa [Instruction.isMeasure, Instruction.tag] using hg)]

variable [Scalar F]

theorem grows_of_apply {tag : Tag} {params : List (Param F)} {qs : List ℕ}
    (h : c.apply tag params qs = .ok c') (htag : tag ≠ .measure) :
    ∃ g, Gate.new tag params = .ok g ∧ c.Grows [⟨g, qs, []⟩] c' := by
  obtain ⟨g, hg, h⟩ := apply_eq_ok_iff.mp h
  refine ⟨g, hg, grows_of_pushGate h ?_⟩
  rwa [Gate.tag_of_new hg]

end Circuit

end Interchange
