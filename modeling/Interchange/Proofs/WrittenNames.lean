import Interchange.Proofs.LoweredParameters

namespace Interchange

namespace Param

theorem name_handleIn (registry : Registry) (name : String) :
    (handleIn registry name).name = name := by
  unfold handleIn Registry.lookup?
  cases registry.names.idxOf? name <;> rfl

theorem names_withSign (v : Float) (e : Param Float) : (withSign v e).names = e.names := by
  unfold withSign
  split_ifs <;> rfl

/-- The words in the text of an expression are the names of what it is read as. -/
theorem names_reread (registry : Registry) (e : Param Float) :
    (e.reread (handleIn registry)).names = e.words := by
  induction e with
  | const v =>
    rw [reread, words]
    split_ifs
    · exact names_withSign v _
    · exact congrArg (· :: []) (name_handleIn registry "NaN")
    · exact (names_withSign v _).trans (congrArg (· :: []) (name_handleIn registry "inf"))
  | pi => rfl
  | ref r => exact congrArg (· :: []) (name_handleIn registry r.name)
  | neg e ih => exact ih
  | add a b iha ihb | sub a b iha ihb | mul a b iha ihb | div a b iha ihb =>
    exact congrArg₂ _ iha ihb

theorem names_sublist_words (e : Param Float) : e.names.Sublist e.words := by
  induction e with
  | const v => exact List.nil_sublist _
  | pi | ref => exact List.Sublist.refl _
  | neg e ih => exact ih
  | add a b iha ihb | sub a b iha ihb | mul a b iha ihb | div a b iha ihb => exact iha.append ihb

def FiniteNumbers (p : Param Float) : Prop := p.All (fun v => v.isFinite = true) fun _ => True

/-- The words with which a parameter is written: none if it has a value, for then it is written as a
number. -/
def written (p : Param Float) : List String := if p.isSymbolic then p.words else []

end Param

namespace Angle

/-- What is read back from a parameter names the words with which it is written. -/
theorem exists_read_ofParam (c : Circuit Float) {p : Param Float} (hp : p.isAdmissible = true)
    (hreadable : p.Readable) :
    ∃ q, (ofParam p).read c =
        ({ c with registry := c.registry.registerAll p.written }, .ok q) ∧
      q.isAdmissible = true ∧ q.names = p.written := by
  cases hs : p.isSymbolic with
  | true =>
    have hvalue : p.value? = none := by
      refine Option.eq_none_iff_forall_ne_some.mpr fun v hv => ?_
      rw [Param.isSymbolic_eq_false_of_value? hv] at hs
      cases hs
    have hwritten : p.written = p.words := if_pos hs
    have hnames := (Param.names_simplify _).trans
      (Param.names_reread (c.registry.registerAll p.words) p)
    refine ⟨_, ?_, ?_, hnames.trans hwritten.symm⟩
    · rw [hwritten, ofParam, hvalue, read, Circuit.readParam,
        Param.parse_write_of_readable c.registry hreadable]
    · rw [Param.isAdmissible, Bool.or_eq_true]
      left
      by_contra hnot
      rw [Bool.not_eq_true, ← Param.names_eq_nil_iff, hnames] at hnot
      have hnil : p.names = [] := List.sublist_nil.mp (hnot ▸ p.names_sublist_words)
      rw [Param.names_eq_nil_iff.mp hnil] at hs
      cases hs
  | false =>
    have hwritten : p.written = [] := if_neg (by simp [hs])
    rw [Param.isAdmissible, hs, Bool.false_or, Option.any_eq_true] at hp
    obtain ⟨v, hv, hfinite⟩ := hp
    refine ⟨.const v, ?_, ?_, hwritten.symm⟩
    · rw [hwritten, ofParam, hv]
      rfl
    · simpa [Param.isAdmissible, Param.value?] using .inr hfinite

theorem exists_readAll_ofParam (c : Circuit Float) {ps : List (Param Float)}
    (hps : ∀ p ∈ ps, p.isAdmissible = true ∧ p.Readable) :
    ∃ qs, readAll c (ps.map ofParam) =
        .ok ({ c with registry := c.registry.registerAll (ps.flatMap Param.written) }, qs) ∧
      qs.length = ps.length ∧ (∀ q ∈ qs, q.isAdmissible = true) ∧
      qs.flatMap Param.names = ps.flatMap Param.written := by
  induction ps generalizing c with
  | nil => exact ⟨[], rfl, rfl, fun _ hq => absurd hq List.not_mem_nil, rfl⟩
  | cons p ps ih =>
    obtain ⟨⟨hp, hreadable⟩, hps⟩ := List.forall_mem_cons.mp hps
    obtain ⟨q, hread, hq, hnames⟩ := exists_read_ofParam c hp hreadable
    obtain ⟨qs, hrest, hlength, hqs, hmore⟩ :=
      ih { c with registry := c.registry.registerAll p.written } hps
    refine ⟨q :: qs, ?_, congrArg Nat.succ hlength, List.forall_mem_cons.mpr ⟨hq, hqs⟩, ?_⟩
    · rw [List.map_cons, readAll, hread, List.flatMap_cons, Registry.registerAll_append]
      dsimp only
      rw [hrest]
      rfl
    · rw [List.flatMap_cons, List.flatMap_cons, hnames, hmore]

end Angle

theorem Gate.IsBuilt.exists_readAll {g : Gate Float} (hg : g.IsBuilt)
    (hreadable : ∀ p ∈ g.params, p.Readable) (c : Circuit Float) :
    ∃ registry qs g', Angle.readAll c (g.params.map .ofParam) =
        .ok ({ c with registry := registry }, qs) ∧ new g.tag qs = .ok g' ∧
      g'.qubits = g.qubits ∧ g'.params.flatMap Param.names = g.params.flatMap Param.written := by
  obtain ⟨qs, hread, hlength, hqs, hnames⟩ := Angle.exists_readAll_ofParam c
    fun p hp => ⟨hg.isAdmissible p hp, hreadable p hp⟩
  have hadmissible : ∀ q ∈ qs.map Param.simplify, q.isAdmissible = true := by
    intro p hp
    obtain ⟨q, hq, rfl⟩ := List.mem_map.mp hp
    rw [Param.isAdmissible_congr (Param.isSymbolic_simplify q)
      (Param.simplify_value? Number.beq_one_of_beq_zero q)]
    exact hqs q hq
  refine ⟨_, qs, _, hread, new_eq_ok_iff.mpr
    ⟨hg.tag_ne, hlength.trans hg.length_params, hadmissible, rfl⟩, ?_, ?_⟩
  · rw [qubits_of_tag hg.tag_ne]
    exact qubits_of_tag hg.tag_ne
  · rw [List.flatMap_map, ← hnames]
    exact List.flatMap_congr fun q _ => q.names_simplify

namespace Circuit

/-- A circuit as wide as another, with more parameters named in it. -/
structure NamesMore {F : Type} (c : Circuit F) (more : List String) (c' : Circuit F) : Prop where
  qubits : c'.qubits = c.qubits
  names : c'.params.flatMap Param.names = c.params.flatMap Param.names ++ more

theorem NamesMore.refl {F : Type} (c : Circuit F) : c.NamesMore [] c :=
  ⟨rfl, (List.append_nil _).symm⟩

theorem NamesMore.trans {F : Type} {c c₁ c₂ : Circuit F} {xs ys : List String}
    (h : c.NamesMore xs c₁) (h' : c₁.NamesMore ys c₂) : c.NamesMore (xs ++ ys) c₂ :=
  ⟨h'.qubits.trans h.qubits, by rw [h'.names, h.names, List.append_assoc]⟩

variable {F : Type}

theorem namesMore_pushed (c : Circuit F) (registry : Registry) (i : Instruction F) :
    c.NamesMore (i.gate.params.flatMap Param.names) ({ c with registry := registry }.pushed i) := by
  refine ⟨rfl, ?_⟩
  rw [params, pushed, List.flatMap_append, List.flatMap_append, List.flatMap_singleton]
  rfl

/-- If every instruction is written in a form that is read back with certain names, so is a list of
them. -/
theorem exists_run {α ε ε' : Type} {write : Instruction F → Except ε α}
    {read : α → Circuit F → Except ε' (Circuit F)} {names : Instruction F → List String} {width : ℕ}
    {is : List (Instruction F)}
    (hstep : ∀ i ∈ is, ∃ x, write i = .ok x ∧ ∀ c : Circuit F, c.qubits = width →
      ∃ c', read x c = .ok c' ∧ c.NamesMore (names i) c') :
    ∃ xs, is.mapM write = .ok xs ∧ ∀ c : Circuit F, c.qubits = width →
      ∃ c', xs.foldlM (fun c x => read x c) c = .ok c' ∧ c.NamesMore (is.flatMap names) c' := by
  induction is with
  | nil => exact ⟨[], rfl, fun c _ => ⟨c, rfl, .refl c⟩⟩
  | cons i is ih =>
    obtain ⟨hi, his⟩ := List.forall_mem_cons.mp hstep
    obtain ⟨x, hwrite, hread⟩ := hi
    obtain ⟨xs, hwrites, hreads⟩ := ih his
    refine ⟨x :: xs, mapM_eq_ok_iff.mpr (.cons hwrite (mapM_eq_ok_iff.mp hwrites)), fun c hc => ?_⟩
    obtain ⟨c₁, hc₁, hmore₁⟩ := hread c hc
    obtain ⟨c₂, hc₂, hmore₂⟩ := hreads c₁ (hmore₁.qubits.trans hc)
    exact ⟨c₂, bind_eq_ok_iff.mpr ⟨c₁, hc₁, hc₂⟩, hmore₁.trans hmore₂⟩

end Circuit

end Interchange
