import Interchange.Proofs.ParamRereading
import Interchange.Proofs.StandardGate

namespace Interchange

theorem Param.isAdmissible_simplify {F : Type} [Scalar F] [FiniteAngles F] (p : Param F) :
    p.simplify.isAdmissible = p.isAdmissible :=
  isAdmissible_congr (isSymbolic_simplify p) (value?_simplified p)

namespace Gate

section

variable {F : Type} [Scalar F] {tag : Tag} {params : List (Param F)} {g : Gate F}

/-- Binding parameters builds the gate anew from its tag, or leaves it. -/
theorem exists_new_of_substitute (h : ∃ params, new tag params = .ok g) (b : Bindings F) :
    Returns (g.substitute b) fun g' => ∃ params, new tag params = .ok g' := by
  intro g' hg'
  have htag : g.tag = tag := by
    obtain ⟨_, hnew⟩ := h
    exact tag_of_new hnew
  rw [substitute, htag] at hg'
  split_ifs at hg'
  · exact ⟨_, hg'⟩
  · obtain rfl := Except.ok.inj hg'
    exact h

theorem exists_new_of_substitutions {bs : List (Bindings F)}
    (h : (new tag params >>= bs.foldlM substitute) = .ok g) :
    ∃ params, new tag params = .ok g := by
  have hbuilt : Returns (new tag params) fun g => ∃ params, new tag params = .ok g :=
    fun _ hnew => ⟨params, hnew⟩
  exact hbuilt.bind (fun _ hg => .foldlM (fun _ hg b _ => exists_new_of_substitute hg b) hg) g h

theorem values?_map_simplify [FiniteAngles F] (params : List (Param F)) :
    values? (params.map Param.simplify) = values? params := by
  rw [values?, List.mapM_map, values?]
  exact congrArg (params.mapM ·) (funext Param.value?_simplified)

/-- The parameters of the gate under the controls are simplified once more. -/
theorem base?_of_new [FiniteAngles F] (h : new tag params = .ok g) {base : Tag}
    (hb : tag.base? = some base) :
    g.base? = some ⟨base, g.params.map Param.simplify, g.numeric?.bind base.matrix?⟩ := by
  have hbase := Tag.isBase_of_base? hb
  obtain ⟨-, hl, hadmissible, rfl⟩ := new_eq_ok_iff.mp h
  have hcount : (params.map Param.simplify).length = base.paramCount := by
    rw [List.length_map, hl, hbase.paramCount_eq]
  have hnew := new_eq_ok_iff.mpr ⟨hbase.ne_unitary, hcount, List.forall_mem_map.mpr fun p hp =>
    (Param.isAdmissible_simplify p).trans (hadmissible p hp), rfl⟩
  rw [values?_map_simplify] at hnew
  rw [base?, hb, Option.bind_some, if_pos hcount.symm, hnew]
  rfl

theorem base?_isSome_of_new [FiniteAngles F] (h : new tag params = .ok g) :
    g.base?.isSome = true ↔ 0 < g.controls := by
  rw [controls, tag_of_new h, ← Tag.base?_isSome_iff]
  cases hb : tag.base? with
  | none =>
    rw [base?, tag_of_new h, hb]
    rfl
  | some base => exact iff_of_true (by rw [base?_of_new h hb, Option.isSome_some]) rfl

end

/-- `b` is the gate under the controls of `g`. -/
structure IsUnder (g b : Gate Float) : Prop where
  tag : g.tag.base? = some b.tag
  params : List.Forall₂ (fun p q => q.refs = p.refs ∧ q.SameValues p) g.params b.params
  qubits : g.controls + b.qubits = g.qubits
  matrix : g.matrix = b.matrix.map (·.controlled g.controls)

/-- The parts of a gate belong together. -/
structure Coherent (g : Gate Float) : Prop where
  length_params : g.params.length = g.tag.paramCount
  finite : ∀ p ∈ g.params, p.isSymbolic = false →
    ∃ v, p.value? = some v ∧ Scalar.isFinite v = true
  matrix_isSome : g.matrix.isSome = true ↔ g.isParameterized = false ∧ g.tag ≠ .measure
  matrix : ∀ m, g.matrix = some m →
    ∃ values, g.numeric? = some values ∧ g.tag.matrix? values = some m ∧ m.dim = 2 ^ g.qubits
  base_isSome : g.base?.isSome = true ↔ 0 < g.controls
  base : ∀ b, g.base? = some b → g.IsUnder b

variable {tag : Tag} {params : List (Param Float)} {g : Gate Float}

theorem isUnder_of_new (h : new tag params = .ok g) {b : Gate Float} (hb : g.base? = some b) :
    g.IsUnder b := by
  obtain ⟨base, htag, -⟩ := Option.bind_eq_some_iff.mp hb
  rw [tag_of_new h] at htag
  rw [base?_of_new h htag] at hb
  obtain rfl := Option.some.inj hb
  have hbase := Tag.isBase_of_base? htag
  obtain ⟨hu, hl, -, rfl⟩ := new_eq_ok_iff.mp h
  refine ⟨htag, ?_, ?_, ?_⟩
  · rw [List.forall₂_map_right_iff, List.forall₂_same]
    intro p hp
    -- what was simplified once is folded, and only a double negation can still go
    obtain ⟨p, -, rfl⟩ := List.mem_map.mp hp
    exact ⟨Param.collect_simplify _ [],
      Param.sameValues_of_sameIn fun _ hneg => (Param.folded_simplify p).sameIn_simplify hneg⟩
  · obtain ⟨k, hk, hqubits⟩ := hbase.qubits?_eq
    rw [qubits_of_tag hbase.ne_unitary, qubits_of_tag hu]
    simp [controls, hk, hqubits]
  · dsimp only [numeric?, controls]
    cases hvalues : values? (params.map Param.simplify) with
    | none => rfl
    | some values =>
      have hlength := (mapM_eq_some_iff.mp hvalues).length_eq
      rw [List.length_map, hl] at hlength
      exact Tag.matrix?_of_base hlength.symm htag

theorem coherent_of_new (h : new tag params = .ok g) : g.Coherent := by
  have hbuilt := isBuilt_of_new h
  obtain ⟨hu, -, -, hg⟩ := new_eq_ok_iff.mp h
  refine ⟨hbuilt.length_params, fun p => hbuilt.exists_finite_of_not_symbolic, ?_, ?_,
    base?_isSome_of_new h, fun _ => isUnder_of_new h⟩
  · rw [Option.isSome_iff_exists, tag_of_new h]
    constructor
    · rintro ⟨m, hm⟩
      refine ⟨isParameterized_of_new h hm, ?_⟩
      rintro rfl
      rw [hg] at hm
      obtain ⟨values, -, hm⟩ := Option.bind_eq_some_iff.mp hm
      rw [Tag.matrix?_measure] at hm
      cases hm
    · rintro ⟨hn, hmeasure⟩
      exact exists_matrix_of_new h hmeasure hn
  · intro m hm
    obtain ⟨k, hk⟩ := Tag.exists_qubits? hu
    rw [qubits_of_tag (by rwa [tag_of_new h]), tag_of_new h, hk]
    rw [hg] at hm ⊢
    obtain ⟨values, hvalues, hm⟩ := Option.bind_eq_some_iff.mp hm
    exact ⟨values, hvalues, hm, Tag.dim_of_matrix? hm hk⟩

/-- A gate that was built from a tag stays coherent, whatever is bound in it. -/
theorem coherent_of_substitutions {bs : List (Bindings Float)}
    (h : (new tag params >>= bs.foldlM substitute) = .ok g) : g.tag = tag ∧ g.Coherent := by
  obtain ⟨_, hnew⟩ := exists_new_of_substitutions h
  exact ⟨tag_of_new hnew, coherent_of_new hnew⟩

theorem coherent_of_substitutions_turn :
    ∃ g b g' : Gate Float,
      (new .crz [.minusNegated] >>= [].foldlM substitute) = .ok g ∧ g.Coherent ∧
      g.params = [.neg (.neg (.ref ⟨0, "x"⟩))] ∧
      g.base? = some b ∧ b.params = [.ref ⟨0, "x"⟩] ∧
      (new .crz [.minusNegated] >>= [⟨[("y", 1)]⟩, ⟨[("x", 2)]⟩].foldlM substitute) = .ok g' ∧
      g'.Coherent ∧ g'.params = [.const 2] ∧ g'.matrix.isSome = true := by
  have hsymbolic : (new .crz [.minusNegated] >>= [].foldlM substitute) =
      .ok ⟨.crz, [.neg (.neg (.ref ⟨0, "x"⟩))], none⟩ := rfl
  have hnumeric : (new .crz [.minusNegated] >>= [⟨[("y", 1)]⟩, ⟨[("x", 2)]⟩].foldlM substitute) =
      .ok ⟨.crz, [.const 2], Tag.crz.matrix? [2]⟩ := rfl
  exact ⟨_, ⟨.rz, [.ref ⟨0, "x"⟩], none⟩, _, hsymbolic, (coherent_of_substitutions hsymbolic).2,
    rfl, rfl, rfl, hnumeric, (coherent_of_substitutions hnumeric).2, rfl, rfl⟩

end Gate

end Interchange
