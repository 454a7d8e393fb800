import Interchange.Proofs.LoweringCoverage
import Interchange.Proofs.LoweringMeaning
import Interchange.Proofs.StandardGate

noncomputable section
namespace Interchange
open Synthesis

theorem Gate.HasValues.exists_matrix {g : Gate ℝ} {values : List ℝ} (h : g.HasValues values)
    (hm : g.tag ≠ .measure) : ∃ m, g.matrix = some m := by
  rw [h.matrix]
  exact Tag.exists_matrix h.tag_ne hm h.length_eq

theorem Instruction.isSome_matrix {i : Instruction ℝ} (h : i.gate.IsStandard)
    (hm : i.isMeasure = false) : i.gate.matrix.isSome = true := by
  obtain ⟨values, hvalues⟩ := h
  exact Option.isSome_iff_exists.mpr (hvalues.exists_matrix (by simpa [isMeasure, tag] using hm))

theorem Gate.isStandard_of_new {tag : Tag} {params : List (Param ℝ)} {g : Gate ℝ}
    {m : Operator ℝ} (h : new tag params = .ok g) (hm : g.matrix = some m) : g.IsStandard := by
  obtain ⟨-, -, -, hg⟩ := new_eq_ok_iff.mp h
  rw [hg] at hm
  obtain ⟨values, hv, -⟩ := Option.bind_eq_some_iff.mp hm
  refine ⟨values, .of_new h ?_⟩
  rw [values?, mapM_eq_some_iff, List.forall₂_map_left_iff] at hv
  refine mapM_eq_some_iff.mpr (hv.imp fun p v hp => ?_)
  rwa [Param.simplify_value? fun w hw => by simp [beq_iff_eq.mp hw]] at hp

namespace Synthesis

/-- The replacement of a gate with a rule multiplies out to the gate, and its gates have numbers. -/
theorem exists_closedForm {g : Gate ℝ} {values : List ℝ} (hg : g.HasValues values)
    (ht : g.tag ∈ ruleTags) :
    ∃ seq, closedForm g = .ok (some seq) ∧ Realizes seq g ∧
      ∀ s ∈ seq, s.gate.IsStandard ∧ s.gate.tag ∈ Tag.commonCore := by
  have hgate : g = ⟨g.tag, g.params, g.tag.matrix? values⟩ := by rw [← hg.matrix]
  obtain ⟨seq, hseq, hreal, hcore⟩ := closedForm_of_rule ht hg.length_params hg.params
  rw [← hgate] at hseq hreal
  refine ⟨seq, hseq, hreal, fun s hs => ?_⟩
  obtain ⟨m, z, -, -, hproduct⟩ := hreal
  obtain ⟨tag, -, params, hnew⟩ := closedForm_allCore hseq s hs
  obtain ⟨m', hm'⟩ := exists_matrix_of_timeProduct hproduct _ (List.mem_map_of_mem hs)
  exact ⟨Gate.isStandard_of_new hnew hm', hcore s hs⟩

theorem mem_ruleTags {tag : Tag} (hcore : tag ∉ Tag.commonCore) (hu : tag ≠ .unitary)
    (hm : tag ≠ .measure) : tag ∈ ruleTags := by
  revert hcore hu hm
  cases tag <;> decide

end Synthesis

theorem flatten_of_singletons {α : Type} {xs : List α} {ys : List (List α)}
    (h : List.Forall₂ (fun x y => y = [x]) xs ys) : ys.flatten = xs := by
  induction h with
  | nil => rfl
  | cons hx _ ih => rw [hx, List.flatten_cons, ih, List.singleton_append]

namespace Lowering

variable [Eigensolver ℝ] {table : GateTable} {b : Bindings ℝ} {tolerance : ℝ} {levels n : ℕ}
  {i : Instruction ℝ} {out : List (Instruction ℝ)}

theorem Asked.supports_eq_false {g : Gate ℝ} {seq : Sequence ℝ}
    (h : Asked table b tolerance levels i g seq) : table.supports g.tag = false := by
  induction h with
  | here _ _ hs _ => exact hs
  | deeper _ _ _ _ _ _ _ ih => exact ih

theorem eq_singleton_of_supports (hm : i.isMeasure = false)
    (hn : i.gate.isParameterized = false) (hs : table.supports i.tag = true)
    (h : instruction table b tolerance levels i = .ok out) : out = [i] := by
  rcases instruction_cases h with ⟨hmeasure, -⟩ | ⟨-, g, hg, hcases⟩
  · rw [hm] at hmeasure
    cases hmeasure
  obtain rfl : i.gate = g := Except.ok.inj ((bindFor_of_not_parameterized hn).symm.trans hg)
  rcases hcases with ⟨-, j, hj, rfl⟩ | ⟨hunsupported, -⟩
  · obtain ⟨-, rfl⟩ := Instruction.withGate_eq_ok_iff.mp hj
    rfl
  · rw [Instruction.tag, hunsupported] at hs
    cases hs

section

variable (hcore : ∀ tag ∈ Tag.commonCore, table.supports tag = true)

include hcore

omit [Eigensolver ℝ] in
theorem tag_mem_ruleTags {g : Gate ℝ} (hg : g.IsStandard) (hm : g.tag ≠ .measure)
    (hs : table.supports g.tag = false) : g.tag ∈ ruleTags := by
  obtain ⟨values, hvalues⟩ := hg
  refine mem_ruleTags (fun hmem => ?_) hvalues.tag_ne hm
  rw [hcore _ hmem] at hs
  cases hs

theorem realizes_of_asked (hi : i.gate.IsStandard) {g : Gate ℝ} {seq : Sequence ℝ}
    (h : Asked table b tolerance levels i g seq) : Realizes seq g := by
  obtain ⟨hm, hg, hseq⟩ := h.top hcore
  obtain ⟨values, hvalues⟩ := hi
  obtain rfl : i.gate = g :=
    Except.ok.inj ((bindFor_of_not_parameterized hvalues.not_parameterized).symm.trans hg)
  have hmeasure : i.gate.tag ≠ .measure := by
    simpa [Instruction.isMeasure, Instruction.tag] using hm
  have ht := tag_mem_ruleTags hcore ⟨values, hvalues⟩ hmeasure h.supports_eq_false
  obtain ⟨seq', hclosed, hreal, -⟩ := exists_closedForm hvalues ht
  rw [decompose_of_rule hclosed] at hseq
  obtain rfl := Except.ok.inj hseq
  exact hreal

/-- A gate that the table lacks becomes its rule, placed on its qubits. -/
theorem exists_placed (hi : i.gate.IsStandard) (hm : i.isMeasure = false)
    (hs : table.supports i.tag = false) (h : instruction table b tolerance levels i = .ok out) :
    ∃ seq, Substitute.placeAll seq i.qubits = .ok out ∧
      ∀ s ∈ seq, s.gate.IsStandard ∧ s.gate.tag ∈ Tag.commonCore := by
  obtain ⟨values, hvalues⟩ := hi
  have hmeasure : i.gate.tag ≠ .measure := by
    simpa [Instruction.isMeasure, Instruction.tag] using hm
  have ht := tag_mem_ruleTags hcore ⟨values, hvalues⟩ hmeasure hs
  obtain ⟨seq, hclosed, -, hgates⟩ := exists_closedForm hvalues ht
  rcases instruction_cases h with ⟨hmeasure', -⟩ | ⟨-, g, hg, hcases⟩
  · rw [hm] at hmeasure'
    cases hmeasure'
  obtain rfl : i.gate = g :=
    Except.ok.inj ((bindFor_of_not_parameterized hvalues.not_parameterized).symm.trans hg)
  rcases hcases with
    ⟨hsupported, -⟩ | ⟨-, rest, seq', placed, outs, rfl, hseq', hplaced, houts, rfl⟩
  · rw [Instruction.tag, hsupported] at hs
    cases hs
  obtain rfl := Except.ok.inj ((decompose_of_rule hclosed).symm.trans hseq')
  refine ⟨seq, ?_, hgates⟩
  -- the gates of a rule are in the table, so that nothing more is replaced
  have hsingle : List.Forall₂ (fun j out => out = [j]) placed outs := by
    refine ((List.forall₂_and_left _ _).mpr ⟨fun j hj => hj, mapM_eq_ok_iff.mp houts⟩).imp ?_
    rintro j out ⟨hj, hout⟩
    have hgate := isMeasure_of_placed hseq' hplaced j hj
    obtain ⟨s, hmem, hplace⟩ := exists_of_forall₂_right (mapM_eq_ok_iff.mp hplaced) hj
    obtain ⟨-, -, -, rfl⟩ := Substitute.place_eq_ok_iff.mp hplace
    obtain ⟨⟨_, hstandard⟩, htag⟩ := hgates s hmem
    exact eq_singleton_of_supports hgate hstandard.not_parameterized (hcore _ htag) hout
  rwa [flatten_of_singletons hsingle]

/-- Lowering a gate with numbers gives gates with numbers. -/
theorem instruction_standard (hi : i.gate.IsStandard)
    (h : instruction table b tolerance levels i = .ok out) :
    ∀ j ∈ out, j.gate.IsStandard ∧ (j = i ∨ j.clbits = []) := by
  cases hm : i.isMeasure with
  | true =>
    rcases instruction_cases h with ⟨-, rfl⟩ | ⟨hm', -⟩
    · split_ifs
      · exact fun j hj => absurd hj List.not_mem_nil
      · exact List.forall_mem_singleton.mpr ⟨hi, .inl rfl⟩
    · rw [hm] at hm'
      cases hm'
  | false =>
    cases hs : table.supports i.tag with
    | true =>
      obtain ⟨values, hvalues⟩ := hi
      rw [eq_singleton_of_supports hm hvalues.not_parameterized hs h]
      exact List.forall_mem_singleton.mpr ⟨⟨values, hvalues⟩, .inl rfl⟩
    | false =>
      obtain ⟨seq, hplaced, hgates⟩ := exists_placed hcore hi hm hs h
      intro j hj
      obtain ⟨s, hmem, hplace⟩ := exists_of_forall₂_right (mapM_eq_ok_iff.mp hplaced) hj
      obtain ⟨-, -, -, rfl⟩ := Substitute.place_eq_ok_iff.mp hplace
      exact ⟨(hgates s hmem).1, .inr rfl⟩

/-- Lowering a circuit of gates with numbers keeps what it does up to a phase, and gives gates with
numbers again. -/
theorem circuit_standard {c c' : Circuit ℝ} (hw : c.WellFormed)
    (hs : ∀ i ∈ c.instructions, i.gate.IsStandard) (h : circuit table b tolerance c = .ok c') :
    Preserves c.qubits c.instructions c'.instructions ∧
      ∀ j ∈ c'.instructions, j.gate.IsStandard ∧ (j ∈ c.instructions ∨ j.clbits = []) := by
  obtain ⟨outs, houts, -, rfl⟩ := circuit_eq_ok_iff.mp h
  have hforall := mapM_eq_ok_iff.mp houts
  refine ⟨.flatten ?_, ?_⟩
  · refine ((List.forall₂_and_left _ _).mpr ⟨fun i hi => hi, hforall⟩).imp ?_
    rintro i out ⟨hi, hout⟩
    refine instruction_preserves (hw i hi) ?_ (fun _ _ => realizes_of_asked hcore (hs i hi)) hout
    intro hm
    obtain ⟨values, hvalues⟩ := hs i hi
    refine ⟨hvalues.not_parameterized, hvalues.exists_matrix ?_⟩
    simpa [Instruction.isMeasure, Instruction.tag] using hm
  · intro j hj
    obtain ⟨out, hout, hj⟩ := List.mem_flatten.mp hj
    obtain ⟨i, hi, hiout⟩ := exists_of_forall₂_right hforall hout
    obtain ⟨hstandard, hfrom⟩ := instruction_standard hcore (hs i hi) hiout j hj
    refine ⟨hstandard, hfrom.imp_left ?_⟩
    rintro rfl
    exact hi

end

end Lowering

end Interchange
end
