import Mathlib.Data.List.GetD
import Mathlib.Data.List.Sort
import Interchange.Circuit.Layout
import Interchange.Proofs.StandardGate

namespace Interchange

theorem mem_insertIncreasing {x q : ℕ} {ps : List ℕ} :
    x ∈ insertIncreasing q ps ↔ x = q ∨ x ∈ ps := by
  induction ps with
  | nil => simp [insertIncreasing]
  | cons p ps ih =>
    unfold insertIncreasing
    split_ifs with hlt heq
    · rw [List.mem_cons]
    · subst heq
      simp
    · simp only [List.mem_cons, ih]
      tauto

theorem pairwise_insertIncreasing {q : ℕ} {ps : List ℕ} (h : ps.Pairwise (· < ·)) :
    (insertIncreasing q ps).Pairwise (· < ·) := by
  induction ps with
  | nil => simp [insertIncreasing]
  | cons p ps ih =>
    obtain ⟨hp, hps⟩ := List.pairwise_cons.mp h
    unfold insertIncreasing
    split_ifs with hlt heq
    · refine List.pairwise_cons.mpr ⟨?_, h⟩
      intro x hx
      rcases List.mem_cons.mp hx with rfl | hx
      · exact hlt
      · exact hlt.trans (hp x hx)
    · exact h
    · refine List.pairwise_cons.mpr ⟨?_, ih hps⟩
      intro x hx
      rcases mem_insertIncreasing.mp hx with rfl | hx
      · omega
      · exact hp x hx

variable {F : Type}

namespace Circuit

theorem mem_referenced {c : Circuit F} {q : ℕ} :
    q ∈ c.referenced ↔ ∃ i ∈ c.instructions, q ∈ i.qubits := by
  have hfold (xs qs : List ℕ) : q ∈ xs.foldl (fun qs q => insertIncreasing q qs) qs ↔
      q ∈ xs ∨ q ∈ qs := by
    induction xs generalizing qs with
    | nil => simp
    | cons x xs ih =>
      rw [List.foldl_cons, ih, mem_insertIncreasing, List.mem_cons]
      tauto
  rw [referenced, hfold, List.mem_flatMap]
  simp

theorem pairwise_referenced (c : Circuit F) : c.referenced.Pairwise (· < ·) := by
  have hfold (xs qs : List ℕ) (h : qs.Pairwise (· < ·)) :
      (xs.foldl (fun qs q => insertIncreasing q qs) qs).Pairwise (· < ·) := by
    induction xs generalizing qs with
    | nil => exact h
    | cons x xs ih => exact ih _ (pairwise_insertIncreasing h)
  exact hfold _ _ .nil

theorem referenced_eq_range {c : Circuit F} {m : ℕ}
    (h : ∀ q, (∃ i ∈ c.instructions, q ∈ i.qubits) ↔ q < m) : c.referenced = List.range m := by
  refine c.pairwise_referenced.eq_of_mem_iff List.pairwise_lt_range fun q => ?_
  rw [mem_referenced, h, List.mem_range]

/-- The circuit on the referenced qubits only, in their order or reversed. -/
def dense (c : Circuit F) (reverse : Bool) : Circuit F :=
  { c with
    qubits := c.referenced.length
    instructions := c.instructions.map fun i =>
      { i with qubits := i.qubits.map (densePlace c.referenced reverse) }
    layout := some reverse }

section

variable {qs : List ℕ} {p q m : ℕ}

theorem densePlace_getElem (hnodup : qs.Nodup) {k : ℕ} (hk : k < qs.length) (reverse : Bool) :
    densePlace qs reverse qs[k] = if reverse then qs.length - 1 - k else k := by
  have hindex : qs.idxOf? qs[k] = some k := by
    refine List.idxOf?_eq_some_iff.mpr ⟨hk, rfl, ?_⟩
    intro j hj heq
    have hjk := (hnodup.getElem_inj_iff).mp heq
    omega
  rw [densePlace, hindex]

theorem densePlace_range (hq : q < m) : densePlace (List.range m) false q = q := by
  have hk : q < (List.range m).length := by simpa using hq
  have hplace := densePlace_getElem List.nodup_range hk false
  rwa [List.getElem_range] at hplace

/-- Places are in the order of the qubits, or in the reversed one. -/
theorem densePlace_lt_iff (hs : qs.Pairwise (· < ·)) (hp : p ∈ qs) (hq : q ∈ qs) (reverse : Bool) :
    densePlace qs reverse p < densePlace qs reverse q ↔ if reverse then q < p else p < q := by
  have hnodup : qs.Nodup := hs.imp fun h => h.ne
  have hmono (a b : ℕ) (ha : a < qs.length) (hb : b < qs.length) : qs[a] < qs[b] ↔ a < b :=
    (List.sortedLT_iff_pairwise.mpr hs).getElem_lt_getElem_iff
  obtain ⟨i, hi, rfl⟩ := List.mem_iff_getElem.mp hp
  obtain ⟨j, hj, rfl⟩ := List.mem_iff_getElem.mp hq
  rw [densePlace_getElem hnodup hi, densePlace_getElem hnodup hj]
  cases reverse with
  | false => exact (hmono i j hi hj).symm
  | true =>
    simp only [if_true, hmono j i hj hi]
    omega

theorem exists_densePlace_iff (hnodup : qs.Nodup) (reverse : Bool) (k : ℕ) :
    (∃ q ∈ qs, densePlace qs reverse q = k) ↔ k < qs.length := by
  constructor
  · rintro ⟨q, hq, rfl⟩
    obtain ⟨j, hj, rfl⟩ := List.mem_iff_getElem.mp hq
    rw [densePlace_getElem hnodup hj]
    split_ifs <;> omega
  · intro hk
    cases reverse with
    | false => exact ⟨qs[k], List.getElem_mem hk, densePlace_getElem hnodup hk false⟩
    | true =>
      have hk' : qs.length - 1 - k < qs.length := by omega
      refine ⟨_, List.getElem_mem hk', ?_⟩
      rw [densePlace_getElem hnodup hk', if_pos rfl]
      omega

theorem densePlace_true (hnodup : qs.Nodup) (hq : q ∈ qs) :
    qs.length - 1 - densePlace qs false q = densePlace qs true q := by
  obtain ⟨j, hj, rfl⟩ := List.mem_iff_getElem.mp hq
  rw [densePlace_getElem hnodup hj, densePlace_getElem hnodup hj]
  simp

end

theorem nodup_referenced (c : Circuit F) : c.referenced.Nodup :=
  c.pairwise_referenced.imp fun h => h.ne

/-- The referenced qubits in the order of their places. -/
def denseOrder (c : Circuit F) (reverse : Bool) : List ℕ :=
  if reverse then c.referenced.reverse else c.referenced

theorem mem_denseOrder {c : Circuit F} {reverse : Bool} {q : ℕ} :
    q ∈ c.denseOrder reverse ↔ q ∈ c.referenced := by
  cases reverse <;> simp [denseOrder]

theorem length_denseOrder (c : Circuit F) (reverse : Bool) :
    (c.denseOrder reverse).length = c.referenced.length := by
  cases reverse <;> simp [denseOrder]

theorem nodup_denseOrder (c : Circuit F) (reverse : Bool) : (c.denseOrder reverse).Nodup := by
  cases reverse with
  | false => exact c.nodup_referenced
  | true => exact List.nodup_reverse.mpr c.nodup_referenced

theorem denseOrder_densePlace {c : Circuit F} {q : ℕ} (hq : q ∈ c.referenced) (reverse : Bool) :
    (c.denseOrder reverse).getD (densePlace c.referenced reverse q) 0 = q := by
  obtain ⟨k, hk, rfl⟩ := List.mem_iff_getElem.mp hq
  rw [densePlace_getElem c.nodup_referenced hk]
  cases reverse with
  | false => exact List.getD_eq_getElem _ _ hk
  | true =>
    have hlt : c.referenced.length - 1 - k < c.referenced.reverse.length := by
      rw [List.length_reverse]
      omega
    change c.referenced.reverse.getD (c.referenced.length - 1 - k) 0 = _
    rw [List.getD_eq_getElem _ _ hlt, List.getElem_reverse]
    congr 1
    omega

theorem dense_wellFormed {c : Circuit F} (hw : c.WellFormed) (reverse : Bool) :
    (c.dense reverse).WellFormed := by
  intro j hj
  obtain ⟨i, hi, rfl⟩ := List.mem_map.mp hj
  have hmem (q : ℕ) (hq : q ∈ i.qubits) : q ∈ c.referenced := mem_referenced.mpr ⟨i, hi, hq⟩
  refine ⟨?_, (hw i hi).nodup.map_on fun p hp q hq hpq => ?_, ?_⟩
  · exact (List.length_map _).trans (hw i hi).length_eq
  · rw [← denseOrder_densePlace (hmem p hp) reverse, hpq, denseOrder_densePlace (hmem q hq)]
  · intro k hk
    obtain ⟨q, hq, rfl⟩ := List.mem_map.mp hk
    exact (exists_densePlace_iff c.nodup_referenced reverse _).mp ⟨q, hmem q hq, rfl⟩

/-- The places that instructions with a property act on are the places of their qubits. -/
theorem mem_qubits_dense {P : Instruction F → Prop}
    (hP : ∀ i qs, P { i with qubits := qs } ↔ P i) (c : Circuit F) (reverse : Bool) (k : ℕ) :
    (∃ j ∈ (c.dense reverse).instructions, P j ∧ k ∈ j.qubits) ↔
      ∃ i ∈ c.instructions, P i ∧ ∃ q ∈ i.qubits, densePlace c.referenced reverse q = k := by
  constructor
  · rintro ⟨j, hj, hPj, hk⟩
    obtain ⟨i, hi, rfl⟩ := List.mem_map.mp hj
    obtain ⟨q, hq, rfl⟩ := List.mem_map.mp hk
    exact ⟨i, hi, (hP i _).mp hPj, q, hq, rfl⟩
  · rintro ⟨i, hi, hPi, q, hq, rfl⟩
    exact ⟨_, List.mem_map_of_mem hi, (hP i _).mpr hPi, List.mem_map_of_mem hq⟩

theorem referenced_dense (c : Circuit F) (reverse : Bool) :
    (c.dense reverse).referenced = List.range c.referenced.length := by
  refine referenced_eq_range fun k => ?_
  have hplaces := mem_qubits_dense (P := fun _ => True) (fun _ _ => Iff.rfl) c reverse k
  simp only [true_and] at hplaces
  rw [hplaces, ← exists_densePlace_iff c.nodup_referenced reverse]
  constructor
  · rintro ⟨i, hi, q, hq, rfl⟩
    exact ⟨q, mem_referenced.mpr ⟨i, hi, hq⟩, rfl⟩
  · rintro ⟨q, hq, rfl⟩
    obtain ⟨i, hi, hq⟩ := mem_referenced.mp hq
    exact ⟨i, hi, q, hq, rfl⟩

/-- Qubits that are dense already stay where they are. -/
theorem instructions_dense_of_range {c : Circuit F} {m : ℕ} (h : c.referenced = List.range m) :
    (c.dense false).instructions = c.instructions := by
  have hmoved (i : Instruction F) (hi : i ∈ c.instructions) :
      i.qubits.map (densePlace c.referenced false) = i.qubits := by
    refine (List.map_congr_left fun q hq => ?_).trans (List.map_id _)
    have hmem : q ∈ c.referenced := mem_referenced.mpr ⟨i, hi, hq⟩
    rw [h, List.mem_range] at hmem
    rw [h, densePlace_range hmem, id]
  refine (List.map_congr_left fun i hi => ?_).trans (List.map_id _)
  rw [hmoved i hi, id]

/-- Whether a gate acts on a qubit; measurements do not count. -/
def Acts (c : Circuit F) (q : ℕ) : Prop := ∃ i ∈ c.instructions, i.isMeasure = false ∧ q ∈ i.qubits

theorem Acts.mem_referenced {c : Circuit F} {q : ℕ} (h : c.Acts q) : q ∈ c.referenced := by
  obtain ⟨i, hi, -, hq⟩ := h
  exact Circuit.mem_referenced.mpr ⟨i, hi, hq⟩

/-- Qubits that are only measured come after all others, in the order in which qubits are placed. -/
def MeasuresLast (c : Circuit F) (reverse : Bool) : Prop :=
  ∀ p q, c.Acts p → q ∈ c.referenced → ¬ c.Acts q → if reverse then q < p else p < q

theorem acts_dense_iff (c : Circuit F) (reverse : Bool) (k : ℕ) :
    (c.dense reverse).Acts k ↔ ∃ q, c.Acts q ∧ densePlace c.referenced reverse q = k := by
  have hplaces := mem_qubits_dense (P := fun i => i.isMeasure = false) (fun _ _ => Iff.rfl) c
    reverse k
  rw [Acts, hplaces]
  constructor
  · rintro ⟨i, hi, hm, q, hq, hk⟩
    exact ⟨q, ⟨i, hi, hm, hq⟩, hk⟩
  · rintro ⟨q, ⟨i, hi, hm, hq⟩, hk⟩
    exact ⟨i, hi, hm, q, hq, hk⟩

/-- Then the places that gates act on are those below a bound. -/
theorem MeasuresLast.exists_acts_iff {c : Circuit F} {reverse : Bool} (h : c.MeasuresLast reverse) :
    ∃ m, ∀ k, (c.dense reverse).Acts k ↔ k < m := by
  classical
  have hlt (k : ℕ) (hk : (c.dense reverse).Acts k) : k < c.referenced.length := by
    obtain ⟨q, hq, hplace⟩ := (acts_dense_iff c reverse k).mp hk
    exact (exists_densePlace_iff c.nodup_referenced reverse k).mp ⟨q, hq.mem_referenced, hplace⟩
  have hbound : ∃ m, ¬ (c.dense reverse).Acts m :=
    ⟨c.referenced.length, fun hk => lt_irrefl _ (hlt _ hk)⟩
  refine ⟨Nat.find hbound, fun k => ⟨fun hk => ?_, fun hk => ?_⟩⟩
  -- a place below one with a gate has a gate too, or it would come after it
  · by_contra hle
    rw [not_lt] at hle
    have hfree := Nat.find_spec hbound
    obtain ⟨p, hp, rfl⟩ := (acts_dense_iff c reverse k).mp hk
    obtain ⟨q, hq, hplace⟩ := (exists_densePlace_iff c.nodup_referenced reverse _).mpr
      (hle.trans_lt (hlt _ hk))
    have hqfree : ¬ c.Acts q := fun hacts =>
      hfree ((acts_dense_iff c reverse _).mpr ⟨q, hacts, hplace⟩)
    have horder := (densePlace_lt_iff c.pairwise_referenced hp.mem_referenced hq reverse).mpr
      (h p q hp hq hqfree)
    omega
  · by_contra hfree
    exact Nat.find_min hbound hk hfree

end Circuit

namespace Instruction

theorem remap_eq_ok_iff {i j : Instruction F} {f : ℕ → ℕ} :
    i.remap f = .ok j ↔
      ((i.qubits.map f).length = i.gate.qubits ∧ (i.qubits.map f).Nodup) ∧
        j = { i with qubits := i.qubits.map f } := by
  rw [remap, bind_eq_ok_iff]
  constructor
  · rintro ⟨_, hc, h⟩
    exact ⟨checkOperands_eq_ok_iff.mp hc, (Except.ok.inj h).symm⟩
  · rintro ⟨hc, rfl⟩
    exact ⟨(), checkOperands_eq_ok_iff.mpr hc, rfl⟩

end Instruction

namespace Circuit

variable {c c' : Circuit F} {reverse : Bool}

/-- A circuit without the layout becomes dense if its operands stay different. -/
theorem compress_eq_ok_iff (h : c.layout ≠ some reverse) :
    c.compress reverse = .ok c' ↔ (c.dense reverse).WellFormed ∧ c' = c.dense reverse := by
  unfold compress
  rw [if_neg h]
  simp only [bind_eq_ok_iff, withShape_eq_ok_iff,
    mapM_eq_ok_map fun _ _ => Instruction.remap_eq_ok_iff]
  constructor
  · rintro ⟨_, ⟨hoperands, rfl⟩, _, ⟨hrange, rfl⟩, hc'⟩
    refine ⟨?_, (Except.ok.inj hc').symm⟩
    intro j hj
    obtain ⟨i, hi, rfl⟩ := List.mem_map.mp hj
    exact ⟨(hoperands i hi).1, (hoperands i hi).2, hrange _ hj⟩
  · rintro ⟨hw, rfl⟩
    have hi (i : Instruction F) (hi : i ∈ c.instructions) := hw _ (List.mem_map_of_mem hi)
    exact ⟨_, ⟨fun i hmem => ⟨(hi i hmem).length_eq, (hi i hmem).nodup⟩, rfl⟩, _,
      ⟨fun j hj => (hw j hj).lt, rfl⟩, rfl⟩

theorem wellFormed_of_compress {reverse : Bool} (hw : c.WellFormed)
    (h : c.compress reverse = .ok c') : c'.WellFormed := by
  by_cases hlayout : c.layout = some reverse
  · rw [compress, if_pos hlayout] at h
    rwa [← Except.ok.inj h]
  · obtain ⟨hdense, rfl⟩ := (compress_eq_ok_iff hlayout).mp h
    exact hdense

/-- The mirror image of the qubits in their order is the reversed order. -/
theorem mirror_dense (h : (c.dense false).mirror = .ok c') :
    c' = { c.dense true with layout := some false } := by
  unfold mirror at h
  simp only [bind_eq_ok_iff, withInstructions_eq_ok_iff,
    mapM_eq_ok_map fun _ _ => Instruction.remap_eq_ok_iff] at h
  obtain ⟨_, ⟨-, rfl⟩, -, rfl⟩ := h
  have hmoved : (c.dense false).instructions.map (fun i =>
      { i with qubits := i.qubits.map fun q => (c.dense false).qubits - 1 - q }) =
      (c.dense true).instructions := by
    unfold dense
    rw [List.map_map]
    refine List.map_congr_left fun i hi => ?_
    rw [Function.comp_apply, List.map_map]
    congr 1
    refine List.map_congr_left fun q hq => ?_
    exact densePlace_true c.nodup_referenced (mem_referenced.mpr ⟨i, hi, hq⟩)
  rw [hmoved]
  rfl

end Circuit

end Interchange
