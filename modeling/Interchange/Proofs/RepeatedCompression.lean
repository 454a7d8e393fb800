import Mathlib.Algebra.Group.Nat.Even
import Interchange.Proofs.LayoutMarker

namespace Interchange.Circuit

/-- How often a flag is raised in a list: set where the one before it is not. -/
def raised (before : Bool) (flags : List Bool) : ℕ :=
  ((before :: flags).zip flags).count (false, true)

theorem odd_raised_cons (before flag : Bool) (flags : List Bool) :
    decide (Odd (raised before (flag :: flags))) =
      ((!before && flag) ^^ decide (Odd (raised flag flags))) := by
  have hcount : raised before (flag :: flags) =
      raised flag flags + if !before && flag then 1 else 0 := by
    rw [raised, List.zip_cons_cons, List.count_cons]
    cases before <;> cases flag <;> rfl
  rw [hcount]
  cases before <;> cases flag <;> simp [Nat.odd_add_one, -Nat.not_odd_iff_even]

section Dense

variable {F : Type} {c : Circuit F}

/-- The circuit on its referenced qubits in one order, marked with another. -/
def denseMarked (c : Circuit F) (reverse marker : Bool) : Circuit F :=
  { c.dense reverse with layout := some marker }

/-- Places within the whole range: those of the front stay, those from the back turn the order. -/
theorem densePlace_range_densePlace {qs : List ℕ} (hnodup : qs.Nodup) {q : ℕ} (hq : q ∈ qs)
    (first second : Bool) :
    densePlace (List.range qs.length) second (densePlace qs first q) =
      densePlace qs (first ^^ second) q := by
  have hlt (reverse : Bool) : densePlace qs reverse q < (List.range qs.length).length := by
    rw [List.length_range]
    exact (exists_densePlace_iff hnodup reverse _).mp ⟨q, hq, rfl⟩
  have hplace := densePlace_getElem List.nodup_range (hlt first) second
  rw [List.getElem_range, List.length_range] at hplace
  rw [hplace]
  obtain ⟨k, hk, rfl⟩ := List.mem_iff_getElem.mp hq
  rw [densePlace_getElem hnodup hk, densePlace_getElem hnodup hk]
  cases first <;> cases second <;> simp
  omega

theorem dense_denseMarked (c : Circuit F) (first marker second : Bool) :
    (c.denseMarked first marker).dense second = c.denseMarked (first ^^ second) second := by
  have hreferenced : (c.denseMarked first marker).referenced = List.range c.referenced.length :=
    c.referenced_dense first
  have hmoved : ((c.denseMarked first marker).dense second).instructions =
      (c.denseMarked (first ^^ second) second).instructions := by
    unfold dense
    rw [hreferenced]
    refine (List.map_map ..).trans (List.map_congr_left fun i hi => ?_)
    rw [Function.comp_apply, List.map_map]
    congr 1
    refine List.map_congr_left fun q hq => ?_
    exact densePlace_range_densePlace c.nodup_referenced (mem_referenced.mpr ⟨i, hi, hq⟩) _ _
  have hwidth : ((c.denseMarked first marker).dense second).qubits = c.referenced.length :=
    (congrArg List.length hreferenced).trans List.length_range
  calc (c.denseMarked first marker).dense second
      = { (c.denseMarked first marker) with
          qubits := ((c.denseMarked first marker).dense second).qubits
          instructions := ((c.denseMarked first marker).dense second).instructions
          layout := some second } := rfl
    _ = c.denseMarked (first ^^ second) second := by rw [hwidth, hmoved]; rfl

/-- Both orders are the same only where there are no two qubits to order. -/
theorem dense_instructions_eq_iff (first second : Bool) :
    (c.dense first).instructions = (c.dense second).instructions ↔
      first = second ∨ c.referenced.length ≤ 1 := by
  have hplaces : (c.dense first).instructions = (c.dense second).instructions ↔
      ∀ q ∈ c.referenced,
        densePlace c.referenced first q = densePlace c.referenced second q := by
    unfold dense
    rw [List.map_inj_left]
    constructor
    · intro h q hq
      obtain ⟨i, hi, hqi⟩ := mem_referenced.mp hq
      exact List.map_inj_left.mp (congrArg Instruction.qubits (h i hi)) q hqi
    · intro h i hi
      rw [List.map_congr_left fun q hq => h q (mem_referenced.mpr ⟨i, hi, hq⟩)]
  rw [hplaces]
  constructor
  · intro h
    by_contra hne
    rw [not_or, not_le] at hne
    -- of several qubits the first one changes its place
    have hfirst := h _ (List.getElem_mem (Nat.zero_lt_of_lt hne.2))
    rw [densePlace_getElem c.nodup_referenced, densePlace_getElem c.nodup_referenced] at hfirst
    cases first <;> cases second <;> simp at hne hfirst <;> omega
  · rintro (rfl | hle) q hq
    · rfl
    · have hlt (reverse : Bool) :=
        (exists_densePlace_iff c.nodup_referenced reverse _).mp ⟨q, hq, rfl⟩
      have := hlt first
      have := hlt second
      omega

theorem denseMarked_eq_dense_iff (order marker : Bool) :
    c.denseMarked order marker = c.dense marker ↔
      order = marker ∨ c.referenced.length ≤ 1 := by
  rw [← dense_instructions_eq_iff]
  constructor
  · intro h
    change (c.denseMarked order marker).instructions = _
    rw [h]
  · intro h
    calc c.denseMarked order marker
        = { c.dense marker with instructions := (c.dense order).instructions } := rfl
      _ = c.dense marker := by rw [h]

end Dense

variable {F : Type} {c : Circuit F}

/-- One compression of a dense circuit records its flag, and turns the order where the flag is
raised. -/
theorem compress_denseMarked (hw : c.WellFormed) (reverse marker flag : Bool) :
    (c.denseMarked reverse marker).compress flag =
      .ok (c.denseMarked (reverse ^^ (!marker && flag)) flag) := by
  by_cases hmarker : marker = flag
  · subst hmarker
    have hlayout : (c.denseMarked reverse marker).layout = some marker := rfl
    rw [compress, if_pos hlayout, Bool.not_and_self, Bool.xor_false]
  · have hwd : (c.denseMarked reverse marker).WellFormed := dense_wellFormed hw reverse
    rw [(compress_eq_ok_iff fun h => hmarker (Option.some.inj h)).mpr
      ⟨dense_wellFormed hwd flag, rfl⟩, dense_denseMarked]
    -- one of the flags is set: the order is turned by a flag that is, kept by one that is not
    cases marker <;> cases flag <;> simp at hmarker ⊢

theorem foldlM_compress_denseMarked (hw : c.WellFormed) (reverse marker : Bool)
    (flags : List Bool) :
    flags.foldlM compress (c.denseMarked reverse marker) =
      .ok (c.denseMarked (reverse ^^ decide (Odd (raised marker flags)))
        (flags.getLastD marker)) := by
  induction flags generalizing reverse marker with
  | nil =>
    have hnone : decide (Odd (raised marker [])) = false := rfl
    rw [hnone, Bool.xor_false]
    rfl
  | cons flag flags ih =>
    rw [List.foldlM_cons, compress_denseMarked hw]
    refine (ih _ flag).trans ?_
    rw [odd_raised_cons, Bool.xor_assoc, List.getLastD_cons]

theorem foldlM_compress_of_layout_eq_none (hw : c.WellFormed) (hlayout : c.layout = none)
    (flags : List Bool) (last : Bool) :
    (flags ++ [last]).foldlM compress c =
      .ok (c.denseMarked (decide (Odd (raised false (flags ++ [last])))) last) := by
  have hfirst (flag : Bool) : c.compress flag = .ok (c.denseMarked flag flag) :=
    (compress_eq_ok_iff (by simp [hlayout])).mpr ⟨dense_wellFormed hw flag, rfl⟩
  cases flags with
  | nil =>
    refine (congrArg (· >>= pure) (hfirst last)).trans ?_
    cases last <;> rfl
  | cons flag flags =>
    rw [List.cons_append, List.foldlM_cons, hfirst]
    refine (foldlM_compress_denseMarked hw flag flag _).trans ?_
    rw [odd_raised_cons, List.getLastD_concat]
    rfl

/-- However a circuit is compressed, the last flag is recorded. The qubits are in reversed order
just if the flag was raised an odd number of times on the way, so the last compression decides
alone just if the order agrees with it, or there are no two qubits to order. -/
theorem foldlM_compress (hw : c.WellFormed) (hlayout : c.layout = none) (flags : List Bool)
    (last : Bool) :
    ∃ order : Bool, (order = true ↔ Odd (raised false (flags ++ [last]))) ∧
      (flags ++ [last]).foldlM compress c = .ok { c.dense order with layout := some last } ∧
      (∀ p ∈ c.referenced, ∀ q ∈ c.referenced, p < q →
        (densePlace c.referenced order q < densePlace c.referenced order p ↔ order = true)) ∧
      ((flags ++ [last]).foldlM compress c = c.compress last ↔
        order = last ∨ c.referenced.length ≤ 1) := by
  have hrun := foldlM_compress_of_layout_eq_none hw hlayout flags last
  refine ⟨_, decide_eq_true_iff, hrun, fun p hp q hq hlt => ?_, ?_⟩
  · rw [densePlace_lt_iff c.pairwise_referenced hq hp]
    cases decide (Odd (raised false (flags ++ [last]))) <;> simp <;> omega
  · rw [hrun, (compress_eq_ok_iff (by simp [hlayout])).mpr ⟨dense_wellFormed hw last, rfl⟩,
      Except.ok.injEq, denseMarked_eq_dense_iff]

theorem foldlM_compress_apart :
    apart.WellFormed ∧ apart.layout = none ∧
      [false, true, true].foldlM compress apart = apart.compress true ∧
      [true, false].foldlM compress apart ≠ apart.compress false := by
  obtain ⟨hw, hlayout⟩ := built_apart.wellFormed
  obtain ⟨order, horder, -, -, hiff⟩ := foldlM_compress hw hlayout [false, true] true
  obtain ⟨order', horder', -, -, hiff'⟩ := foldlM_compress hw hlayout [true] false
  have hturned : order = true := horder.mpr (by decide)
  have hturned' : order' = true := horder'.mpr (by decide)
  refine ⟨hw, hlayout, hiff.mpr (.inl hturned), fun h => ?_⟩
  rcases hiff'.mp h with hkept | hsingle
  · rw [hturned'] at hkept
    cases hkept
  · exact absurd hsingle (by decide)

/-- A circuit that was reversed stays so, and is marked as if it were not. -/
theorem compress_after_reversal :
    (apart.WellFormed ∧ apart.layout = none) ∧
      ∃ c₁ c₂, [true, false].foldlM compress apart = .ok c₁ ∧ apart.compress false = .ok c₂ ∧
        c₁.layout = some false ∧ c₂.layout = some false ∧
        c₁.instructions.map (·.qubits) = [[1], [1, 0], [0]] ∧
        c₂.instructions.map (·.qubits) = [[0], [0, 1], [1]] :=
  ⟨built_apart.wellFormed, _, _, rfl, rfl, rfl, rfl, rfl, rfl⟩

end Interchange.Circuit
