import Interchange.Proofs.DenseLayout
import Interchange.Proofs.GateMatrix

noncomputable section
namespace Interchange

/-- Each qubit is taken as a position in a list of qubits. -/
def Instruction.onto {F : Type} (qs : List ℕ) (i : Instruction F) : Instruction F :=
  { i with qubits := compose qs i.qubits }

theorem Instruction.WellFormed.onto {F : Type} {n k : ℕ} {qs : List ℕ} (h : QubitList n k qs)
    {i : Instruction F} (hi : i.WellFormed k) : (i.onto qs).WellFormed n := QubitList.compose h hi

theorem actions_onto (qs : List ℕ) (is : List (Instruction ℝ)) :
    actions (is.map (Instruction.onto qs)) = (actions is).map fun a => (a.1, compose qs a.2) := by
  rw [actions, actions, List.filter_map, List.map_map, List.map_map]
  rfl

theorem timeProduct_onto {n k : ℕ} {qs : List ℕ} (h : QubitList n k qs)
    {is : List (Instruction ℝ)} (hw : ∀ i ∈ is, i.WellFormed k) {p : QubitMatrix k}
    (hp : timeProduct k (actions is) = some p) :
    timeProduct n (actions (is.map (Instruction.onto qs))) = some (embed n qs p) := by
  rw [actions_onto]
  refine timeProduct_compose h ?_ hp
  intro x hx
  obtain ⟨i, hi, rfl⟩ := List.mem_map.mp hx
  exact (hw i (List.mem_of_mem_filter hi)).qubitList

/-- `u` acts on the listed ones of `n` qubits as `v` does on a register of its own: its entry is
that of `v` at the bits spelled on these qubits where all other bits of row and column agree, and
zero elsewhere. -/
structure Operator.ActsAs (n : ℕ) (qs : List ℕ) (u v : Operator ℝ) : Prop where
  dim : u.dim = 2 ^ n
  dim_part : v.dim = 2 ^ qs.length
  get : ∀ i < 2 ^ n, ∀ j < 2 ^ n, u.get i j =
    if ∀ q < n, q ∉ qs → i.testBit (n - 1 - q) = j.testBit (n - 1 - q) then
      v.get (spelledBits n qs i) (spelledBits n qs j)
    else 0

theorem Operator.ActsAs.of_embed {n k : ℕ} {qs : List ℕ} (h : QubitList n k qs)
    {u v : Operator ℝ} (hu : u.dim = 2 ^ n) (hv : v.dim = 2 ^ k)
    (huv : u.toMatrix n = embed n qs (v.toMatrix k)) : u.ActsAs n qs v := by
  obtain rfl := h.length_eq
  refine ⟨hu, hv, fun i hi j hj => ?_⟩
  rw [embed_eq_actionOn h] at huv
  have hentry : (u.get i j).toComplex = actionOn n qs v ⟨i, hi⟩ ⟨j, hj⟩ :=
    congrFun (congrFun huv ⟨i, hi⟩) ⟨j, hj⟩
  apply Amplitude.toComplex_injective
  rw [hentry, actionOn]
  split_ifs
  · rfl
  · rfl

namespace Oracle

theorem foldlM_onto_error {n k : ℕ} (qs : List ℕ) {is : List (Instruction ℝ)} {u : Operator ℝ}
    {e : SynthesisError ℝ} (h : is.foldlM (step k) u = .error e) (v : Operator ℝ) :
    (is.map (Instruction.onto qs)).foldlM (step n) v = .error e := by
  induction is generalizing u v with
  | nil => cases h
  | cons i is ih =>
    rw [List.foldlM_cons] at h
    rw [List.map_cons, List.foldlM_cons]
    cases hm : i.isMeasure with
    | true =>
      rw [step_measure hm] at h
      rw [step_measure (i := i.onto qs) hm]
      exact ih h v
    | false =>
      rw [step_gate hm] at h
      rw [step_gate (i := i.onto qs) hm]
      change ((matrixOf i).map _ >>= _) = _
      cases hmatrix : matrixOf i with
      | ok m =>
        rw [hmatrix] at h
        exact ih h _
      | error e' =>
        rw [hmatrix] at h
        exact h

end Oracle

namespace Circuit

variable {c : Circuit ℝ}

theorem qubitList_denseOrder (hw : c.WellFormed) (reverse : Bool) :
    QubitList c.qubits c.referenced.length (c.denseOrder reverse) where
  length_eq := c.length_denseOrder reverse
  nodup := c.nodup_denseOrder reverse
  lt q hq := by
    obtain ⟨i, hi, hqi⟩ := mem_referenced.mp (mem_denseOrder.mp hq)
    exact (hw i hi).lt q hqi

theorem map_onto_dense (c : Circuit ℝ) (reverse : Bool) :
    (c.dense reverse).instructions.map (Instruction.onto (c.denseOrder reverse)) =
      c.instructions := by
  unfold dense
  rw [List.map_map]
  refine (List.map_congr_left fun i hi => ?_).trans (List.map_id _)
  have hback : compose (c.denseOrder reverse) (i.qubits.map (densePlace c.referenced reverse)) =
      i.qubits := by
    unfold compose
    rw [List.map_map]
    refine (List.map_congr_left fun q hq => ?_).trans (List.map_id _)
    exact denseOrder_densePlace (mem_referenced.mpr ⟨i, hi, hq⟩) reverse
  rw [Function.comp_apply, Instruction.onto, hback]
  rfl

theorem length_referenced_le (hw : c.WellFormed) : c.referenced.length ≤ c.qubits := by
  have hsub : c.referenced ⊆ List.range c.qubits := by
    intro q hq
    obtain ⟨i, hi, hqi⟩ := mem_referenced.mp hq
    exact List.mem_range.mpr ((hw i hi).lt q hqi)
  simpa using (c.nodup_referenced.subperm hsub).length_le

/-- Making a circuit dense moves its unitary, or the error that there is none, to the referenced
qubits. -/
theorem unitaryOf_dense (o : Oracle ℝ) (hw : c.WellFormed) (reverse : Bool)
    (hn : c.qubits ≤ min o.maxQubits maxDenseQubits) :
    (∃ u v, o.unitaryOf c = .ok u ∧ o.unitaryOf (c.dense reverse) = .ok v ∧
        u.ActsAs c.qubits (c.denseOrder reverse) v) ∨
      ∃ e, o.unitaryOf c = .error e ∧ o.unitaryOf (c.dense reverse) = .error e ∧
        ∃ i ∈ c.instructions, i.isMeasure = false ∧ i.gate.matrix = none := by
  have horder := qubitList_denseOrder hw reverse
  have hwd := dense_wellFormed hw reverse
  have hnd : (c.dense reverse).qubits ≤ min o.maxQubits maxDenseQubits :=
    (length_referenced_le hw).trans hn
  cases hv : o.unitaryOf (c.dense reverse) with
  | ok v =>
    obtain ⟨-, hvd, hp⟩ := (Oracle.unitaryOf_eq_ok_iff hwd).mp hv
    have hq := timeProduct_onto horder hwd hp
    rw [map_onto_dense] at hq
    obtain ⟨u, hu, hud, hue⟩ := unitaryOf_eq_timeProduct o c hw hn hq
    exact .inl ⟨u, v, hu, rfl, .of_embed horder hud hvd hue⟩
  | error e =>
    right
    have hfold := hv
    rw [Oracle.unitaryOf, if_neg (Nat.not_lt.mpr hnd)] at hfold
    have hu := Oracle.foldlM_onto_error (n := c.qubits) (c.denseOrder reverse) hfold
      (.identity (2 ^ c.qubits))
    rw [map_onto_dense] at hu
    have herror : o.unitaryOf c = .error e := (if_neg (Nat.not_lt.mpr hn)).trans hu
    refine ⟨e, herror, rfl, ?_⟩
    by_contra hall
    push Not at hall
    have hp := timeProduct_actions hw fun i hi hm => Option.isSome_iff_ne_none.mpr (hall i hi hm)
    obtain ⟨u, hok, -⟩ := unitaryOf_eq_timeProduct o c hw hn hp
    cases herror.symm.trans hok

theorem qubitList_reverse_range (n : ℕ) : QubitList n n (List.range n).reverse where
  length_eq := by rw [List.length_reverse, List.length_range]
  nodup := List.nodup_reverse.mpr List.nodup_range
  lt q hq := List.mem_range.mp (List.mem_reverse.mp hq)

theorem getD_reverse_range {n q : ℕ} (hq : q < n) :
    (List.range n).reverse.getD q 0 = n - 1 - q := by
  have hlt : q < (List.range n).reverse.length := by simpa using hq
  rw [List.getD_eq_getElem _ _ hlt, List.getElem_reverse, List.getElem_range, List.length_range]

def mirrored {F : Type} (c : Circuit F) : Circuit F :=
  { c with instructions := c.instructions.map (Instruction.onto (List.range c.qubits).reverse) }

theorem WellFormed.mirrored {F : Type} {c : Circuit F} (hw : c.WellFormed) :
    c.mirrored.WellFormed :=
  List.forall_mem_map.mpr fun i hi => (hw i hi).onto (qubitList_reverse_range c.qubits)

theorem WellFormed.mirror_eq_ok {F : Type} [Scalar F] {c : Circuit F} (hw : c.WellFormed) :
    c.mirror = .ok c.mirrored := by
  have hmoved (i : Instruction F) (hi : i ∈ c.instructions) :
      { i with qubits := i.qubits.map fun q => c.qubits - 1 - q } =
        i.onto (List.range c.qubits).reverse := by
    unfold Instruction.onto compose
    congr 1
    exact List.map_congr_left fun q hq => (getD_reverse_range ((hw i hi).lt q hq)).symm
  have hplaced (i : Instruction F) (hi : i ∈ c.instructions) :=
    (hw i hi).onto (qubitList_reverse_range c.qubits)
  unfold mirror Circuit.mirrored
  simp only [bind_eq_ok_iff, withInstructions_eq_ok_iff,
    mapM_eq_ok_map fun _ _ => Instruction.remap_eq_ok_iff]
  refine ⟨_, ⟨fun i hi => ?_, rfl⟩, ?_, ?_⟩
  · have hi' := hplaced i hi
    rw [← hmoved i hi] at hi'
    exact ⟨hi'.length_eq, hi'.nodup⟩
  · rw [List.map_congr_left hmoved]
    exact List.forall_mem_map.mpr fun i hi => (hplaced i hi).lt
  · rw [List.map_congr_left hmoved]

/-- A well-formed circuit can be made dense: the `k`-th smallest of the referenced qubits moves to
`k`, or to `k` from the end, nothing else changes, and the circuit does on the qubits in that order
what it did before. -/
theorem compress_relabels (c : Circuit ℝ) (reverse : Bool) (o : Oracle ℝ) (hw : c.WellFormed)
    (hlayout : c.layout ≠ some reverse) :
    ∃ (c' : Circuit ℝ) (place : ℕ → ℕ), c.compress reverse = .ok c' ∧
      c.referenced.Pairwise (· < ·) ∧
      (∀ q, q ∈ c.referenced ↔ ∃ i ∈ c.instructions, q ∈ i.qubits) ∧
      (∀ k (hk : k < c.referenced.length),
        place c.referenced[k] = if reverse then c.referenced.length - 1 - k else k) ∧
      c' = { c with
        qubits := c.referenced.length
        instructions := c.instructions.map fun i => { i with qubits := i.qubits.map place }
        layout := some reverse } ∧
      c'.referenced = List.range c'.qubits ∧
      (c.qubits ≤ min o.maxQubits maxDenseQubits →
        (∃ u v, o.unitaryOf c = .ok u ∧ o.unitaryOf c' = .ok v ∧
          u.ActsAs c.qubits (if reverse then c.referenced.reverse else c.referenced) v) ∨
        ∃ e, o.unitaryOf c = .error e ∧ o.unitaryOf c' = .error e ∧
          ∃ i ∈ c.instructions, i.isMeasure = false ∧ i.gate.matrix = none) := by
  refine ⟨c.dense reverse, densePlace c.referenced reverse,
    (compress_eq_ok_iff hlayout).mpr ⟨dense_wellFormed hw reverse, rfl⟩, c.pairwise_referenced,
    fun q => mem_referenced, fun k hk => densePlace_getElem c.nodup_referenced hk reverse, rfl,
    c.referenced_dense reverse, ?_⟩
  exact unitaryOf_dense o hw reverse

/-- A controlled NOT over a gap, marked as dense in the order of the qubits. -/
def overGap : Circuit ℝ where
  qubits := 5
  clbits := 1
  instructions :=
    [.fixed .h [1], .fixed .cx [1, 4], .measure 1 0]
  layout := some false

theorem compress_overGap :
    overGap.WellFormed ∧ overGap.layout ≠ some true ∧
      ∃ c' u v, overGap.compress true = .ok c' ∧ c'.qubits = 2 ∧
        c'.instructions.map (·.qubits) = [[1], [1, 0], [1]] ∧
        (Oracle.new 12 0).unitaryOf overGap = .ok u ∧ (Oracle.new 12 0).unitaryOf c' = .ok v ∧
        u.ActsAs 5 [4, 1] v := by
  have hw : overGap.WellFormed := by
    unfold overGap Circuit.WellFormed
    simp only [List.forall_mem_cons, List.not_mem_nil, false_imp_iff, implies_true, and_true]
    exact ⟨⟨rfl, by decide, by decide⟩, ⟨rfl, by decide, by decide⟩, rfl, by decide, by decide⟩
  have hlayout : overGap.layout ≠ some true := by decide
  obtain ⟨c', place, hc', -, -, hplace, hmoved, -, hunitary⟩ :=
    compress_relabels overGap true (Oracle.new 12 0) hw hlayout
  have hfirst : place 1 = 1 := hplace 0 (by decide)
  have hlast : place 4 = 0 := hplace 1 (by decide)
  refine ⟨hw, hlayout, ?_⟩
  rcases hunitary (by decide) with ⟨u, v, hu, hv, hacts⟩ | ⟨-, -, -, i, hi, hm, hnone⟩
  · refine ⟨c', u, v, hc', by rw [hmoved]; rfl, ?_, hu, hv, hacts⟩
    rw [hmoved]
    simp [overGap, Instruction.fixed, Instruction.measure, hfirst, hlast]
  · have hmatrix : ∀ i ∈ overGap.instructions, i.isMeasure = false → i.gate.matrix ≠ none := by
      simp [overGap, Instruction.fixed, Instruction.measure, Instruction.isMeasure, Instruction.tag,
        Gate.measure, Tag.matrix?, Tag.base?, Tag.plainMatrix?, Tag.paramCount]
    exact absurd hnone (hmatrix i hi hm)

end Circuit

end Interchange
end
