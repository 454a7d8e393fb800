import Mathlib.Data.List.Perm.Basic
import Mathlib.Logic.Relation
import Interchange.Proofs.GateMatrix
import Interchange.Proofs.PhaseSymmetry

noncomputable section
namespace Interchange

section Embedding

variable {n k l : ℕ} {qs rs : List ℕ}

theorem restrict_eq_of_agreeOff (hr : QubitList n l rs) (hd : qs.Disjoint rs) {i j : Fin (2 ^ n)}
    (ha : AgreeOff n qs i j) : restrict n l rs i = restrict n l rs j := by
  apply Fin.ext
  apply eq_of_qubitBit_eq (Fin.isLt _) (Fin.isLt _)
  intro p hp
  have hp' : p < rs.length := hr.length_eq ▸ hp
  have hmem := List.getElem_mem hp'
  rw [qubitBit_restrict hr i p hp', qubitBit_restrict hr j p hp']
  exact ha _ (hr.lt _ hmem) fun hq => hd hq hmem

/-- Bits can be replaced at some qubits so that the result agrees with a state off others, if the
states agree off both, and in one way. -/
theorem agreeOff_replace_iff (hq : QubitList n k qs) (hd : qs.Disjoint rs) (w : Fin (2 ^ k))
    (i j : Fin (2 ^ n)) :
    AgreeOff n rs (replace hq w i) j ↔ AgreeOff n (qs ++ rs) i j ∧ w = restrict n k qs j := by
  constructor
  · intro ha
    refine ⟨fun q hlt hmem => ?_, ?_⟩
    · rw [List.mem_append, not_or] at hmem
      exact (agreeOff_replace hq w i q hlt hmem.1).trans (ha q hlt hmem.2)
    · rw [← restrict_eq_of_agreeOff hq hd.symm ha, restrict_replace]
  · rintro ⟨ha, rfl⟩ q hlt hmem
    by_cases hqs : q ∈ qs
    · obtain ⟨p, hp, rfl⟩ := List.getElem_of_mem hqs
      rw [← qubitBit_restrict hq _ p hp, restrict_replace, qubitBit_restrict hq j p hp]
    · rw [← agreeOff_replace hq _ i q hlt hqs]
      exact ha q hlt fun happend => (List.mem_append.mp happend).elim hqs hmem

/-- The product of matrices on disjoint qubits, entry by entry. -/
theorem embed_mul_embed_apply (hq : QubitList n k qs) (hr : QubitList n l rs)
    (hd : qs.Disjoint rs) (A : QubitMatrix k) (B : QubitMatrix l) (i j : Fin (2 ^ n)) :
    (embed n qs A * embed n rs B) i j =
      if AgreeOff n (qs ++ rs) i j then
        A (restrict n k qs i) (restrict n k qs j) * B (restrict n l rs i) (restrict n l rs j)
      else 0 := by
  have hrow (w : Fin (2 ^ k)) : restrict n l rs (replace hq w i) = restrict n l rs i :=
    (restrict_eq_of_agreeOff hr hd (agreeOff_replace hq w i)).symm
  rw [embed_mul_apply hq]
  simp only [embed, agreeOff_replace_iff hq hd, hrow]
  split_ifs with ha
  · rw [Finset.sum_eq_single (restrict n k qs j)]
    · rw [if_pos ⟨ha, rfl⟩]
    · intro w _ hw
      rw [if_neg fun h => hw h.2, mul_zero]
    · exact fun h => absurd (Finset.mem_univ _) h
  · apply Finset.sum_eq_zero
    intro w _
    rw [if_neg fun h => ha h.1, mul_zero]

/-- Matrices on disjoint qubits commute, whatever the order of the qubits in the register. -/
theorem embed_comm (hq : QubitList n k qs) (hr : QubitList n l rs) (hd : qs.Disjoint rs)
    (A : QubitMatrix k) (B : QubitMatrix l) :
    embed n qs A * embed n rs B = embed n rs B * embed n qs A := by
  funext i j
  have hoff : AgreeOff n (qs ++ rs) i j ↔ AgreeOff n (rs ++ qs) i j := by
    simp only [AgreeOff, List.mem_append, or_comm]
  rw [embed_mul_embed_apply hq hr hd, embed_mul_embed_apply hr hq hd.symm]
  simp only [hoff, mul_comm]

theorem Operator.applyGate_comm (hq : QubitList n k qs) (hr : QubitList n l rs)
    (hd : qs.Disjoint rs) (a b : Operator ℝ) {u : Operator ℝ} (hu : u.dim = 2 ^ n) :
    a.applyGate n qs (b.applyGate n rs u) = b.applyGate n rs (a.applyGate n qs u) := by
  have ha : (a.applyGate n qs u).dim = 2 ^ n := (dim_applyGate n qs a u).trans hu
  have hb : (b.applyGate n rs u).dim = 2 ^ n := (dim_applyGate n rs b u).trans hu
  refine ext_toMatrix ((dim_applyGate n qs a _).trans hb) ((dim_applyGate n rs b _).trans ha) ?_
  rw [toMatrix_applyGate hq a _ hb, toMatrix_applyGate hr b u hu, toMatrix_applyGate hr b _ ha,
    toMatrix_applyGate hq a u hu, ← mul_assoc, embed_comm hq hr hd, mul_assoc]

end Embedding

def Instruction.LacksMatrix (i : Instruction ℝ) : Prop :=
  i.isMeasure = false ∧ i.gate.matrix = none

namespace Oracle

variable {n : ℕ} {u v : Operator ℝ} {i j : Instruction ℝ}

theorem step_of_lacksMatrix (h : i.LacksMatrix) : ∃ e, ∀ u, step n u i = .error e := by
  cases hm : matrixOf i with
  | ok m =>
    rw [matrixOf_eq_ok_iff, h.2] at hm
    cases hm
  | error e =>
    refine ⟨e, fun u => ?_⟩
    rw [step_gate h.1, hm]
    rfl

theorem step_of_matrix (hi : i.isMeasure = false) {m : Operator ℝ} (hm : i.gate.matrix = some m) :
    step n u i = .ok (m.applyGate n i.qubits u) := by
  rw [step_gate hi, matrixOf_eq_ok_iff.mpr hm]
  rfl

/-- Two steps on disjoint qubits can be taken in either order, unless both fail. -/
theorem step_comm (hi : i.WellFormed n) (hj : j.WellFormed n) (hd : i.qubits.Disjoint j.qubits)
    (hmatrix : ¬(i.LacksMatrix ∧ j.LacksMatrix)) (hu : u.dim = 2 ^ n) :
    (step n u i >>= fun v => step n v j) = step n u j >>= fun v => step n v i := by
  cases hmi : i.isMeasure with
  | true =>
    rw [step_measure hmi]
    exact (bind_eq_self fun v => step_measure hmi).symm
  | false =>
    cases hmj : j.isMeasure with
    | true =>
      rw [step_measure hmj]
      exact bind_eq_self fun v => step_measure hmj
    | false =>
      cases hgi : i.gate.matrix with
      | none =>
        cases hgj : j.gate.matrix with
        | none => exact absurd ⟨⟨hmi, hgi⟩, hmj, hgj⟩ hmatrix
        | some b =>
          obtain ⟨e, he⟩ := step_of_lacksMatrix (n := n) ⟨hmi, hgi⟩
          rw [step_of_matrix hmj hgj, he]
          exact (he _).symm
      | some a =>
        cases hgj : j.gate.matrix with
        | none =>
          obtain ⟨e, he⟩ := step_of_lacksMatrix (n := n) ⟨hmj, hgj⟩
          rw [step_of_matrix hmi hgi, he]
          exact he _
        | some b =>
          rw [step_of_matrix hmi hgi, step_of_matrix hmj hgj]
          change step n _ j = step n _ i
          rw [step_of_matrix hmj hgj, step_of_matrix hmi hgi,
            Operator.applyGate_comm hj.qubitList hi.qubitList hd.symm b a hu]

theorem foldlM_exchange {before after : List (Instruction ℝ)} (hi : i.WellFormed n)
    (hj : j.WellFormed n) (hd : i.qubits.Disjoint j.qubits)
    (hmatrix : ¬(i.LacksMatrix ∧ j.LacksMatrix)) (hu : u.dim = 2 ^ n) :
    (before ++ i :: j :: after).foldlM (step n) u =
      (before ++ j :: i :: after).foldlM (step n) u := by
  rw [List.foldlM_append, List.foldlM_append]
  refine bind_congr_ok fun v hv => ?_
  have hdim : v.dim = 2 ^ n := by
    refine Returns.foldlM (P := fun w => w.dim = 2 ^ n) (fun w hw k _ => ?_) hu v hv
    exact fun w' hw' => (dim_step w' hw').trans hw
  simp only [List.foldlM_cons, ← bind_assoc, step_comm hi hj hd hmatrix hdim]

theorem foldlM_of_lacksMatrix {is : List (Instruction ℝ)} (hi : i ∈ is) (h : i.LacksMatrix) :
    is.foldlM (step n) u ≠ .ok v := by
  intro hrun
  obtain ⟨p, hp⟩ := exists_timeProduct_of_foldlM hrun
  have hmem : (i.gate, i.qubits) ∈ actions is :=
    List.mem_map.mpr ⟨i, List.mem_filter.mpr ⟨hi, by simp [h.1]⟩, rfl⟩
  obtain ⟨m, hm⟩ := exists_matrix_of_timeProduct hp _ hmem
  rw [h.2] at hm
  cases hm

end Oracle

/-- Two neighbours on disjoint qubits change places. -/
inductive Exchanges : List (Instruction ℝ) → List (Instruction ℝ) → Prop
  | swap (before after : List (Instruction ℝ)) {i j : Instruction ℝ}
      (h : i.qubits.Disjoint j.qubits) :
      Exchanges (before ++ i :: j :: after) (before ++ j :: i :: after)

/-- One order of instructions comes from another by exchanges on disjoint qubits. -/
def Reorders : List (Instruction ℝ) → List (Instruction ℝ) → Prop :=
  Relation.ReflTransGen Exchanges

theorem Exchanges.perm {is js : List (Instruction ℝ)} (h : Exchanges is js) : is.Perm js := by
  obtain ⟨before, after, -⟩ := h
  exact (List.Perm.swap _ _ after).append_left before

theorem Reorders.perm {is js : List (Instruction ℝ)} (h : Reorders is js) : is.Perm js := by
  induction h with
  | refl => exact .refl is
  | tail _ hstep ih => exact ih.trans hstep.perm

theorem Exchanges.foldlM_eq_ok_iff {n : ℕ} {is js : List (Instruction ℝ)} (h : Exchanges is js)
    (hw : ∀ i ∈ is, i.WellFormed n) {u v : Operator ℝ} (hu : u.dim = 2 ^ n) :
    js.foldlM (Oracle.step n) u = .ok v ↔ is.foldlM (Oracle.step n) u = .ok v := by
  obtain @⟨before, after, i, j, hd⟩ := h
  by_cases hmatrix : i.LacksMatrix ∧ j.LacksMatrix
  · exact iff_of_false (Oracle.foldlM_of_lacksMatrix (by simp) hmatrix.1)
      (Oracle.foldlM_of_lacksMatrix (by simp) hmatrix.1)
  · rw [Oracle.foldlM_exchange (hw i (by simp)) (hw j (by simp)) hd hmatrix hu]

theorem Reorders.foldlM_eq_ok_iff {n : ℕ} {is js : List (Instruction ℝ)} (h : Reorders is js)
    (hw : ∀ i ∈ is, i.WellFormed n) {u v : Operator ℝ} (hu : u.dim = 2 ^ n) :
    js.foldlM (Oracle.step n) u = .ok v ↔ is.foldlM (Oracle.step n) u = .ok v := by
  induction h with
  | refl => exact Iff.rfl
  | tail hsteps hstep ih =>
    have hw' := fun i hi => hw i ((Reorders.perm hsteps).mem_iff.mpr hi)
    exact (hstep.foldlM_eq_ok_iff hw' hu).trans ih

namespace Oracle

variable {o : Oracle ℝ} {c : Circuit ℝ}

/-- A circuit has a unitary if it is within the limit and no gate lacks a matrix. -/
theorem exists_unitaryOf_iff (hw : c.WellFormed) :
    (∃ u, o.unitaryOf c = .ok u) ↔
      c.qubits ≤ min o.maxQubits maxDenseQubits ∧ ∀ i ∈ c.instructions, ¬i.LacksMatrix := by
  constructor
  · rintro ⟨u, hu⟩
    obtain ⟨hn, -, -⟩ := (unitaryOf_eq_ok_iff hw).mp hu
    rw [unitaryOf, if_neg (Nat.not_lt.mpr hn)] at hu
    exact ⟨hn, fun i hi hlacks => foldlM_of_lacksMatrix hi hlacks hu⟩
  · rintro ⟨hn, hmatrix⟩
    have hsome : ∀ i ∈ c.instructions, i.isMeasure = false → i.gate.matrix.isSome = true := by
      intro i hi hm
      exact Option.isSome_iff_ne_none.mpr fun hnone => hmatrix i hi ⟨hm, hnone⟩
    obtain ⟨u, hu, -⟩ := unitaryOf_eq_timeProduct o c hw hn (timeProduct_actions hw hsome)
    exact ⟨u, hu⟩

theorem unitaryOf_exchange (hw : c.WellFormed) {before after : List (Instruction ℝ)}
    {i j : Instruction ℝ} (hc : c.instructions = before ++ i :: j :: after)
    (hd : i.qubits.Disjoint j.qubits) (hmatrix : ¬(i.LacksMatrix ∧ j.LacksMatrix)) :
    o.unitaryOf { c with instructions := before ++ j :: i :: after } = o.unitaryOf c := by
  have hi : i.WellFormed c.qubits := hw i (by simp [hc])
  have hj : j.WellFormed c.qubits := hw j (by simp [hc])
  have hdim : (Operator.identity (2 ^ c.qubits) : Operator ℝ).dim = 2 ^ c.qubits := rfl
  have hrun : (before ++ i :: j :: after).foldlM (step c.qubits) (.identity (2 ^ c.qubits)) =
      (before ++ j :: i :: after).foldlM (step c.qubits) (.identity (2 ^ c.qubits)) :=
    foldlM_exchange hi hj hd hmatrix hdim
  rw [← hc] at hrun
  unfold unitaryOf
  exact if_congr Iff.rfl rfl hrun.symm

theorem unitaryOf_reorders (hw : c.WellFormed) {is : List (Instruction ℝ)}
    (h : Reorders c.instructions is) {u : Operator ℝ} :
    o.unitaryOf { c with instructions := is } = .ok u ↔ o.unitaryOf c = .ok u := by
  unfold unitaryOf
  dsimp only
  split_ifs
  · exact Iff.rfl
  · exact h.foldlM_eq_ok_iff hw rfl

theorem equivalent_reorders (hw : c.WellFormed) {is : List (Instruction ℝ)}
    (h : Reorders c.instructions is) :
    o.equivalent c { c with instructions := is } = .ok true ↔
      ∃ u, o.unitaryOf c = .ok u ∧ Operator.equalUpToPhase o.tolerance u u = true := by
  rw [equivalent, if_neg (not_not.mpr rfl), bind_eq_ok_iff]
  refine exists_congr fun u => and_congr_right fun hu => ?_
  rw [(unitaryOf_reorders hw h).mpr hu]
  exact ⟨Except.ok.inj, congrArg Except.ok⟩

/-- Instructions on disjoint qubits commute. A circuit has a unitary exactly if it is within the
limit and all its gates have matrices. Exchanging two neighbours on disjoint qubits leaves the
unitary as it is, or the error if there is none, unless both neighbours lack a matrix: then each
order ends in an error of its own. However many such exchanges are made, the unitary is the same,
and the circuits are found equivalent if there is a unitary, unless the tolerance is negative or it
is zero and so is the unitary. -/
theorem unitaryOf_disjoint (o : Oracle ℝ) (c : Circuit ℝ) (hw : c.WellFormed) :
    ((∃ u, o.unitaryOf c = .ok u) ↔
      c.qubits ≤ min o.maxQubits maxDenseQubits ∧ ∀ i ∈ c.instructions, ¬i.LacksMatrix) ∧
    (∀ before i j after, c.instructions = before ++ i :: j :: after →
      i.qubits.Disjoint j.qubits → ¬(i.LacksMatrix ∧ j.LacksMatrix) →
      o.unitaryOf { c with instructions := before ++ j :: i :: after } = o.unitaryOf c) ∧
    ∀ is, Reorders c.instructions is →
      (∀ u, o.unitaryOf { c with instructions := is } = .ok u ↔ o.unitaryOf c = .ok u) ∧
      (o.equivalent c { c with instructions := is } = .ok true ↔
        ∃ u, o.unitaryOf c = .ok u ∧
          (0 < o.tolerance ∨ o.tolerance = 0 ∧ u.toMatrix c.qubits ≠ 0)) := by
  refine ⟨exists_unitaryOf_iff hw, fun before i j after hc hd hm => unitaryOf_exchange hw hc hd hm,
    fun is his => ⟨fun u => unitaryOf_reorders hw his, ?_⟩⟩
  rw [equivalent_reorders hw his]
  refine exists_congr fun u => and_congr_right fun hu => ?_
  obtain ⟨-, hdim, -⟩ := (unitaryOf_eq_ok_iff hw).mp hu
  exact Operator.equalUpToPhase_self_iff hdim

/-- A controlled NOT upwards over a qubit on which two gates act. -/
def aroundMiddle : Circuit ℝ where
  qubits := 3
  clbits := 1
  instructions := [.fixed .cx [2, 0], .fixed .h [1], .fixed .s [1], .measure 1 0]

theorem unitaryOf_disjoint_aroundMiddle :
    ∃ u, (Oracle.new 12 (1 / 2)).unitaryOf aroundMiddle = .ok u ∧
      (Oracle.new 12 (1 / 2)).unitaryOf { aroundMiddle with
        instructions := [.fixed .h [1], .fixed .s [1], .measure 1 0, .fixed .cx [2, 0]] } = .ok u ∧
      (Oracle.new 12 (1 / 2)).equivalent aroundMiddle { aroundMiddle with
        instructions := [.fixed .h [1], .fixed .s [1], .measure 1 0, .fixed .cx [2, 0]] } =
          .ok true := by
  have hw : aroundMiddle.WellFormed := by
    unfold aroundMiddle Circuit.WellFormed
    simp only [List.forall_mem_cons, List.not_mem_nil, false_imp_iff, implies_true, and_true]
    exact ⟨⟨rfl, by decide, by decide⟩, ⟨rfl, by decide, by decide⟩, ⟨rfl, by decide, by decide⟩,
      rfl, by decide, by decide⟩
  obtain ⟨hexists, -, hreorders⟩ := unitaryOf_disjoint (Oracle.new 12 (1 / 2)) aroundMiddle hw
  have hmatrix : ∀ i ∈ aroundMiddle.instructions, ¬i.LacksMatrix := by
    unfold aroundMiddle
    simp only [List.forall_mem_cons, List.not_mem_nil, false_imp_iff, implies_true, and_true]
    exact ⟨fun h => (nomatch h.2), fun h => (nomatch h.2), fun h => (nomatch h.2),
      fun h => (nomatch h.1)⟩
  have horder : Reorders aroundMiddle.instructions
      [.fixed .h [1], .fixed .s [1], .measure 1 0, .fixed .cx [2, 0]] := by
    have hdisjoint : [2, 0].Disjoint [1] := List.disjoint_left.mpr (by decide)
    exact .head (.swap [] _ hdisjoint) (.head (.swap [_] _ hdisjoint)
      (.single (.swap [_, _] _ hdisjoint)))
  obtain ⟨u, hu⟩ := hexists.mpr ⟨by decide, hmatrix⟩
  obtain ⟨hsame, haccepted⟩ := hreorders _ horder
  exact ⟨u, hu, (hsame u).mpr hu, haccepted.mpr ⟨u, hu, .inl (by norm_num [new])⟩⟩

/-- Two turns by free parameters. -/
def freeTurns : Circuit ℝ where
  qubits := 2
  clbits := 0
  instructions := [⟨⟨.rx, [.ref ⟨0, "a"⟩], none⟩, [0], []⟩, ⟨⟨.rx, [.ref ⟨1, "b"⟩], none⟩, [1], []⟩]
  registry := ⟨["a", "b"]⟩

/-- The error names the parameter that comes first, and no order is accepted. -/
theorem unitaryOf_freeTurns :
    freeTurns.WellFormed ∧ Reorders freeTurns.instructions freeTurns.instructions.reverse ∧
      (Oracle.new 12 (1 / 2)).unitaryOf freeTurns =
        .error (.circuit (.unboundParameter "a")) ∧
      (Oracle.new 12 (1 / 2)).unitaryOf
          { freeTurns with instructions := freeTurns.instructions.reverse } =
        .error (.circuit (.unboundParameter "b")) ∧
      (Oracle.new 12 (1 / 2)).equivalent freeTurns
          { freeTurns with instructions := freeTurns.instructions.reverse } =
        .error (.circuit (.unboundParameter "a")) := by
  refine ⟨?_, .single (.swap [] [] (List.disjoint_left.mpr (by decide))), rfl, rfl, rfl⟩
  unfold freeTurns Circuit.WellFormed
  simp only [List.forall_mem_cons, List.not_mem_nil, false_imp_iff, implies_true, and_true]
  exact ⟨⟨rfl, by decide, by decide⟩, rfl, by decide, by decide⟩

end Oracle

end Interchange
end
