import Interchange.Proofs.DecodedCircuit
import Interchange.Proofs.LoweringMeaning
import Interchange.Proofs.OperatorMatrix
import Interchange.Proofs.QubitRelabeling
import Interchange.Transpile.Basic

noncomputable section
namespace Interchange

/-- Both measure, or have the same matrix, on the same qubits. -/
structure Instruction.SameAction (i j : Instruction ℝ) : Prop where
  qubits : j.qubits = i.qubits
  isMeasure : j.isMeasure = i.isMeasure
  matrix : j.gate.matrix = i.gate.matrix

theorem timeProduct_of_sameAction {n : ℕ} {is js : List (Instruction ℝ)}
    (h : List.Forall₂ Instruction.SameAction is js) :
    timeProduct n (actions js) = timeProduct n (actions is) := by
  induction h with
  | nil => rfl
  | @cons i j is js hij _ ih =>
    cases hm : i.isMeasure with
    | true => rw [actions_measure is hm, actions_measure js (hij.isMeasure.trans hm), ih]
    | false =>
      rw [actions_gate is hm, actions_gate js (hij.isMeasure.trans hm), timeProduct, timeProduct,
        hij.matrix, hij.qubits, ih]

theorem timeProduct_of_alike {n : ℕ} {is js : List (Instruction ℝ)}
    (h : List.Forall₂ Instruction.Alike is js) :
    timeProduct n (actions js) = timeProduct n (actions is) :=
  timeProduct_of_sameAction (h.imp fun _ _ hij => ⟨hij.qubits, hij.isMeasure, hij.matrix⟩)

namespace Circuit

variable {F : Type} {c c' : Circuit F}

theorem WellFormed.of_le {n : ℕ} (hw : c.WellFormed) (hn : c.qubits ≤ n) :
    { c with qubits := n }.WellFormed := fun i hi =>
  ⟨(hw i hi).length_eq, (hw i hi).nodup, fun q hq => ((hw i hi).lt q hq).trans_le hn⟩

theorem widen_of_wellFormed {n : ℕ} (hw : c.WellFormed) (hn : c.qubits ≤ n) :
    c.widen n = .ok { c with qubits := n } := by
  unfold widen
  split_ifs with heq
  · rw [← heq]
  · exact withShape_eq_ok_iff.mpr ⟨fun i hi q hq => (hw.of_le hn i hi).lt q hq, rfl⟩

variable [Scalar F]

theorem eq_of_bind {b : Bindings F} (hs : ∀ i ∈ c.instructions, i.gate.IsStandard)
    (h : c.bind b = .ok c') : c' = c := by
  obtain ⟨is, his, h⟩ := bind_eq_ok_iff.mp h
  obtain ⟨-, rfl⟩ := withInstructions_eq_ok_iff.mp h
  have hsame : List.Forall₂ (· = ·) c.instructions is := by
    refine ((List.forall₂_and_left _ _).mpr ⟨fun i hi => hi, mapM_eq_ok_iff.mp his⟩).imp ?_
    rintro i j ⟨hi, hj⟩
    obtain ⟨values, hvalues⟩ := hs i hi
    rw [Gate.substitute_of_not_parameterized hvalues.not_parameterized] at hj
    exact (Instruction.withGate_eq_ok_iff.mp hj).2.symm
  rw [List.forall₂_eq_eq_eq] at hsame
  rw [← hsame]

end Circuit

theorem timeProduct_flip {n q : ℕ} {is : List (Instruction ℝ)} (h : actions is = []) :
    timeProduct n (actions (.fixed .x [q] :: is)) =
      some (embed n [q] (Tag.exactMatrix 1 .x [])) := by
  rw [actions_gate is rfl, h]
  exact timeProduct_cons.mpr ⟨_, 1, rfl, rfl, (one_mul _).symm⟩

/-- Flipping a qubit is not flipping another one, whatever the phase. -/
theorem Operator.equalUpToPhase_flip {n p q : ℕ} {u v : Operator ℝ} {tolerance : ℝ} (hq : q < n)
    (hne : p ≠ q) (hvd : v.dim = 2 ^ n)
    (hu : u.toMatrix n = embed n [p] (Tag.exactMatrix 1 .x []))
    (hv : v.toMatrix n = embed n [q] (Tag.exactMatrix 1 .x [])) (htolerance : tolerance < 1) :
    equalUpToPhase tolerance u v = false := by
  have hlist : QubitList n 1 [q] := ⟨rfl, List.nodup_singleton q, by simpa using hq⟩
  -- the state that is reached from zero by flipping `q`, and by no flip of `p`
  let i := replace hlist 1 0
  have hset : restrict n 1 [q] i = 1 := restrict_replace hlist 1 0
  have hclear : restrict n 1 [q] 0 = 0 := by
    apply Fin.ext
    rw [restrict_val hlist]
    simp [restrictBits, qubitBit]
  have hventry : (v.get i (0 : Fin (2 ^ n))).toComplex = 1 := by
    refine (congrFun (congrFun hv i) 0).trans ?_
    rw [embed, if_pos (agreeOff_replace hlist 1 0).symm, hset, hclear, Tag.exactMatrix_x]
    rfl
  have huentry : (u.get i (0 : Fin (2 ^ n))).toComplex = 0 := by
    refine (congrFun (congrFun hu i) 0).trans ?_
    rw [embed, if_neg]
    intro hagree
    have hbit := qubitBit_restrict hlist i 0 Nat.one_pos
    rw [hset] at hbit
    have hone : qubitBit 1 0 (1 : Fin (2 ^ 1)) = 1 := rfl
    have hzero : qubitBit n q 0 = 0 := by simp [qubitBit]
    have hsame := hagree q hq (by simpa using hne.symm)
    exact absurd (hone.symm.trans (hbit.trans (hsame.trans hzero))) one_ne_zero
  have hi : (i : ℕ) < v.dim := hvd.symm ▸ i.isLt
  have hj : ((0 : Fin (2 ^ n)) : ℕ) < v.dim := hvd.symm ▸ Fin.isLt _
  by_contra htrue
  rw [Bool.not_eq_false] at htrue
  obtain ⟨z, hz, hall⟩ := exists_phase_of_equalUpToPhase htolerance htrue
    ⟨i, hi, _, hj, by rw [hventry, norm_one]; exact htolerance.le⟩
  have hentry := hall i hi _ hj
  rw [huentry, hventry, mul_one, zero_sub, norm_neg, hz] at hentry
  exact absurd hentry (not_le.mpr htolerance)

namespace Equivalence

theorem wellFormed_of_prepare {F : Type} [Scalar F] [Numeral F] {n : Native F} {options : Options F}
    {c : Circuit F} (h : prepare n options = .ok c) : c.WellFormed := by
  obtain ⟨_, -, h⟩ := bind_eq_ok_iff.mp h
  obtain ⟨bound, hbound, h⟩ := bind_eq_ok_iff.mp h
  have hw := Circuit.wellFormed_of_bind (TranspileError.liftCircuit_eq_ok_iff.mp hbound)
  split_ifs at h with hcontiguous
  · exact Circuit.wellFormed_of_compress hw (TranspileError.liftCircuit_eq_ok_iff.mp h)
  · rwa [← Except.ok.inj h]

theorem prepare_eq_ok {F : Type} [Scalar F] [Numeral F] {n : Native F} {options : Options F}
    {c c' : Circuit F} (hc : n.toCircuit = .ok c)
    (hs : ∀ i ∈ c.instructions, i.gate.IsStandard) (hcontiguous : options.contiguous = true)
    (h : prepare n options = .ok c') : (c.dense false).WellFormed ∧ c' = c.dense false := by
  obtain ⟨_, hread, h⟩ := bind_eq_ok_iff.mp h
  obtain rfl := Except.ok.inj (hc.symm.trans hread)
  obtain ⟨bound, hbound, hdense⟩ := bind_eq_ok_iff.mp h
  rw [TranspileError.liftCircuit_eq_ok_iff] at hbound
  obtain rfl := Circuit.eq_of_bind hs hbound
  rw [if_pos hcontiguous, TranspileError.liftCircuit_eq_ok_iff] at hdense
  exact (Circuit.compress_eq_ok_iff (by simp [(Native.asRead_of_toCircuit hc).layout])).mp hdense

variable {oracle : Oracle ℝ} {fa fb : Framework} {a b : Circuit ℝ} {r : Bool}

theorem equivalent_eq_ok_iff :
    oracle.equivalent a b = .ok r ↔
      a.qubits = b.qubits ∧ ∃ u v, oracle.unitaryOf a = .ok u ∧ oracle.unitaryOf b = .ok v ∧
        r = Operator.equalUpToPhase oracle.tolerance u v := by
  unfold Oracle.equivalent
  split_ifs with hne
  · simp [hne]
  · simp only [bind_eq_ok_iff, not_not.mp hne, true_and]
    constructor
    · rintro ⟨u, hu, v, hv, hr⟩
      exact ⟨u, v, hu, hv, (Except.ok.inj hr).symm⟩
    · rintro ⟨u, v, hu, hv, rfl⟩
      exact ⟨u, hu, v, hv, rfl⟩

theorem compare_eq_ok_iff (ha : a.WellFormed) (hb : b.WellFormed) :
    compare oracle fa fb a b = .ok r ↔
      ∃ u v, oracle.unitaryOf { a with qubits := max a.qubits b.qubits } = .ok u ∧
        oracle.unitaryOf { b with qubits := max a.qubits b.qubits } = .ok v ∧
        r = Operator.equalUpToPhase oracle.tolerance u v := by
  have hca := Circuit.widen_of_wellFormed ha (Nat.le_max_left a.qubits b.qubits)
  have hcb := Circuit.widen_of_wellFormed hb (Nat.le_max_right a.qubits b.qubits)
  have hequivalent : oracle.equivalent { a with qubits := max a.qubits b.qubits }
      { b with qubits := max a.qubits b.qubits } = .ok r ↔ _ :=
    equivalent_eq_ok_iff.trans (and_iff_right rfl)
  rw [← hequivalent]
  unfold compare
  simp only [bind_eq_ok_iff, TranspileError.liftCircuit_eq_ok_iff, hca, hcb, Except.ok.injEq,
    exists_eq_left']
  split
  next same hsame => simp [hsame, pure, Except.pure]
  next e herror => simp [herror]

theorem qubits_le_of_compare (ha : a.WellFormed) (hb : b.WellFormed)
    (h : compare oracle fa fb a b = .ok r) :
    max a.qubits b.qubits ≤ min oracle.maxQubits maxDenseQubits := by
  obtain ⟨u, -, hu, -⟩ := (compare_eq_ok_iff ha hb).mp h
  exact ((Oracle.unitaryOf_eq_ok_iff (ha.of_le (Nat.le_max_left _ _))).mp hu).1

/-- Circuits whose gates multiply to the same up to a phase are found equivalent. -/
theorem compare_of_preserves (htolerance : 0 < oracle.tolerance) (ha : a.WellFormed)
    (hb : b.WellFormed) (hwidth : b.qubits ≤ a.qubits)
    (h : Lowering.Preserves a.qubits a.instructions b.instructions)
    (hr : compare oracle fa fb a b = .ok r) : r = true := by
  obtain ⟨p, z, hz, hp, hq⟩ := h.product
  obtain ⟨u, v, hu, hv, rfl⟩ := (compare_eq_ok_iff ha hb).mp hr
  rw [Nat.max_eq_left hwidth] at hu hv
  obtain ⟨-, hud, hup⟩ := (Oracle.unitaryOf_eq_ok_iff ha).mp hu
  obtain ⟨-, hvd, hvq⟩ := (Oracle.unitaryOf_eq_ok_iff (hb.of_le hwidth)).mp hv
  obtain rfl := Option.some.inj (hup.symm.trans hp)
  replace hvq := Option.some.inj (hvq.symm.trans hq)
  have hzne : z ≠ 0 := fun hzero => by simp [hzero] at hz
  refine Operator.equalUpToPhase_of_smul htolerance.le (hud.trans hvd.symm)
    (z := z⁻¹) (by rw [norm_inv, hz, inv_one]) ?_ fun hzero => absurd hzero htolerance.ne'
  intro i hi j hj
  rw [hvd] at hi hj
  have hentry : (v.get i j).toComplex = z * (u.get i j).toComplex :=
    congrFun (congrFun hvq ⟨i, hi⟩) ⟨j, hj⟩
  rw [hentry, inv_mul_cancel_left₀ hzne]

theorem exists_compare (fa fb : Framework) (ha : a.WellFormed) (hb : b.WellFormed)
    (hlimit : max a.qubits b.qubits ≤ min oracle.maxQubits maxDenseQubits)
    (hma : ∀ i ∈ a.instructions, i.isMeasure = false → i.gate.matrix.isSome = true)
    (hmb : ∀ i ∈ b.instructions, i.isMeasure = false → i.gate.matrix.isSome = true) :
    ∃ r, compare oracle fa fb a b = .ok r := by
  have ha' := ha.of_le (Nat.le_max_left a.qubits b.qubits)
  have hb' := hb.of_le (Nat.le_max_right a.qubits b.qubits)
  obtain ⟨u, hu, -⟩ := unitaryOf_eq_timeProduct oracle _ ha' hlimit (timeProduct_actions ha' hma)
  obtain ⟨v, hv, -⟩ := unitaryOf_eq_timeProduct oracle _ hb' hlimit (timeProduct_actions hb' hmb)
  exact ⟨_, (compare_eq_ok_iff ha hb).mpr ⟨u, v, hu, hv, rfl⟩⟩

/-- Circuits that flip different qubits are told apart. -/
theorem compare_of_flip {n p q : ℕ} (ha : a.WellFormed) (hb : b.WellFormed)
    (hn : max a.qubits b.qubits = n) (hlimit : n ≤ min oracle.maxQubits maxDenseQubits)
    (htolerance : oracle.tolerance < 1) (hq : q < n) (hne : p ≠ q)
    (hpa : timeProduct n (actions a.instructions) = some (embed n [p] (Tag.exactMatrix 1 .x [])))
    (hpb : timeProduct n (actions b.instructions) = some (embed n [q] (Tag.exactMatrix 1 .x []))) :
    compare oracle fa fb a b = .ok false := by
  subst hn
  obtain ⟨u, hu, -, hup⟩ :=
    unitaryOf_eq_timeProduct oracle _ (ha.of_le (Nat.le_max_left _ _)) hlimit hpa
  obtain ⟨v, hv, hvd, hvp⟩ :=
    unitaryOf_eq_timeProduct oracle _ (hb.of_le (Nat.le_max_right _ _)) hlimit hpb
  exact (compare_eq_ok_iff ha hb).mpr
    ⟨u, v, hu, hv, (Operator.equalUpToPhase_flip hq hne hvd hup hvp htolerance).symm⟩

section

variable [Numeral ℝ] {a b : Native ℝ} {options : Options ℝ} {ca cb : Circuit ℝ} {r : Bool}

/-- What is found is read off one comparison, or two if the mirror image may match. -/
theorem circuitsEquivalent_eq_ok_iff (ha : prepare a options = .ok ca)
    (hb : prepare b options = .ok cb) :
    circuitsEquivalent a b options = .ok r ↔
      ∃ same, compare (Oracle.new options.maxQubits options.tolerance) a.framework b.framework
          ca cb = .ok same ∧
        if same then r = true
        else if options.contiguous && options.reverse then
          compare (Oracle.new options.maxQubits options.tolerance) a.framework b.framework
            ca.mirrored cb = .ok r
        else r = false := by
  have hmirror := (wellFormed_of_prepare ha).mirror_eq_ok
  unfold circuitsEquivalent
  simp only [bind_eq_ok_iff, ha, hb, Except.ok.injEq, exists_eq_left']
  refine exists_congr fun same => and_congr_right fun _ => ?_
  cases same with
  | true => simp [pure, Except.pure, eq_comm]
  | false =>
    simp only [Bool.false_eq_true, if_false]
    split_ifs
    · simp only [bind_eq_ok_iff, TranspileError.liftCircuit_eq_ok_iff, hmirror, Except.ok.injEq,
        exists_eq_left']
    · simp [pure, Except.pure, eq_comm]

theorem exists_circuitsEquivalent (ha : prepare a options = .ok ca)
    (hb : prepare b options = .ok cb)
    (hlimit : max ca.qubits cb.qubits ≤ min options.maxQubits maxDenseQubits)
    (hma : ∀ i ∈ ca.instructions, i.isMeasure = false → i.gate.matrix.isSome = true)
    (hmb : ∀ i ∈ cb.instructions, i.isMeasure = false → i.gate.matrix.isSome = true) :
    ∃ r, circuitsEquivalent a b options = .ok r := by
  have hwa := wellFormed_of_prepare ha
  have hwb := wellFormed_of_prepare hb
  have hlimit' : max ca.qubits cb.qubits ≤
      min (Oracle.new options.maxQubits options.tolerance).maxQubits maxDenseQubits := by
    rw [Oracle.new, min_assoc, min_self]
    exact hlimit
  obtain ⟨same, hsame⟩ := exists_compare a.framework b.framework hwa hwb hlimit' hma hmb
  obtain ⟨mirrored, hmirrored⟩ := exists_compare a.framework b.framework hwa.mirrored hwb hlimit'
    (List.forall_mem_map.mpr hma) hmb
  simp only [circuitsEquivalent_eq_ok_iff ha hb]
  refine exists_comm.mp ⟨same, ?_⟩
  simp only [hsame, true_and]
  split_ifs
  · exact ⟨true, rfl⟩
  · exact ⟨mirrored, hmirrored⟩
  · exact ⟨false, rfl⟩

end

end Equivalence

end Interchange
end
