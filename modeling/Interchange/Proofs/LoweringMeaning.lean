import Interchange.IonQ.Circuit
import Interchange.Proofs.ClosedForm
import Interchange.Proofs.LoweringSteps

noncomputable section
namespace Interchange

/-- An instruction is a measurement, or its gate has a matrix and no free parameter. -/
def Instruction.Evaluable (i : Instruction ℝ) : Prop :=
  i.isMeasure = false → i.gate.isParameterized = false ∧ ∃ m, i.gate.matrix = some m

namespace Lowering
open Synthesis

variable {table : GateTable} {b : Bindings ℝ} {tolerance : ℝ} {n : ℕ}

/-- `outs` does on `n` qubits what `is` does, up to a global phase, and stays on the register. -/
structure Preserves (n : ℕ) (is outs : List (Instruction ℝ)) : Prop where
  wellFormed : ∀ j ∈ outs, j.WellFormed n
  product : ∃ (p : QubitMatrix n) (z : ℂ), ‖z‖ = 1 ∧ timeProduct n (actions is) = some p ∧
    timeProduct n (actions outs) = some (z • p)

theorem Preserves.refl {is : List (Instruction ℝ)} (hw : ∀ i ∈ is, i.WellFormed n)
    {p : QubitMatrix n} (hp : timeProduct n (actions is) = some p) : Preserves n is is :=
  ⟨hw, p, 1, norm_one, hp, by rw [one_smul, hp]⟩

theorem Preserves.append {is js is' js' : List (Instruction ℝ)} (hi : Preserves n is is')
    (hj : Preserves n js js') : Preserves n (is ++ js) (is' ++ js') := by
  obtain ⟨hwi, p, z, hz, hp, hp'⟩ := hi
  obtain ⟨hwj, q, w, hw, hq, hq'⟩ := hj
  refine ⟨?_, q * p, w * z, by rw [norm_mul, hw, hz, one_mul], ?_, ?_⟩
  · intro j hmem
    exact (List.mem_append.mp hmem).elim (hwi j) (hwj j)
  · rw [actions_append]
    exact timeProduct_append hp hq
  · rw [actions_append, timeProduct_append hp' hq', smul_mul_smul_comm]

theorem Preserves.flatten {is : List (Instruction ℝ)} {outs : List (List (Instruction ℝ))}
    (h : List.Forall₂ (fun i out => Preserves n [i] out) is outs) :
    Preserves n is outs.flatten := by
  induction h with
  | nil => exact .refl (fun _ hi => absurd hi List.not_mem_nil) rfl
  | cons h _ ih => exact h.append ih

/-- What comes after a replacement counts against the replaced instruction. -/
theorem Preserves.replace {i : Instruction ℝ} {placed outs : List (Instruction ℝ)}
    {p : QubitMatrix n} {z : ℂ} (hz : ‖z‖ = 1) (hi : timeProduct n (actions [i]) = some p)
    (hplaced : timeProduct n (actions placed) = some (z • p)) (h : Preserves n placed outs) :
    Preserves n [i] outs := by
  obtain ⟨hw, q, w, hw1, hq, hq'⟩ := h
  obtain rfl : z • p = q := Option.some.inj (hplaced.symm.trans hq)
  exact ⟨hw, p, w * z, by rw [norm_mul, hw1, hz, one_mul], hi, by rw [hq', smul_smul]⟩

end Lowering

theorem timeProduct_single {n : ℕ} {i : Instruction ℝ} {m : Operator ℝ} (hm : i.isMeasure = false)
    (hg : i.gate.matrix = some m) :
    timeProduct n (actions [i]) = some (embed n i.qubits (m.toMatrix i.qubits.length)) := by
  rw [actions_gate _ hm]
  exact timeProduct_cons.mpr ⟨m, 1, hg, rfl, (one_mul _).symm⟩

namespace Lowering
open Synthesis

variable {table : GateTable} {b : Bindings ℝ} {tolerance : ℝ} {n : ℕ}

theorem placed_evaluable {i : Instruction ℝ} (hw : i.WellFormed n) {seq : Sequence ℝ}
    (hcore : Sequence.AllCore seq) {placed : List (Instruction ℝ)}
    (hplaced : Substitute.placeAll seq i.qubits = .ok placed) {p : QubitMatrix i.qubits.length}
    (hp : timeProduct i.qubits.length (Sequence.actions seq) = some p) :
    ∀ j ∈ placed, j.WellFormed n ∧ j.Evaluable := by
  intro j hj
  obtain ⟨s, hs, hplace⟩ := exists_of_forall₂_right (mapM_eq_ok_iff.mp hplaced) hj
  obtain ⟨hlt, hlen, hnodup, rfl⟩ := Substitute.place_eq_ok_iff.mp hplace
  obtain ⟨m, hm⟩ := exists_matrix_of_timeProduct hp _ (List.mem_map_of_mem hs)
  refine ⟨⟨(List.length_map _).trans hlen, hnodup, ?_⟩, fun _ => ⟨((hcore s hs).acts hm).2, m, hm⟩⟩
  intro q hq
  obtain ⟨p, hp, rfl⟩ := List.mem_map.mp hq
  rw [List.getD_eq_getElem _ _ (hlt p hp)]
  exact hw.lt _ (List.getElem_mem _)

/-- Lowering one instruction keeps what it does, whatever replacements are nested in it. -/
theorem instruction_preserves [Eigensolver ℝ] {levels : ℕ} {i : Instruction ℝ}
    {out : List (Instruction ℝ)}
    (hw : i.WellFormed n) (he : i.Evaluable)
    (hasked : ∀ g seq, Asked table b tolerance levels i g seq → Realizes seq g)
    (h : instruction table b tolerance levels i = .ok out) : Preserves n [i] out := by
  induction levels using Nat.strong_induction_on generalizing i out with
  | _ levels ih =>
    rcases instruction_cases h with ⟨hm, rfl⟩ | ⟨hm, g, hg, hcases⟩
    -- a measurement is no factor, so it may be kept or dropped
    · have hp : timeProduct n (actions [i]) = some 1 := by rw [actions_measure [] hm]; rfl
      split_ifs
      · exact ⟨by simp, 1, 1, norm_one, hp, congrArg some (one_smul ℂ _).symm⟩
      · exact .refl (by simpa using hw) hp
    obtain ⟨hsymbolic, m, hmatrix⟩ := he hm
    obtain rfl : i.gate = g :=
      Except.ok.inj ((bindFor_of_not_parameterized hsymbolic).symm.trans hg)
    have hp := timeProduct_single (n := n) hm hmatrix
    rcases hcases with ⟨-, j, hj, rfl⟩ |
      ⟨hs, rest, seq, placed, outs, rfl, hseq, hplaced, houts, rfl⟩
    · obtain ⟨-, rfl⟩ := Instruction.withGate_eq_ok_iff.mp hj
      exact .refl (by simpa using hw) hp
    -- the gate is replaced, and what replaces it is lowered with one level less
    · have hcore := decompose_allCore tolerance i.gate seq hseq
      obtain ⟨m', z, hm', hz, hprod⟩ := hasked _ _ (.here hm hg hs hseq)
      obtain rfl : m = m' := Option.some.inj (hmatrix.symm.trans hm')
      rw [← hw.length_eq] at hprod
      have hj := placed_evaluable hw hcore hplaced hprod
      have hplacedProduct := timeProduct_placed hw.qubitList hcore (mapM_eq_ok_iff.mp hplaced) hprod
      rw [embed_smul] at hplacedProduct
      refine .replace hz hp hplacedProduct (.flatten ?_)
      refine ((List.forall₂_and_left _ _).mpr ⟨fun j hj => hj, mapM_eq_ok_iff.mp houts⟩).imp ?_
      rintro j out ⟨hmem, hout⟩
      exact ih rest (Nat.lt_succ_self rest) (hj j hmem).1 (hj j hmem).2
        (fun g' seq' ha => hasked g' seq' (.deeper hm hg hs hseq hplaced hmem ha)) hout

/-- Lowering keeps what a circuit does, up to a global phase: for every table, every bindings and
every tolerance, if each replacement returned on the way multiplies out to the gate it replaces, the
lowered circuit has the same unitary up to a phase. -/
theorem unitaryOf_circuit [Eigensolver ℝ] (o : Oracle ℝ) {c c' : Circuit ℝ} (hw : c.WellFormed)
    (hn : c.qubits ≤ min o.maxQubits maxDenseQubits) (he : ∀ i ∈ c.instructions, i.Evaluable)
    (h : circuit table b tolerance c = .ok c')
    (hasked : ∀ i ∈ c.instructions, ∀ g seq, Asked table b tolerance maxDepth i g seq →
      Realizes seq g) :
    ∃ (u : Operator ℝ) (z : Amplitude ℝ), o.unitaryOf c = .ok u ∧ z.norm = 1 ∧
      o.unitaryOf c' = .ok (u.map (z * ·)) := by
  obtain ⟨outs, houts, -, rfl⟩ := circuit_eq_ok_iff.mp h
  have hpres : Preserves c.qubits c.instructions outs.flatten := by
    refine .flatten (((List.forall₂_and_left _ _).mpr
      ⟨fun i hi => hi, mapM_eq_ok_iff.mp houts⟩).imp ?_)
    rintro i out ⟨hi, hout⟩
    exact instruction_preserves (hw i hi) (he i hi) (hasked i hi) hout
  obtain ⟨hw', p, z, hz, hp, hp'⟩ := hpres
  obtain ⟨u, hu, hud, hup⟩ := unitaryOf_eq_timeProduct o c hw hn hp
  obtain ⟨v, hv, hvd, hvp⟩ :=
    unitaryOf_eq_timeProduct o { c with instructions := outs.flatten } hw' hn hp'
  refine ⟨u, ⟨z.re, z.im⟩, hu, (Amplitude.norm_eq _).trans hz, hv.trans (congrArg Except.ok ?_)⟩
  refine Operator.ext_toMatrix hvd hud (hvp.trans ?_)
  funext i j
  rw [Operator.toMatrix_map hud, Amplitude.toComplex_mul, ← hup]
  rfl

/-- A controlled exchange whose operands are out of order, then a measurement. -/
def exchangeThenMeasure : Circuit ℝ where
  qubits := 3
  clbits := 1
  instructions := [⟨⟨.cswap, [], Tag.cswap.matrix? []⟩, [2, 0, 1], []⟩, .measure 1 0]

attribute [local instance] Eigensolver.mixed

theorem unitaryOf_circuit_exchange :
    exchangeThenMeasure.WellFormed ∧ (∀ i ∈ exchangeThenMeasure.instructions, i.Evaluable) ∧
      ∃ (c' : Circuit ℝ) (u : Operator ℝ) (z : Amplitude ℝ),
        circuit IonQ.table {} 0 exchangeThenMeasure = .ok c' ∧ c'.instructions.length = 17 ∧
        (Oracle.new 12 0).unitaryOf exchangeThenMeasure = .ok u ∧ z.norm = 1 ∧
        (Oracle.new 12 0).unitaryOf c' = .ok (u.map (z * ·)) := by
  have hw : exchangeThenMeasure.WellFormed := by
    refine List.forall_mem_cons.mpr ⟨⟨rfl, by decide, by decide⟩, ?_⟩
    exact List.forall_mem_singleton.mpr ⟨rfl, by decide, by decide⟩
  have he : ∀ i ∈ exchangeThenMeasure.instructions, i.Evaluable := by
    refine List.forall_mem_cons.mpr ⟨fun _ => ⟨rfl, _, rfl⟩, ?_⟩
    exact List.forall_mem_singleton.mpr fun hm => absurd hm (by decide)
  have hasked : ∀ i ∈ exchangeThenMeasure.instructions, ∀ g seq,
      Asked IonQ.table {} 0 maxDepth i g seq → Realizes seq g := by
    refine List.forall_mem_cons.mpr ⟨?_, List.forall_mem_singleton.mpr ?_⟩
    · intro g seq ha
      obtain ⟨-, hg, hseq⟩ := ha.top (by decide)
      obtain rfl := Except.ok.inj hg
      obtain ⟨seq', hrule, hreal, -⟩ :=
        closedForm_of_rule (show Tag.cswap ∈ ruleTags by decide) rfl
          (show Gate.values? [] = some [] from rfl)
      rw [decompose_of_rule hrule] at hseq
      obtain rfl := Except.ok.inj hseq
      exact hreal
    · intro g seq ha
      exact absurd (ha.top (by decide)).1 (by decide)
  have h : ∃ c', circuit IonQ.table {} 0 exchangeThenMeasure = .ok c' ∧
      c'.instructions.length = 17 := ⟨_, rfl, rfl⟩
  obtain ⟨c', hc', hlen⟩ := h
  obtain ⟨u, z, hu, hz, hu'⟩ := unitaryOf_circuit (Oracle.new 12 0) hw (by decide) he hc' hasked
  exact ⟨hw, he, c', u, z, hc', hlen, hu, hz, hu'⟩

end Lowering

end Interchange
end
