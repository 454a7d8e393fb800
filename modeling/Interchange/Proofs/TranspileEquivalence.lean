import Mathlib.Data.Real.Basic
import Interchange.Proofs.CircuitComparison
import Interchange.Proofs.CirqPassage
import Interchange.Proofs.ParamReading
import Interchange.Proofs.ParamText
import Interchange.Proofs.ProgramReading
import Interchange.Proofs.StandardLowering

noncomputable section
namespace Interchange

namespace Qasm

variable {F : Type} [Scalar F]

theorem SameNumeric.alike {i j : Instruction F} (h : SameNumeric i j) (hi : i.gate.IsStandard)
    (hj : j.gate.IsStandard) : i.Alike j := by
  obtain ⟨values, hbefore, hafter⟩ := h.values
  obtain ⟨vs, hvs⟩ := hi
  obtain ⟨ws, hws⟩ := hj
  obtain rfl := Option.some.inj (hvs.params.symm.trans hbefore)
  obtain rfl := Option.some.inj (hws.params.symm.trans hafter)
  exact .of_values hvs hws h.tag h.qubits

variable [Numeral F]

/-- Whatever is read back from the program of a circuit does the same. -/
theorem alike_of_encode {version : Version} {c c' : Circuit F} {source : String}
    (hq : c.qubits < Number.indexLimit) (hc : c.clbits < Number.indexLimit)
    (hs : ∀ i ∈ c.instructions, Spelled version c.qubits c.clbits i)
    (hn : ∀ i ∈ c.instructions, i.gate.IsStandard) (hencode : encode version c = .ok source)
    (hdecode : decode version source = .ok c') :
    List.Forall₂ Instruction.Alike c.instructions c'.instructions := by
  have hlines : ∀ i ∈ c.instructions, ∃ w, LinePassage.Of version c.qubits c.clbits i w :=
    fun i hi => (hs i hi).exists_line hq hc
  choose! f hf using hlines
  have hfree : ∀ i ∈ c.instructions, i.gate.isParameterized = false := by
    intro i hi
    obtain ⟨values, hvalues⟩ := hn i hi
    exact hvalues.not_parameterized
  rw [encode, liftConvert_eq_ok_iff, write_of_passages hfree hf] at hencode
  obtain rfl := Except.ok.inj hencode
  obtain ⟨program, hprogram, hdecode⟩ := bind_eq_ok_iff.mp hdecode
  split_ifs at hdecode
  rw [liftConvert_eq_ok_iff] at hprogram hdecode
  have hparse := parse_programLines hq hc hf
  rw [parse, hprogram] at hparse
  obtain rfl := Except.ok.inj (hdecode.symm.trans hparse)
  rw [List.forall₂_map_right_iff, List.forall₂_same]
  exact fun i hi => (hf i hi).same.alike (hn i hi) (hf i hi).standard

/-- A number that can be written, and `pi`, have a text that is read as a parameter of the same
value. -/
theorem exists_paramPassage_of_writable [ExactArithmetic F] {p : Param F} {v : F}
    (hp : (∃ v, p = .const v) ∨ p = .pi) (hwritable : ∀ v, p = .const v → Writable v)
    (hv : p.value? = some v) (hfin : Scalar.isFinite v = true) : ∃ w, ParamPassage.Of p w := by
  have hspelling : ∃ text ts, writeParam [] p = .ok text ∧ Chunk text.toList ts ∧
      Spelling {} ts p := by
    rcases hp with ⟨u, rfl⟩ | rfl
    · exact exists_spelling (p := .const u) (hwritable u rfl)
    · exact exists_spelling (p := .pi) trivial
  obtain ⟨text, ts, hwrite, hchunk, hspelled⟩ := hspelling
  obtain ⟨e, he, q, hq, hequivalent⟩ := hspelled.whole
  refine ⟨⟨text, ts, e, q, v⟩, hwrite, hchunk, .sumOf he, hq, hv, ?_, hfin⟩
  exact Param.value?_of_evaluate ((hequivalent {} v).mpr (Param.evaluate_of_value? hv {}))

end Qasm

section

variable [Numeral ℝ]

/-- A framework can hold the numbers of a circuit: no exponent is taken for another, and the texts
of numbers read back. -/
def Framework.Keeps (f : Framework) (c : Circuit ℝ) : Prop :=
  match f with
  | .cirq => ∀ i ∈ c.instructions, ∀ v, i.gate.numeric? = some [v] → Cirq.KeepsAngle i.tag v
  | .qasm2 | .qasm3 =>
    c.clbits < Number.indexLimit ∧
      ∀ i ∈ c.instructions, ∀ v, .const v ∈ i.gate.params → Qasm.Writable v
  | .qiskit | .braket | .ionq => True

/-- Whatever is read back from the native form of a circuit does the same. -/
theorem Native.alike_of_ofLowered {f : Framework} {c c' : Circuit ℝ} {b : Native ℝ}
    (hi : ∀ i ∈ c.instructions, i.Numeric c.qubits c.clbits)
    (hs : ∀ i ∈ c.instructions, f.table.supports i.tag = true)
    (hk : f.Keeps c) (hq : c.qubits < Number.indexLimit) (hb : ofLowered f c = .ok b)
    (hc' : b.toCircuit = .ok c') :
    List.Forall₂ Instruction.Alike c.instructions c'.instructions := by
  -- every document starts from a circuit without instructions
  have hstart {js : List (Instruction ℝ)} {qubits clbits : ℕ} {registry : Registry}
      (halike : List.Forall₂ Instruction.Alike c.instructions js)
      (hgrows : Circuit.Grows { qubits, clbits, registry } js c') :
      List.Forall₂ Instruction.Alike c.instructions c'.instructions := by
    rwa [hgrows.instructions, List.nil_append]
  have hspelled {version : Qasm.Version} (htable : version.table = f.table)
      (hwritable : ∀ i ∈ c.instructions, ∀ v, .const v ∈ i.gate.params → Qasm.Writable v)
      (i : Instruction ℝ) (hmem : i ∈ c.instructions) :
      Qasm.Spelled version c.qubits c.clbits i := by
    obtain ⟨values, hvalues⟩ := (hi i hmem).standard
    refine ⟨hvalues.tag_ne, hvalues.length_params, (hi i hmem).wellFormed, htable ▸ hs i hmem, ?_,
      (hi i hmem).recorded⟩
    intro p hp
    obtain ⟨v, hv, hpv⟩ := hvalues.exists_value hp
    exact Qasm.exists_paramPassage_of_writable (hvalues.simple p hp)
      (fun u hu => hwritable i hmem u (hu ▸ hp)) hpv (hvalues.finite v hv)
  have hn : ∀ i ∈ c.instructions, i.gate.IsStandard := fun i hmem => (hi i hmem).standard
  unfold toCircuit at hc'
  rw [TranspileError.lift_eq_ok_iff] at hc'
  cases f with
  | qiskit =>
    obtain ⟨d, hd, hb⟩ := bind_eq_ok_iff.mp hb
    obtain ⟨os, hos, hd⟩ := bind_eq_ok_iff.mp hd
    cases hb
    cases hd
    obtain ⟨js, halike, hgrows⟩ := Circuit.foldlM_alike id (I := fun _ => True)
      (fun i hmem o ho _ _ _ h =>
        ⟨trivial, Qiskit.Operation.grows_of_ofInstruction (hi i hmem) ho h⟩)
      hos trivial hc'
    exact hstart halike hgrows
  | cirq =>
    obtain ⟨d, hd, hb⟩ := bind_eq_ok_iff.mp hb
    obtain ⟨os, hos, hd⟩ := bind_eq_ok_iff.mp hd
    cases hb
    cases hd
    obtain ⟨_, keys, _, hkeys, hrun⟩ := Cirq.exists_keys_of_decode hc'
    rw [Cirq.Document.operations_ofOperations] at hrun
    obtain ⟨js, halike, hgrows⟩ := Circuit.foldlM_alike Prod.fst (I := fun s => s.2.LeavesRoom)
      (fun i hmem o ho _ _ hroom h =>
        Cirq.Operation.grows_of_ofInstruction (hi i hmem) (hk i hmem) ho hroom h)
      hos (Cirq.KeyBits.leavesRoom_of_start hkeys) hrun
    exact hstart halike hgrows
  | braket =>
    obtain ⟨p, hp, hb⟩ := bind_eq_ok_iff.mp hb
    obtain ⟨os, hos, hp⟩ := bind_eq_ok_iff.mp hp
    cases hb
    cases hp
    obtain ⟨_, hrun⟩ := Braket.exists_run_of_decode hc'
    obtain ⟨js, halike, hgrows⟩ := Circuit.foldlM_alike id (I := fun _ => True)
      (fun i hmem o ho _ _ _ h =>
        ⟨trivial, Braket.Operation.grows_of_ofInstruction (hi i hmem) ho h⟩)
      hos trivial hrun
    exact hstart halike hgrows
  | ionq =>
    obtain ⟨d, hd, hb⟩ := bind_eq_ok_iff.mp hb
    obtain ⟨os, hos, hd⟩ := bind_eq_ok_iff.mp hd
    cases hb
    cases hd
    obtain ⟨js, halike, hgrows⟩ := Circuit.foldlM_alike id (I := fun _ => True)
      (fun i hmem o ho _ _ _ h => ⟨trivial, IonQ.Operation.grows_of_ofInstruction (hi i hmem) ho h⟩)
      hos trivial (IonQ.run_of_decode hc')
    exact hstart halike hgrows
  | qasm2 =>
    obtain ⟨source, hsource, hb⟩ := bind_eq_ok_iff.mp hb
    cases hb
    exact Qasm.alike_of_encode hq hk.1 (hspelled rfl hk.2) hn hsource hc'
  | qasm3 =>
    obtain ⟨source, hsource, hb⟩ := bind_eq_ok_iff.mp hb
    cases hb
    exact Qasm.alike_of_encode hq hk.1 (hspelled rfl hk.2) hn hsource hc'

end

theorem Framework.supports_commonCore (f : Framework) :
    ∀ tag ∈ Tag.commonCore, f.table.supports tag = true := by
  cases f <;> decide

theorem Framework.supports_measure {f : Framework} (h : f.table.implicitMeasurement = false) :
    f.table.supports .measure = true := by
  revert h
  cases f <;> decide

theorem Lowering.numeric_of_circuit [Eigensolver ℝ] {f : Framework} {b : Bindings ℝ} {tolerance : ℝ}
    {c c' : Circuit ℝ} (hw : c.WellFormed) (hs : ∀ i ∈ c.instructions, i.gate.IsStandard)
    (hr : ∀ i ∈ c.instructions, i.Recorded c.clbits)
    (h : circuit f.table b tolerance c = .ok c') :
    ∀ j ∈ c'.instructions, j.Numeric c'.qubits c'.clbits ∧ f.table.supports j.tag = true := by
  obtain ⟨hpreserves, hstandard⟩ := circuit_standard f.supports_commonCore hw hs h
  have hlands := exists_lands h
  obtain ⟨outs, -, -, rfl⟩ := circuit_eq_ok_iff.mp h
  intro j hj
  obtain ⟨hgate, hfrom⟩ := hstandard j hj
  have hrecorded : j.Recorded c.clbits ∧ f.table.supports j.tag = true := by
    obtain ⟨i, hi, ⟨rfl, hm, himplicit⟩ | ⟨hm, hsupports, -⟩⟩ := hlands j hj
    · refine ⟨hr j hi, ?_⟩
      rw [show j.tag = .measure from beq_iff_eq.mp hm]
      exact Framework.supports_measure himplicit
    · refine ⟨?_, hsupports⟩
      rcases hfrom with hmem | hbits
      · exact hr j hmem
      · rw [Instruction.Recorded, hm]
        exact hbits
  exact ⟨⟨hpreserves.wellFormed j hj, hgate, hrecorded.1⟩, hrecorded.2⟩

/-- The qubits that are left of a dense circuit are those below a bound, if no measurement is
dropped or if the dropped ones were last. -/
theorem Circuit.exists_referenced_eq_range {c c' : Circuit ℝ} {reverse implicit : Bool}
    (hlast : implicit = true → c.MeasuresLast reverse)
    (h : ∀ q, (∃ j ∈ c'.instructions, q ∈ j.qubits) ↔ ∃ i ∈ (c.dense reverse).instructions,
      q ∈ i.qubits ∧ (i.isMeasure = true → implicit = false)) :
    ∃ m ≤ c.referenced.length, c'.referenced = List.range m := by
  have hdense : (c.dense reverse).referenced = List.range c.referenced.length :=
    c.referenced_dense reverse
  cases implicit with
  | false =>
    refine ⟨_, le_rfl, referenced_eq_range fun q => ?_⟩
    rw [h q, ← List.mem_range, ← hdense, mem_referenced]
    simp
  | true =>
    obtain ⟨m, hm⟩ := (hlast rfl).exists_acts_iff
    have hiff (q : ℕ) : (∃ j ∈ c'.instructions, q ∈ j.qubits) ↔ q < m := by
      rw [h q, ← hm q, Acts]
      simp only [Bool.true_eq_false, imp_false, Bool.not_eq_true, and_comm]
    refine ⟨m, ?_, referenced_eq_range hiff⟩
    by_contra hlt
    have hacts := ((hm c.referenced.length).mpr (by omega)).mem_referenced
    rw [hdense, List.mem_range] at hacts
    omega

theorem Circuit.referenced_of_alike {c c' : Circuit ℝ}
    (h : List.Forall₂ Instruction.Alike c.instructions c'.instructions) :
    c'.referenced = c.referenced := by
  have hqubits : c'.instructions.map (·.qubits) = c.instructions.map (·.qubits) := by
    rw [← List.forall₂_eq_eq_eq, List.forall₂_map_left_iff, List.forall₂_map_right_iff]
    exact h.flip.imp fun j i hij => hij.qubits
  rw [referenced, referenced, List.flatMap_def, List.flatMap_def, hqubits]

section

variable [Numeral ℝ] {c c' : Circuit ℝ} {target : Framework} {reverse : Bool}

/-- What a dense circuit becomes on a framework and is read back as does the same up to a phase, on
qubits that are dense again. -/
theorem Native.preserves_of_toCircuit [Eigensolver ℝ] {lowered : Circuit ℝ} {b : Bindings ℝ}
    {tolerance : ℝ}
    {native : Native ℝ} (hread : c.AsRead) (hs : ∀ i ∈ c.instructions, i.gate.IsStandard)
    (hw : (c.dense reverse).WellFormed)
    (hlast : target.table.implicitMeasurement = true → c.MeasuresLast reverse)
    (hlower : Lowering.circuit target.table b tolerance (c.dense reverse) = .ok lowered)
    (hkeeps : target.Keeps lowered) (hwidth : c.referenced.length < Number.indexLimit)
    (hnative : ofLowered target lowered = .ok native) (hc' : native.toCircuit = .ok c') :
    (∀ j ∈ c'.instructions, j.gate.IsStandard) ∧
      ((c'.dense false).WellFormed → (c'.dense false).qubits ≤ c.referenced.length ∧
        Lowering.Preserves c.referenced.length (c.dense reverse).instructions
          (c'.dense false).instructions) := by
  have hs' : ∀ i ∈ (c.dense reverse).instructions, i.gate.IsStandard :=
    List.forall_mem_map.mpr hs
  have hr' : ∀ i ∈ (c.dense reverse).instructions, i.Recorded (c.dense reverse).clbits :=
    List.forall_mem_map.mpr hread.recorded
  have hnumeric := Lowering.numeric_of_circuit hw hs' hr' hlower
  obtain ⟨hpreserves, -⟩ := Lowering.circuit_standard target.supports_commonCore hw hs' hlower
  have hqubits : lowered.qubits = c.referenced.length := by
    obtain ⟨outs, -, -, rfl⟩ := Lowering.circuit_eq_ok_iff.mp hlower
    rfl
  have halike := alike_of_ofLowered (fun j hj => (hnumeric j hj).1)
    (fun j hj => (hnumeric j hj).2) hkeeps (hqubits ▸ hwidth) hnative hc'
  obtain ⟨m, hm, hrange⟩ := Circuit.exists_referenced_eq_range hlast
    (Lowering.exists_mem_qubits_circuit_iff hw hlower)
  rw [← Circuit.referenced_of_alike halike] at hrange
  constructor
  · intro j hj
    obtain ⟨i, -, hij⟩ := exists_of_forall₂_right halike hj
    exact hij.standard
  · intro hw'
    have hle : (c'.dense false).qubits ≤ c.referenced.length := by
      change c'.referenced.length ≤ _
      rw [hrange, List.length_range]
      exact hm
    obtain ⟨p, z, hz, hp, hq⟩ := hpreserves.product
    refine ⟨hle, hw'.of_le hle, p, z, hz, hp, ?_⟩
    rw [Circuit.instructions_dense_of_range hrange, timeProduct_of_alike halike]
    exact hq

/-- What is transpiled with dense qubits is found equivalent to its source under the same options,
if the target has measurements or the qubits that are only measured come last, and if the numbers
survive in the target. -/
theorem circuitsEquivalent_transpile [Eigensolver ℝ] {a b : Native ℝ} {options : Options ℝ}
    {r : Bool}
    (hc : a.toCircuit = .ok c) (hs : ∀ i ∈ c.instructions, i.gate.IsStandard)
    (hcontiguous : options.contiguous = true) (htolerance : 0 < options.tolerance)
    (hlast : target.table.implicitMeasurement = true → c.MeasuresLast options.reverse)
    (hkeeps : ∀ lowered, Lowering.circuit target.table options.bindings options.tolerance
      (c.dense options.reverse) = .ok lowered → target.Keeps lowered)
    (hb : transpile a target options = .ok b) (hr : circuitsEquivalent a b options = .ok r) :
    r = true := by
  have hread := Native.asRead_of_toCircuit hc
  -- the circuit on its way: dense, lowered, written and read again
  obtain ⟨_, hc₁, hb⟩ := bind_eq_ok_iff.mp hb
  obtain rfl := Except.ok.inj (hc.symm.trans hc₁)
  rw [if_pos hcontiguous] at hb
  obtain ⟨dense, hdense, hb⟩ := bind_eq_ok_iff.mp hb
  rw [TranspileError.liftCircuit_eq_ok_iff,
    Circuit.compress_eq_ok_iff (by simp [hread.layout])] at hdense
  obtain ⟨hw, rfl⟩ := hdense
  obtain ⟨lowered, hlower, hnative⟩ := bind_eq_ok_iff.mp (TranspileError.lift_eq_ok_iff.mp hb)
  -- what is compared
  obtain ⟨ca, hca, hr⟩ := bind_eq_ok_iff.mp hr
  obtain ⟨cb, hcb, hr⟩ := bind_eq_ok_iff.mp hr
  obtain ⟨same, hsame, hr⟩ := bind_eq_ok_iff.mp hr
  obtain ⟨hwa, rfl⟩ := Equivalence.prepare_eq_ok hc hs hcontiguous hca
  have hwidth : c.referenced.length < Number.indexLimit := by
    have hwb := Equivalence.wellFormed_of_prepare hcb
    have hlimit := Equivalence.qubits_le_of_compare hwa hwb hsame
    have hmax : maxDenseQubits < Number.indexLimit := by decide
    have hle : c.referenced.length ≤ maxDenseQubits :=
      (Nat.le_max_left _ _).trans (hlimit.trans (Nat.min_le_right _ _))
    exact hle.trans_lt hmax
  obtain ⟨c', hc', -⟩ := bind_eq_ok_iff.mp hcb
  obtain ⟨hs', hpreserves⟩ := Native.preserves_of_toCircuit hread hs hw hlast hlower
    (hkeeps lowered hlower) hwidth hnative hc'
  obtain ⟨hwb, rfl⟩ := Equivalence.prepare_eq_ok hc' hs' hcontiguous hcb
  obtain ⟨hle, hpreserves⟩ := hpreserves hwb
  cases same with
  | true => exact (Except.ok.inj hr).symm
  | false =>
    rw [if_neg Bool.false_ne_true, hcontiguous, Bool.true_and] at hr
    cases hreverse : options.reverse with
    | false =>
      rw [hreverse] at hpreserves
      exact absurd (Equivalence.compare_of_preserves htolerance hwa hwb hle hpreserves hsame)
        Bool.false_ne_true
    | true =>
      rw [hreverse] at hr hpreserves hw
      obtain ⟨mirrored, hmirrored, hr⟩ := bind_eq_ok_iff.mp hr
      rw [TranspileError.liftCircuit_eq_ok_iff] at hmirrored
      obtain rfl := Circuit.mirror_dense hmirrored
      exact Equivalence.compare_of_preserves (a := { c.dense true with layout := some false })
        htolerance hw hwb hle hpreserves hr

end

def pairOn (p q : ℕ) : List (Instruction ℝ) :=
  [.fixed .h [p], .fixed .cx [p, q]]

theorem isStandard_of_mem_pairOn {p q : ℕ} : ∀ i ∈ pairOn p q, i.gate.IsStandard := by
  unfold pairOn
  rw [List.forall_mem_cons, List.forall_mem_singleton]
  exact ⟨Gate.isStandard_of_tag (by decide) rfl, Gate.isStandard_of_tag (by decide) rfl⟩

theorem isStandard_of_mem_measure {q bit : ℕ} :
    ∀ i ∈ [(Instruction.measure q bit : Instruction ℝ)], i.gate.IsStandard :=
  List.forall_mem_singleton.mpr ⟨[], Gate.hasValues_measure⟩

def pairMeasured (n p q : ℕ) : Circuit ℝ where
  qubits := n
  clbits := 1
  instructions := pairOn p q ++ [.measure 0 0]

theorem isStandard_of_mem_pairMeasured (n p q : ℕ) :
    ∀ i ∈ (pairMeasured n p q).instructions, i.gate.IsStandard :=
  List.forall_mem_append.mpr ⟨isStandard_of_mem_pairOn, isStandard_of_mem_measure⟩

theorem measuresLast_pairMeasured : (pairMeasured 6 5 2).MeasuresLast true := by
  intro p q hp hq hfree
  have hacts (k : ℕ) : (pairMeasured 6 5 2).Acts k ↔ k = 5 ∨ k = 2 := by
    simp [Circuit.Acts, pairMeasured, pairOn, Instruction.fixed, Instruction.isMeasure,
      Instruction.tag, Instruction.measure, Gate.measure]
  have hreferenced : (pairMeasured 6 5 2).referenced = [0, 2, 5] := rfl
  rw [hacts] at hp hfree
  rw [hreferenced] at hq
  simp only [List.mem_cons, List.not_mem_nil, or_false] at hq
  rw [if_pos rfl]
  omega

/-- A pair of qubits, and a measured one before them. -/
def pairThenMeasure : Native ℝ := .qiskit {
  qubits := 6
  clbits := 1
  operations :=
    [{ name := "h", qubits := [5] }, { name := "cx", qubits := [5, 2] },
      { name := "measure", qubits := [0], clbits := [0] }] }

def pairWritten : Native ℝ := .braket {
  operations :=
    [{ type := "h", operands := { target := some 0 } },
      { type := "cnot", operands := { control := some 0, target := some 1 } }] }

def backwards : Options ℝ := { contiguous := true, reverse := true, tolerance := 1 / 1000 }

attribute [local instance] Eigensolver.mixed

theorem circuitsEquivalent_pairThenMeasure :
    ∃ c, @Native.toCircuit ℝ _ Qasm.naturalNumeral pairThenMeasure = .ok c ∧
      (∀ i ∈ c.instructions, i.gate.IsStandard) ∧ c.MeasuresLast backwards.reverse ∧
      @transpile ℝ _ Qasm.naturalNumeral _ pairThenMeasure .braket backwards = .ok pairWritten ∧
      @circuitsEquivalent ℝ _ Qasm.naturalNumeral pairThenMeasure pairWritten backwards =
        .ok true := by
  let _ : Numeral ℝ := Qasm.naturalNumeral
  have hc : pairThenMeasure.toCircuit = .ok (pairMeasured 6 5 2) := rfl
  have hb : transpile pairThenMeasure .braket backwards = .ok pairWritten := rfl
  have hkeeps (lowered : Circuit ℝ) : Framework.braket.Keeps lowered := trivial
  have hsource : Equivalence.prepare pairThenMeasure backwards =
      .ok { pairMeasured 3 2 1 with layout := some false } := rfl
  have hwritten : Equivalence.prepare pairWritten backwards =
      .ok { qubits := 2, clbits := 0, instructions := pairOn 0 1, layout := some false } := rfl
  obtain ⟨r, hr⟩ := Equivalence.exists_circuitsEquivalent hsource hwritten (by decide)
    (fun i hi => Instruction.isSome_matrix (isStandard_of_mem_pairMeasured 3 2 1 i hi))
    (fun i hi => Instruction.isSome_matrix (isStandard_of_mem_pairOn i hi))
  have hs := isStandard_of_mem_pairMeasured 6 5 2
  have htolerance : 0 < backwards.tolerance := by norm_num [backwards]
  obtain rfl : r = true := circuitsEquivalent_transpile hc hs rfl htolerance
    (fun _ => measuresLast_pairMeasured) (fun lowered _ => hkeeps lowered) hb hr
  exact ⟨_, hc, hs, measuresLast_pairMeasured, hb, hr⟩

/-- A measured qubit before the one that is acted on. -/
def flipThenMeasure : Native ℝ := .qiskit {
  qubits := 2
  clbits := 1
  operations :=
    [{ name := "x", qubits := [1] }, { name := "measure", qubits := [0], clbits := [0] }] }

def flipWritten : Native ℝ :=
  .braket { operations := [{ type := "x", operands := { target := some 1 } }] }

def inOrder : Options ℝ := { contiguous := true, tolerance := 1 / 1000 }

/-- The measurement is not written, so the qubit of the gate moves to the first place when the
output is read again. -/
theorem circuitsEquivalent_flipThenMeasure :
    ∃ c, @Native.toCircuit ℝ _ Qasm.naturalNumeral flipThenMeasure = .ok c ∧
      (∀ i ∈ c.instructions, i.gate.IsStandard) ∧ inOrder.contiguous = true ∧
      @transpile ℝ _ Qasm.naturalNumeral _ flipThenMeasure .braket inOrder = .ok flipWritten ∧
      @circuitsEquivalent ℝ _ Qasm.naturalNumeral flipThenMeasure flipWritten inOrder =
        .ok false := by
  let _ : Numeral ℝ := Qasm.naturalNumeral
  have hsource : Equivalence.prepare flipThenMeasure inOrder =
      .ok ⟨2, 1, [.fixed .x [1], .measure 0 0], {}, some false⟩ := rfl
  have hwritten : Equivalence.prepare flipWritten inOrder =
      .ok ⟨1, 0, [.fixed .x [0]], {}, some false⟩ := rfl
  refine ⟨⟨2, 1, [.fixed .x [1], .measure 0 0], {}, none⟩, rfl, ?_, rfl, rfl, ?_⟩
  · exact List.forall_mem_cons.mpr
      ⟨Gate.isStandard_of_tag (by decide) rfl, isStandard_of_mem_measure⟩
  · refine (Equivalence.circuitsEquivalent_eq_ok_iff hsource hwritten).mpr ⟨false, ?_, rfl⟩
    have htolerance : inOrder.tolerance < 1 := by norm_num [inOrder]
    exact Equivalence.compare_of_flip (Equivalence.wellFormed_of_prepare hsource)
      (Equivalence.wellFormed_of_prepare hwritten) rfl (by decide) htolerance (by decide)
      one_ne_zero (timeProduct_flip rfl) (timeProduct_flip rfl)

end Interchange
end
