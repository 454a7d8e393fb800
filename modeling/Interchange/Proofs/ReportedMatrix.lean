import Interchange.Proofs.ComparisonSymmetry
import Interchange.Proofs.DisjointExchange
import Interchange.Proofs.QiskitPassage

noncomputable section
namespace Interchange

section

variable {F : Type} [Scalar F]

/-- The gate that a tag and its numbers stand for, whatever matrix came with them. A gate that is
only a matrix keeps it. -/
def Gate.byTag (g : Gate F) : Gate F :=
  if g.tag = .unitary then g else { g with matrix := g.numeric?.bind g.tag.matrix? }

def Instruction.byTag (i : Instruction F) : Instruction F := { i with gate := i.gate.byTag }

def Circuit.byTags (c : Circuit F) : Circuit F :=
  { c with instructions := c.instructions.map Instruction.byTag }

namespace Gate

variable {g : Gate F}

theorem byTag_of_unitary (hu : g.tag = .unitary) : g.byTag = g := if_pos hu

theorem tag_byTag (g : Gate F) : g.byTag.tag = g.tag := by
  rw [byTag]
  split_ifs <;> rfl

theorem qubits_byTag (g : Gate F) : g.byTag.qubits = g.qubits := by
  by_cases hu : g.tag = .unitary
  · rw [byTag_of_unitary hu]
  · have hby : g.byTag.tag ≠ .unitary := g.tag_byTag ▸ hu
    rw [qubits_of_tag hby, qubits_of_tag hu, tag_byTag]

theorem matrix_byTag (hu : g.tag ≠ .unitary) {values : List F} (h : g.numeric? = some values) :
    g.byTag.matrix = g.tag.matrix? values := by
  rw [byTag, if_neg hu, h]
  rfl

theorem IsBuilt.exists_readAll_byTag [Numeral F] (h : g.IsBuilt) (hn : g.isParameterized = false)
    (c : Circuit F) :
    ∃ qs g', Angle.readAll c (g.params.map .ofParam) = .ok (c, qs) ∧ new g.tag qs = .ok g' ∧
      g'.tag = g.tag ∧ g'.matrix = g.byTag.matrix := by
  obtain ⟨values, hvalues, hlength, hfinite⟩ := h.exists_numeric hn
  obtain ⟨g', hnew, htag, hg'⟩ := exists_new_of_values h.tag_ne
    ((List.length_map Param.const).trans hlength) (values?_const values) hfinite
  refine ⟨_, g', ?_, hnew, htag, ?_⟩
  · rw [Angle.map_ofParam_of_values hvalues, Angle.readAll_values]
  · rw [hg'.matrix, htag, matrix_byTag h.tag_ne hvalues]

end Gate

theorem Instruction.WellFormed.byTag {i : Instruction F} {n : ℕ} (h : i.WellFormed n) :
    i.byTag.WellFormed n := by
  have hqubits : i.byTag.gate.qubits = i.gate.qubits := i.gate.qubits_byTag
  rw [Instruction.WellFormed, hqubits]
  exact h

theorem Instruction.isMeasure_byTag (i : Instruction F) : i.byTag.isMeasure = i.isMeasure :=
  congrArg (· == Tag.measure) i.gate.tag_byTag

end

/-- Equal up to a global phase, as matrices on `n` qubits. -/
def Operator.UpToPhase (n : ℕ) (u v : Operator ℝ) : Prop :=
  ∃ z : ℂ, ‖z‖ = 1 ∧ v.toMatrix n = z • u.toMatrix n

/-- The matrix that came with a gate, if any, is that of its tag up to a phase. -/
def Gate.IsFaithful (g : Gate ℝ) : Prop :=
  ∀ m m', g.matrix = some m → g.byTag.matrix = some m' → m.UpToPhase g.qubits m'

theorem Gate.isFaithful_of_matrix_eq {g : Gate ℝ} (h : g.byTag.matrix = g.matrix) :
    g.IsFaithful := by
  intro m m' hm hm'
  obtain rfl := Option.some.inj (hm'.symm.trans (h.trans hm))
  exact ⟨1, norm_one, (one_smul ℂ _).symm⟩

theorem Gate.IsMade.exists_matrix_byTag {g : Gate ℝ} (h : g.IsMade)
    (hn : g.isParameterized = false) (hm : g.tag ≠ .measure) : ∃ m, g.byTag.matrix = some m := by
  rcases h with hbuilt | ⟨m, hm⟩
  · obtain ⟨values, hvalues, hlength, -⟩ := hbuilt.exists_numeric hn
    rw [matrix_byTag hbuilt.tag_ne hvalues]
    exact Tag.exists_matrix hbuilt.tag_ne hm hlength
  · rw [eq_of_ofMatrix hm]
    exact ⟨m, rfl⟩

theorem embed_injective {n k : ℕ} {qs : List ℕ} (h : QubitList n k qs) :
    Function.Injective (embed (k := k) n qs) := by
  intro A B heq
  funext v w
  have hagree : AgreeOff n qs (replace h v 0) (replace h w 0) :=
    (agreeOff_replace h v 0).symm.trans (agreeOff_replace h w 0)
  have hentry := congrFun (congrFun heq (replace h v 0)) (replace h w 0)
  rwa [embed, embed, if_pos hagree, if_pos hagree, restrict_replace, restrict_replace] at hentry

namespace Lowering

variable {n : ℕ} {i : Instruction ℝ}

theorem preserves_iff_upToPhase {is js : List (Instruction ℝ)} {u v : Operator ℝ}
    (hw : ∀ j ∈ js, j.WellFormed n) (hu : timeProduct n (actions is) = some (u.toMatrix n))
    (hv : timeProduct n (actions js) = some (v.toMatrix n)) :
    Preserves n is js ↔ u.UpToPhase n v := by
  constructor
  · rintro ⟨-, p, z, hz, hp, hp'⟩
    obtain rfl := Option.some.inj (hu.symm.trans hp)
    exact ⟨z, hz, Option.some.inj (hv.symm.trans hp')⟩
  · rintro ⟨z, hz, heq⟩
    exact ⟨hw, _, z, hz, hu, heq ▸ hv⟩

/-- One instruction does what its tag says, up to a phase, if and only if its gate is faithful. -/
theorem preserves_byTag_iff (hw : i.WellFormed n) (hi : ¬i.LacksMatrix)
    (hlacks : ¬i.byTag.LacksMatrix) : Preserves n [i] [i.byTag] ↔ i.gate.IsFaithful := by
  have hby : ∀ j ∈ [i.byTag], j.WellFormed n := by simpa using hw.byTag
  have hmeasure := i.isMeasure_byTag
  cases hm : i.isMeasure with
  | true =>
    -- a measurement is no factor, and its tag has no matrix
    have htag : i.gate.tag = .measure := beq_iff_eq.mp hm
    have hnone : i.gate.byTag.matrix = none := by
      rw [Gate.byTag, htag, if_neg (by decide)]
      exact Option.bind_eq_none_iff.mpr fun values _ => Tag.matrix?_measure values
    refine iff_of_true ⟨hby, 1, 1, norm_one, ?_, ?_⟩ fun _ _ _ h' => ?_
    · rw [actions_measure [] hm]
      rfl
    · rw [actions_measure [] (hmeasure.trans hm), one_smul]
      rfl
    · rw [hnone] at h'
      cases h'
  | false =>
    obtain ⟨m, hm'⟩ := Option.ne_none_iff_exists'.mp fun h => hi ⟨hm, h⟩
    obtain ⟨m', hmby⟩ := Option.ne_none_iff_exists'.mp fun h => hlacks ⟨hmeasure.trans hm, h⟩
    have hp := timeProduct_single (n := n) hm hm'
    have hp' := timeProduct_single (n := n) (hmeasure.trans hm) hmby
    have hfaithful : i.gate.IsFaithful ↔ m.UpToPhase i.qubits.length m' := by
      rw [hw.length_eq]
      constructor
      · exact fun h => h m m' hm' hmby
      · rintro h _ _ hm₁ hm₂
        obtain rfl := Option.some.inj (hm'.symm.trans hm₁)
        obtain rfl := Option.some.inj (hmby.symm.trans hm₂)
        exact h
    rw [hfaithful]
    constructor
    · rintro ⟨-, p, z, hz, hq, hq'⟩
      obtain rfl := Option.some.inj (hp.symm.trans hq)
      refine ⟨z, hz, embed_injective hw.qubitList ?_⟩
      rw [embed_smul]
      exact Option.some.inj (hp'.symm.trans hq')
    · rintro ⟨z, hz, heq⟩
      refine ⟨hby, _, z, hz, hp, hp'.trans (congrArg some ?_)⟩
      rw [← embed_smul, ← heq]
      rfl

theorem preserves_map_byTag {is : List (Instruction ℝ)}
    (h : ∀ i ∈ is, Preserves n [i] [i.byTag]) : Preserves n is (is.map Instruction.byTag) := by
  induction is with
  | nil => exact .refl (fun _ hi => absurd hi List.not_mem_nil) rfl
  | cons i is ih =>
    obtain ⟨hi, his⟩ := List.forall_mem_cons.mp h
    exact hi.append (ih his)

end Lowering

/-- The unitary of the tags and numbers of a circuit. It is that of the circuit up to a phase where
all gates are faithful, and for a single gate only then. -/
theorem Oracle.exists_unitaryOf_byTags {o : Oracle ℝ} {c : Circuit ℝ} {u : Operator ℝ}
    (hw : c.WellFormed) (hmade : ∀ i ∈ c.instructions, i.gate.IsMade)
    (hn : ∀ i ∈ c.instructions, i.gate.isParameterized = false) (hu : o.unitaryOf c = .ok u) :
    ∃ v, o.unitaryOf c.byTags = .ok v ∧
      ((∀ i ∈ c.instructions, i.gate.IsFaithful) → u.UpToPhase c.qubits v) ∧
      ∀ i, c.instructions = [i] → (u.UpToPhase c.qubits v ↔ i.gate.IsFaithful) := by
  have hby : c.byTags.WellFormed := List.forall_mem_map.mpr fun i hi => (hw i hi).byTag
  obtain ⟨hlimit, hmatrix⟩ := (exists_unitaryOf_iff hw).mp ⟨u, hu⟩
  have hlacks : ∀ i ∈ c.instructions, ¬i.byTag.LacksMatrix := by
    rintro i hi ⟨hm, hnone⟩
    have hne : i.gate.tag ≠ .measure := fun heq =>
      Bool.false_ne_true (hm.symm.trans (i.isMeasure_byTag.trans (beq_iff_eq.mpr heq)))
    obtain ⟨m, hm⟩ := (hmade i hi).exists_matrix_byTag (hn i hi) hne
    exact Option.some_ne_none m (hm.symm.trans hnone)
  obtain ⟨v, hv⟩ := (exists_unitaryOf_iff hby).mpr ⟨hlimit, List.forall_mem_map.mpr hlacks⟩
  have hphase : Lowering.Preserves c.qubits c.instructions c.byTags.instructions ↔
      u.UpToPhase c.qubits v :=
    Lowering.preserves_iff_upToPhase hby ((unitaryOf_eq_ok_iff hw).mp hu).2.2
      ((unitaryOf_eq_ok_iff hby).mp hv).2.2
  have hgate (i : Instruction ℝ) (hi : i ∈ c.instructions) :
      Lowering.Preserves c.qubits [i] [i.byTag] ↔ i.gate.IsFaithful :=
    Lowering.preserves_byTag_iff (hw i hi) (hmatrix i hi) (hlacks i hi)
  refine ⟨v, hv, fun hfaithful => hphase.mp ?_, fun i hi => ?_⟩
  · exact Lowering.preserves_map_byTag fun i hi => (hgate i hi).mpr (hfaithful i hi)
  · have hsingle : c.byTags.instructions = [i.byTag] := congrArg (List.map Instruction.byTag) hi
    rw [← hphase, hsingle, hi]
    exact hgate i (hi ▸ List.mem_singleton_self i)

theorem Param.parseSum_name {F : Type} [Scalar F] (handle : String → Handle) {text : String}
    (h : Token.isPi text = false) :
    ∃ hlt, parseSum (F := F) handle [.name text] = .ok ⟨.ref (handle text), [], hlt⟩ := by
  unfold parseSum parseProduct parseUnary parseAtom
  simp [h, bind, Except.bind, pure, Except.pure, parseProductTail, parseSumTail, Parsed.since,
    Parsed.here, Parsed.weaken]

theorem Param.parse_name {F : Type} [Scalar F] {registry : Registry} {text : String} {x : Handle}
    (hscan : Token.scan text.toList = .ok [.name text]) (h : Token.isPi text = false)
    (hx : (registry.registerAll [text]).lookup? text = some x) :
    parse (F := F) registry text = (registry.registerAll [text], .ok (.ref x)) := by
  have hnames : Token.names [.name text] = [text] := by simp [Token.names, h]
  obtain ⟨_, hsum⟩ := parseSum_name (F := F) (fun name =>
    ((registry.registerAll [text]).lookup? name).getD ⟨(registry.registerAll [text]).size, name⟩) h
  unfold parse
  rw [hscan]
  dsimp only
  rw [hnames, hsum, hx]
  rfl

namespace Qiskit

section

variable [Numeral ℝ] {c : Circuit ℝ}

theorem exists_decode_byTags (hw : c.WellFormed) (hmade : ∀ i ∈ c.instructions, i.gate.IsMade)
    (hrecorded : ∀ i ∈ c.instructions, i.Recorded c.clbits)
    (hn : ∀ i ∈ c.instructions, i.gate.isParameterized = false) :
    ∃ d c', encode c = .ok d ∧ decode d = .ok c' ∧ c'.qubits = c.qubits ∧
      List.Forall₂ Instruction.SameAction c.byTags.instructions c'.instructions := by
  have hstep (i : Instruction ℝ) (hi : i ∈ c.instructions) :
      ∃ o, Operation.ofInstruction i = .ok o ∧
        ∀ c' : Circuit ℝ, c'.qubits = c.qubits → c'.clbits = c.clbits →
          ∃ j registry, i.byTag.SameAction j ∧ o.read c' = .ok (c'.extended [j] registry) := by
    have hrebuilds : i.Rebuilds fun g => g.tag = i.tag ∧ g.matrix = i.gate.byTag.matrix := by
      refine ⟨fun hu => ⟨rfl, by rw [Gate.byTag_of_unitary hu]⟩, fun hbuilt c => ?_⟩
      obtain ⟨qs, g, hread, hnew, htag, hmatrix⟩ := hbuilt.exists_readAll_byTag (hn i hi) c
      exact ⟨c.registry, qs, g, hread, hnew, htag, hmatrix⟩
    obtain ⟨o, ho, hread⟩ :=
      Operation.exists_extended (hw i hi) (hmade i hi) (hrecorded i hi) hrebuilds
    refine ⟨o, ho, fun c' hqubits hclbits => ?_⟩
    obtain ⟨j, registry, ⟨hj, -, htag, hmatrix⟩, hread⟩ := hread c' hqubits hclbits
    refine ⟨j, registry, ⟨hj, ?_, hmatrix⟩, hread⟩
    rw [Instruction.isMeasure_byTag, Instruction.isMeasure, Instruction.tag, htag]
    rfl
  obtain ⟨d, c', hd, hc', hqubits, -, hsame⟩ := exists_decode_of_read hstep
  exact ⟨d, c', hd, hc', hqubits, List.forall₂_map_left_iff.mpr hsame⟩

theorem ofCircuit_of_encode [Eigensolver ℝ] {d : Document ℝ} (hw : c.WellFormed)
    (hn : ∀ i ∈ c.instructions, i.gate.isParameterized = false) (h : encode c = .ok d)
    (tolerance : ℝ) : Native.ofCircuit .qiskit {} tolerance c = .ok (.qiskit d) := by
  refine TranspileError.lift_eq_ok_iff.mpr (bind_eq_ok_iff.mpr ⟨c, ?_, ?_⟩)
  · exact Lowering.circuit_of_supports hw rfl
      (fun i _ => Option.isSome_iff_exists.mpr ⟨_, (table_spec i.tag).1⟩) hn
  · exact bind_eq_ok_iff.mpr ⟨d, h, rfl⟩

/-- Documents that are written again mean what their tags say. For every document whose circuit has
a unitary and no free parameters, the circuit is written again and read again, and the result has
the unitary of the tags and numbers of the circuit: the matrices that the document reported with
tagged gates are dropped. Where each of them was the matrix of its tag up to a phase, the unitary is
the same up to a phase, and for a single gate only then. -/
theorem unitaryOf_reread [Eigensolver ℝ] (o : Oracle ℝ) (tolerance : ℝ) {d : Document ℝ}
    {u : Operator ℝ}
    (hd : decode d = .ok c) (hu : o.unitaryOf c = .ok u)
    (hn : ∀ i ∈ c.instructions, i.gate.isParameterized = false) :
    ∃ d' c' v, Native.ofCircuit .qiskit {} tolerance c = .ok (.qiskit d') ∧ decode d' = .ok c' ∧
      o.unitaryOf c' = .ok v ∧ o.unitaryOf c.byTags = .ok v ∧
      ((∀ i ∈ c.instructions, i.gate.IsFaithful) → u.UpToPhase c.qubits v) ∧
      ∀ i, c.instructions = [i] → (u.UpToPhase c.qubits v ↔ i.gate.IsFaithful) := by
  have hread : (Native.qiskit d).toCircuit = .ok c := TranspileError.lift_eq_ok_iff.mpr hd
  obtain ⟨_, hregistered⟩ := registered_of_decode d c hd
  have hw := hregistered.wellFormed
  have hby : c.byTags.WellFormed := List.forall_mem_map.mpr fun i hi => (hw i hi).byTag
  obtain ⟨d', c', hencode, hdecode, hqubits, hsame⟩ := exists_decode_byTags hw hregistered.made
    (Native.asRead_of_toCircuit hread).recorded hn
  obtain ⟨_, hregistered'⟩ := registered_of_decode d' c' hdecode
  obtain ⟨v, hv, hphase, hsingle⟩ := Oracle.exists_unitaryOf_byTags hw hregistered.made hn hu
  refine ⟨d', c', v, ofCircuit_of_encode hw hn hencode tolerance, hdecode, ?_, hv, hphase, hsingle⟩
  rw [Oracle.unitaryOf_eq_ok_iff hregistered'.wellFormed, hqubits, timeProduct_of_sameAction hsame]
  exact (Oracle.unitaryOf_eq_ok_iff hby).mp hv

end

/-- A flip that is reported with the opposite sign, a controlled one upwards, and a measurement. -/
def oppositeFlip : Document ℝ where
  qubits := 2
  clbits := 1
  operations :=
    [{ name := "x", qubits := [1], matrix := some [[(0, 0), (-1, 0)], [(-1, 0), (0, 0)]] },
      { name := "cx", qubits := [1, 0] }, { name := "measure", qubits := [0], clbits := [0] }]

def oppositeFlipped : Circuit ℝ where
  qubits := 2
  clbits := 1
  instructions :=
    [⟨⟨.x, [], some (.twoByTwo 0 ⟨-1, 0⟩ ⟨-1, 0⟩ 0)⟩, [1], []⟩, .fixed .cx [1, 0], .measure 0 0]

theorem isFaithful_oppositeFlipped : ∀ i ∈ oppositeFlipped.instructions, i.gate.IsFaithful := by
  have hopposite : (Operator.twoByTwo 0 ⟨-1, 0⟩ ⟨-1, 0⟩ 0 : Operator ℝ).UpToPhase 1
      (.twoByTwo 0 1 1 0) := by
    refine ⟨-1, by rw [norm_neg, norm_one], ?_⟩
    rw [Operator.toMatrix_twoByTwo, Operator.toMatrix_twoByTwo]
    simp
  refine List.forall_mem_cons.mpr ⟨?_, List.forall_mem_cons.mpr ⟨?_, ?_⟩⟩
  · rintro m m' ⟨⟩ ⟨⟩
    exact hopposite
  · exact Gate.isFaithful_of_matrix_eq rfl
  · exact List.forall_mem_singleton.mpr (Gate.isFaithful_of_matrix_eq rfl)

attribute [local instance] Eigensolver.mixed

theorem unitaryOf_reread_oppositeFlip :
    ∃ u d' c' v, decode oppositeFlip = .ok oppositeFlipped ∧
      (Oracle.new 12 0).unitaryOf oppositeFlipped = .ok u ∧
      (∀ i ∈ oppositeFlipped.instructions, i.gate.isParameterized = false) ∧
      @Native.ofCircuit ℝ _ Qasm.naturalNumeral _ .qiskit {} 0 oppositeFlipped =
        .ok (.qiskit d') ∧
      decode d' = .ok c' ∧ (Oracle.new 12 0).unitaryOf c' = .ok v ∧ u.UpToPhase 2 v := by
  let _ : Numeral ℝ := Qasm.naturalNumeral
  obtain ⟨u, hu⟩ : ∃ u, (Oracle.new 12 (0 : ℝ)).unitaryOf oppositeFlipped = .ok u := ⟨_, rfl⟩
  have hd : decode oppositeFlip = .ok oppositeFlipped := rfl
  have hn : ∀ i ∈ oppositeFlipped.instructions, i.gate.isParameterized = false := by
    refine List.forall_mem_cons.mpr ⟨rfl, List.forall_mem_cons.mpr ⟨rfl, ?_⟩⟩
    exact List.forall_mem_singleton.mpr rfl
  obtain ⟨d', c', v, hwrite, hread, hv, -, hphase, -⟩ := unitaryOf_reread (.new 12 0) 0 hd hu hn
  exact ⟨u, d', c', v, hd, hu, hn, hwrite, hread, hv, hphase isFaithful_oppositeFlipped⟩

def operating (o : Operation ℝ) (names : List String) : Document ℝ where
  qubits := 1
  parameters := names
  operations := [o]

def alone (g : Gate ℝ) (names : List String) : Circuit ℝ where
  qubits := 1
  clbits := 0
  instructions := [⟨g, [0], []⟩]
  registry := ⟨names⟩

/-- A flip that is reported with the matrix of the identity. -/
def idleFlip : Operation ℝ :=
  { name := "x", qubits := [0], matrix := some [[(1, 0), (0, 0)], [(0, 0), (1, 0)]] }

/-- A turn by a free angle that is reported with the matrix of the identity. -/
def idleTurn : Operation ℝ :=
  { name := "rx", qubits := [0], params := [.expression "theta"],
    matrix := some [[(1, 0), (0, 0)], [(0, 0), (1, 0)]] }

def plainTurn : Operation ℝ := { name := "rx", qubits := [0], params := [.expression "theta"] }

theorem not_upToPhase_flip :
    ¬((Operator.identity 2).applyGate 1 [0] (.identity 2)).UpToPhase 1
      ((Operator.twoByTwo 0 1 1 0).applyGate 1 [0] (.identity 2)) := by
  have hlist : QubitList 1 1 [0] := ⟨rfl, by decide, by decide⟩
  have hone : (Operator.identity 2 : Operator ℝ).toMatrix 1 = 1 := Operator.toMatrix_identity 1
  rintro ⟨z, -, h⟩
  rw [toMatrix_applyGate hlist _ _ rfl, toMatrix_applyGate hlist _ _ rfl,
    show [0] = List.range 1 from rfl, embed_range, embed_range, hone,
    Operator.toMatrix_twoByTwo] at h
  simpa using congrFun (congrFun h 0) 1

theorem readAll_theta {c : Circuit ℝ} (h : c.registry.registerAll ["theta"] = ⟨["theta"]⟩) :
    Angle.readAll c [.expression "theta"] =
      .ok ({ c with registry := ⟨["theta"]⟩ }, [.ref ⟨0, "theta"⟩]) := by
  have hparse : Param.parse (F := ℝ) c.registry "theta" = _ :=
    Param.parse_name (x := ⟨0, "theta"⟩) (by decide +kernel) rfl (h ▸ rfl)
  unfold Angle.readAll Angle.read Circuit.readParam
  dsimp only
  rw [hparse, h]
  rfl

/-- Reported matrices are not checked against the tags and not written, so a flip that was reported
as the identity comes back as a flip. A gate with a free parameter comes back without any matrix. -/
theorem unitaryOf_reported :
    (∃ c u d c' v, decode (operating idleFlip []) = .ok c ∧
      (Oracle.new 12 0).unitaryOf c = .ok u ∧
      @Native.ofCircuit ℝ _ Qasm.naturalNumeral _ .qiskit {} 0 c = .ok (.qiskit d) ∧
      decode d = .ok c' ∧ (Oracle.new 12 0).unitaryOf c' = .ok v ∧ ¬u.UpToPhase 1 v) ∧
    ∃ c u d c', decode (operating idleTurn []) = .ok c ∧
      (Oracle.new 12 0).unitaryOf c = .ok u ∧
      @Native.ofCircuit ℝ _ Qasm.naturalNumeral _ .qiskit {} 0 c = .ok (.qiskit d) ∧
      decode d = .ok c' ∧
      (Oracle.new 12 0).unitaryOf c' = .error (.circuit (.unboundParameter "theta")) := by
  have hread : idleTurn.readGate { qubits := 1, clbits := 0 } =
      .ok ({ qubits := 1, clbits := 0, registry := ⟨["theta"]⟩ },
        ⟨.rx, [.ref ⟨0, "theta"⟩], some (.identity 2)⟩) :=
    bind_eq_ok_iff.mpr ⟨some (.identity 2), rfl, bind_eq_ok_iff.mpr
      ⟨_, ConvertError.lift_eq_ok_iff.mpr (readAll_theta rfl), rfl⟩⟩
  have hagain : plainTurn.readGate { qubits := 1, clbits := 0, registry := ⟨["theta"]⟩ } =
      .ok ({ qubits := 1, clbits := 0, registry := ⟨["theta"]⟩ },
        ⟨.rx, [.ref ⟨0, "theta"⟩], none⟩) :=
    Operation.readGate_of_tag (show table.tag? "rx" = some .rx from rfl) (by decide) rfl
      (readAll_theta rfl) rfl
  refine ⟨⟨alone ⟨.x, [], some (.identity 2)⟩ [], _, _, alone ⟨.x, [], Tag.x.matrix? []⟩ [], _,
    rfl, rfl, rfl, rfl, rfl, not_upToPhase_flip⟩,
    alone ⟨.rx, [.ref ⟨0, "theta"⟩], some (.identity 2)⟩ ["theta"], _,
    operating plainTurn ["theta"], alone ⟨.rx, [.ref ⟨0, "theta"⟩], none⟩ ["theta"],
    ?_, rfl, rfl, ?_, rfl⟩
  · exact bind_eq_ok_iff.mpr ⟨_, bind_eq_ok_iff.mpr ⟨_, hread, rfl⟩, rfl⟩
  · exact bind_eq_ok_iff.mpr ⟨_, bind_eq_ok_iff.mpr ⟨_, hagain, rfl⟩, rfl⟩

end Qiskit

end Interchange
end
