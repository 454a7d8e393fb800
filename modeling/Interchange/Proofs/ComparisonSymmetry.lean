import Interchange.Proofs.CircuitComparison
import Interchange.Proofs.ParamReading
import Interchange.Proofs.PhaseSymmetry

noncomputable section
namespace Interchange

/-- Two matrices differ by a phase, and neither vanishes. -/
def PhaseEqual {n : ℕ} (p q : QubitMatrix n) : Prop := q ≠ 0 ∧ ∃ z : ℂ, ‖z‖ = 1 ∧ p = z • q

theorem PhaseEqual.refl {n : ℕ} {p : QubitMatrix n} (h : p ≠ 0) : PhaseEqual p p :=
  ⟨h, 1, norm_one, (one_smul ℂ p).symm⟩

theorem PhaseEqual.symm {n : ℕ} {p q : QubitMatrix n} (h : PhaseEqual p q) : PhaseEqual q p := by
  obtain ⟨hq, z, hz, rfl⟩ := h
  have hzne : z ≠ 0 := norm_ne_zero_iff.mp (hz ▸ one_ne_zero)
  refine ⟨smul_ne_zero hzne hq, z⁻¹, by rw [norm_inv, hz, inv_one], ?_⟩
  rw [smul_smul, inv_mul_cancel₀ hzne, one_smul]

theorem embed_range {n : ℕ} (p : QubitMatrix n) : embed n (List.range n) p = p := by
  have hlist : QubitList n n (List.range n) :=
    ⟨List.length_range, List.nodup_range, fun q hq => List.mem_range.mp hq⟩
  have hrestrict (i : Fin (2 ^ n)) : restrict n n (List.range n) i = i := by
    apply Fin.ext
    apply eq_of_qubitBit_eq (Fin.isLt _) i.isLt
    intro q hq
    rw [qubitBit_restrict hlist i q (by rwa [List.length_range]), List.getElem_range]
  funext i j
  have hagree : AgreeOff n (List.range n) i j := fun q hq hfree =>
    absurd (List.mem_range.mpr hq) hfree
  rw [embed, if_pos hagree, hrestrict, hrestrict]

theorem embed_reverse_reverse {n : ℕ} (p : QubitMatrix n) :
    embed n (List.range n).reverse (embed n (List.range n).reverse p) = p := by
  have hlist := Circuit.qubitList_reverse_range n
  have hcompose : compose (List.range n).reverse (List.range n).reverse = List.range n := by
    refine List.ext_getElem (by simp [compose]) fun q hq hq' => ?_
    have hlt : q < n := by simpa using hq'
    simp only [compose, List.getElem_map, List.getElem_reverse, List.getElem_range,
      List.length_range]
    rw [Circuit.getD_reverse_range (by omega)]
    omega
  rw [embed_embed hlist hlist, hcompose, embed_range]

theorem PhaseEqual.mirror {n : ℕ} {p q : QubitMatrix n}
    (h : PhaseEqual (embed n (List.range n).reverse p) q) :
    PhaseEqual (embed n (List.range n).reverse q) p := by
  obtain ⟨hne, z, hz, hpq⟩ := h.symm
  refine ⟨fun hzero => hne ?_, z, hz, ?_⟩
  · simpa [hzero] using embed_smul n (List.range n).reverse 0 p
  · rw [hpq, embed_smul, embed_reverse_reverse]

namespace Equivalence

variable {oracle : Oracle ℝ} {fa fb : Framework} {a b : Circuit ℝ} {r : Bool}

/-- Without tolerance, circuits are compared exactly up to a phase. -/
theorem exists_phaseEqual_of_compare {n : ℕ} (ha : a.WellFormed) (hb : b.WellFormed)
    (hn : max a.qubits b.qubits = n) (htolerance : oracle.tolerance = 0)
    (h : compare oracle fa fb a b = .ok r) :
    ∃ p q : QubitMatrix n, timeProduct n (actions a.instructions) = some p ∧
      timeProduct n (actions b.instructions) = some q ∧ (r = true ↔ PhaseEqual p q) := by
  subst hn
  obtain ⟨u, v, hu, hv, rfl⟩ := (compare_eq_ok_iff ha hb).mp h
  obtain ⟨-, hud, hp⟩ := (Oracle.unitaryOf_eq_ok_iff (ha.of_le (Nat.le_max_left _ _))).mp hu
  obtain ⟨-, hvd, hq⟩ := (Oracle.unitaryOf_eq_ok_iff (hb.of_le (Nat.le_max_right _ _))).mp hv
  refine ⟨_, _, hp, hq, ?_⟩
  rw [htolerance]
  exact Operator.equalUpToPhase_zero_iff hud hvd

theorem compare_of_phaseEqual {n : ℕ} {p q : QubitMatrix n} (ha : a.WellFormed) (hb : b.WellFormed)
    (hn : max a.qubits b.qubits = n) (hlimit : n ≤ min oracle.maxQubits maxDenseQubits)
    (htolerance : oracle.tolerance = 0) (hp : timeProduct n (actions a.instructions) = some p)
    (hq : timeProduct n (actions b.instructions) = some q) (h : PhaseEqual p q) :
    compare oracle fa fb a b = .ok true := by
  subst hn
  obtain ⟨u, hu, hud, rfl⟩ :=
    unitaryOf_eq_timeProduct oracle _ (ha.of_le (Nat.le_max_left _ _)) hlimit hp
  obtain ⟨v, hv, hvd, rfl⟩ :=
    unitaryOf_eq_timeProduct oracle _ (hb.of_le (Nat.le_max_right _ _)) hlimit hq
  refine (compare_eq_ok_iff ha hb).mpr ⟨u, v, hu, hv, ?_⟩
  rw [htolerance]
  exact ((Operator.equalUpToPhase_zero_iff hud hvd).mpr h).symm

/-- If they are equally wide, so is the mirror image of one with the other. -/
theorem phaseEqual_of_compare_mirror {n : ℕ} {p q : QubitMatrix n} (ha : a.WellFormed)
    (hb : b.WellFormed) (hna : a.qubits = n) (hnb : b.qubits = n)
    (htolerance : oracle.tolerance = 0)
    (hp : timeProduct n (actions a.instructions) = some p)
    (hq : timeProduct n (actions b.instructions) = some q)
    (h : compare oracle fa fb a.mirrored b = .ok r) :
    r = true ↔ PhaseEqual (embed n (List.range n).reverse p) q := by
  subst hna
  have hlist := Circuit.qubitList_reverse_range a.qubits
  have hn : max a.mirrored.qubits b.qubits = a.qubits := by
    rw [hnb]
    exact Nat.max_self _
  obtain ⟨p', q', hp', hq', hiff⟩ :=
    exists_phaseEqual_of_compare ha.mirrored hb hn htolerance h
  obtain rfl := Option.some.inj (hq.symm.trans hq')
  obtain rfl := Option.some.inj ((timeProduct_onto hlist ha hp).symm.trans hp')
  exact hiff

end Equivalence

section

variable [Numeral ℝ]

/-- Without tolerance, the order of two native circuits does not matter to their comparison, unless
the mirror image may match and they are not equally wide. -/
theorem circuitsEquivalent_comm {a b : Native ℝ} {options : Options ℝ} {r s : Bool}
    (htolerance : options.tolerance = 0)
    (hwidth : ∀ ca cb, Equivalence.prepare a options = .ok ca →
      Equivalence.prepare b options = .ok cb → options.contiguous = true →
      options.reverse = true → ca.qubits = cb.qubits)
    (hr : circuitsEquivalent a b options = .ok r) (hs : circuitsEquivalent b a options = .ok s) :
    r = s := by
  obtain ⟨ca, hca, -⟩ := bind_eq_ok_iff.mp hr
  obtain ⟨cb, hcb, -⟩ := bind_eq_ok_iff.mp hs
  have hwa := Equivalence.wellFormed_of_prepare hca
  have hwb := Equivalence.wellFormed_of_prepare hcb
  obtain ⟨x, hx, hr⟩ := (Equivalence.circuitsEquivalent_eq_ok_iff hca hcb).mp hr
  obtain ⟨y, hy, hs⟩ := (Equivalence.circuitsEquivalent_eq_ok_iff hcb hca).mp hs
  obtain ⟨p, q, hp, hq, hxiff⟩ :=
    Equivalence.exists_phaseEqual_of_compare hwa hwb rfl htolerance hx
  obtain ⟨q', p', hq', hp', hyiff⟩ :=
    Equivalence.exists_phaseEqual_of_compare hwb hwa (Nat.max_comm _ _) htolerance hy
  obtain rfl := Option.some.inj (hp.symm.trans hp')
  obtain rfl := Option.some.inj (hq.symm.trans hq')
  obtain rfl : x = y := by
    rw [Bool.eq_iff_iff, hxiff, hyiff]
    exact ⟨.symm, .symm⟩
  cases x with
  | true => exact hr.trans hs.symm
  | false =>
    simp only [Bool.false_eq_true, if_false] at hr hs
    split_ifs at hr hs with hmirror
    · rw [Bool.and_eq_true] at hmirror
      have heq := hwidth ca cb hca hcb hmirror.1 hmirror.2
      have hna : ca.qubits = max ca.qubits cb.qubits := by rw [heq, Nat.max_self]
      have hnb : cb.qubits = max ca.qubits cb.qubits := by rw [heq, Nat.max_self]
      rw [Bool.eq_iff_iff,
        Equivalence.phaseEqual_of_compare_mirror hwa hwb hna hnb htolerance hp hq hr,
        Equivalence.phaseEqual_of_compare_mirror hwb hwa hnb hna htolerance hq hp hs]
      exact ⟨.mirror, .mirror⟩
    · exact hr.trans hs.symm

end

theorem timeProduct_idle {n q : ℕ} (hq : q < n) {is : List (Instruction ℝ)} {p : QubitMatrix n}
    (hp : timeProduct n (actions is) = some p) :
    timeProduct n (actions (.fixed .id [q] :: is)) = some p := by
  have hlist : QubitList n 1 [q] := ⟨rfl, List.nodup_singleton q, by simpa using hq⟩
  have hid : Tag.exactMatrix 1 .id [] = 1 := Operator.toMatrix_identity 1
  rw [actions_gate is rfl]
  refine timeProduct_cons.mpr ⟨_, p, rfl, hp, ?_⟩
  change p = p * embed n [q] (Tag.exactMatrix 1 .id [])
  rw [hid, embed_one hlist, mul_one]

theorem embed_flip_ne_zero {n q : ℕ} (hq : q < n) : embed n [q] (Tag.exactMatrix 1 .x []) ≠ 0 := by
  have hlist : QubitList n 1 [q] := ⟨rfl, List.nodup_singleton q, by simpa using hq⟩
  have hsquare : Tag.exactMatrix 1 .x [] * Tag.exactMatrix 1 .x [] = 1 := by
    rw [Tag.exactMatrix_x]
    ext i j
    fin_cases i <;> fin_cases j <;> simp [Matrix.mul_apply]
  intro hzero
  have hone := embed_mul hlist (Tag.exactMatrix 1 .x []) (Tag.exactMatrix 1 .x [])
  rw [hsquare, embed_one hlist, hzero, zero_mul] at hone
  exact one_ne_zero hone

def exactly : Options ℝ := { contiguous := true, reverse := true, tolerance := 0 }

theorem isSome_matrix_of_mem {p q : ℕ} :
    ∀ i ∈ [(.fixed .id [p] : Instruction ℝ), .fixed .x [q]],
      i.isMeasure = false → i.gate.matrix.isSome = true :=
  List.forall_mem_cons.mpr ⟨fun _ => rfl, List.forall_mem_singleton.mpr fun _ => rfl⟩

def flipFirst : Native ℝ := .qiskit {
  qubits := 2
  clbits := 0
  operations := [{ name := "id", qubits := [1] }, { name := "x", qubits := [0] }] }

def flipLast : Native ℝ := .qiskit {
  qubits := 2
  clbits := 0
  operations := [{ name := "id", qubits := [0] }, { name := "x", qubits := [1] }] }

theorem circuitsEquivalent_flipFirst_flipLast :
    @circuitsEquivalent ℝ _ Qasm.naturalNumeral flipFirst flipLast exactly = .ok true ∧
      @circuitsEquivalent ℝ _ Qasm.naturalNumeral flipLast flipFirst exactly = .ok true := by
  let _ : Numeral ℝ := Qasm.naturalNumeral
  have hfirst : Equivalence.prepare flipFirst exactly =
      .ok ⟨2, 0, [.fixed .id [1], .fixed .x [0]], {}, some false⟩ := rfl
  have hlast : Equivalence.prepare flipLast exactly =
      .ok ⟨2, 0, [.fixed .id [0], .fixed .x [1]], {}, some false⟩ := rfl
  have hwf := Equivalence.wellFormed_of_prepare hfirst
  have hwl := Equivalence.wellFormed_of_prepare hlast
  have hpf : timeProduct 2 (actions [.fixed .id [1], .fixed .x [0]]) =
      some (embed 2 [0] (Tag.exactMatrix 1 .x [])) :=
    timeProduct_idle one_lt_two (timeProduct_flip rfl)
  have hpl : timeProduct 2 (actions [.fixed .id [0], .fixed .x [1]]) =
      some (embed 2 [1] (Tag.exactMatrix 1 .x [])) :=
    timeProduct_idle two_pos (timeProduct_flip rfl)
  have htolerance : exactly.tolerance < 1 := one_pos
  -- the circuits differ, and the mirror image of the first is the second
  have hr : circuitsEquivalent flipFirst flipLast exactly = .ok true := by
    refine (Equivalence.circuitsEquivalent_eq_ok_iff hfirst hlast).mpr ⟨false, ?_, ?_⟩
    · exact Equivalence.compare_of_flip hwf hwl rfl (by decide) htolerance one_lt_two zero_ne_one
        hpf hpl
    · exact Equivalence.compare_of_phaseEqual hwf.mirrored hwl rfl (by decide) rfl hpl hpl
        (.refl (embed_flip_ne_zero one_lt_two))
  obtain ⟨s, hs⟩ := Equivalence.exists_circuitsEquivalent hlast hfirst (by decide)
    isSome_matrix_of_mem isSome_matrix_of_mem
  obtain rfl : true = s := by
    refine circuitsEquivalent_comm rfl (fun ca cb hca hcb _ _ => ?_) hr hs
    rw [← Except.ok.inj (hfirst.symm.trans hca), ← Except.ok.inj (hlast.symm.trans hcb)]
  exact ⟨hr, hs⟩

def flipOnly : Native ℝ := .qiskit {
  qubits := 1
  clbits := 0
  operations := [{ name := "x", qubits := [0] }] }

/-- The mirror image of the wider circuit matches, and that of the narrower one does not, as it
stays on the one qubit that it has. -/
theorem circuitsEquivalent_flipOnly_flipLast :
    @circuitsEquivalent ℝ _ Qasm.naturalNumeral flipOnly flipLast exactly = .ok false ∧
      @circuitsEquivalent ℝ _ Qasm.naturalNumeral flipLast flipOnly exactly = .ok true := by
  let _ : Numeral ℝ := Qasm.naturalNumeral
  have honly : Equivalence.prepare flipOnly exactly =
      .ok ⟨1, 0, [.fixed .x [0]], {}, some false⟩ := rfl
  have hlast : Equivalence.prepare flipLast exactly =
      .ok ⟨2, 0, [.fixed .id [0], .fixed .x [1]], {}, some false⟩ := rfl
  have hwo := Equivalence.wellFormed_of_prepare honly
  have hwl := Equivalence.wellFormed_of_prepare hlast
  have hpo : timeProduct 2 (actions [.fixed .x [0]]) =
      some (embed 2 [0] (Tag.exactMatrix 1 .x [])) :=
    timeProduct_flip rfl
  have hpl : timeProduct 2 (actions [.fixed .id [0], .fixed .x [1]]) =
      some (embed 2 [1] (Tag.exactMatrix 1 .x [])) :=
    timeProduct_idle two_pos (timeProduct_flip rfl)
  have hpm : timeProduct 2 (actions [.fixed .id [1], .fixed .x [0]]) =
      some (embed 2 [0] (Tag.exactMatrix 1 .x [])) :=
    timeProduct_idle one_lt_two (timeProduct_flip rfl)
  have htolerance : exactly.tolerance < 1 := one_pos
  constructor
  · refine (Equivalence.circuitsEquivalent_eq_ok_iff honly hlast).mpr ⟨false, ?_, ?_⟩
    · exact Equivalence.compare_of_flip hwo hwl rfl (by decide) htolerance one_lt_two zero_ne_one
        hpo hpl
    · exact Equivalence.compare_of_flip hwo.mirrored hwl rfl (by decide) htolerance one_lt_two
        zero_ne_one hpo hpl
  · refine (Equivalence.circuitsEquivalent_eq_ok_iff hlast honly).mpr ⟨false, ?_, ?_⟩
    · exact Equivalence.compare_of_flip hwl hwo rfl (by decide) htolerance two_pos one_ne_zero
        hpl hpo
    · exact Equivalence.compare_of_phaseEqual hwl.mirrored hwo rfl (by decide) rfl hpm hpo
        (.refl (embed_flip_ne_zero two_pos))

end Interchange
end
