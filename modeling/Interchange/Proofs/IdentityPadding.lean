import Interchange.Proofs.InPlaceProduct
import Interchange.Proofs.LayoutMarker

namespace Interchange

/-- Exact arithmetic in which a product with zero is zero. -/
class ExactProducts (F : Type) [Scalar F] : Prop extends ExactArithmetic F where
  zero_mul (x : F) : 0 * x = 0

instance : ExactProducts ℝ where
  zero_mul := zero_mul

section Amplitudes

variable {F : Type} [Scalar F] [ExactProducts F]

namespace Amplitude

theorem one_mul_exact (z : Amplitude F) : 1 * z = z := by
  change Amplitude.mk (1 * z.re - 0 * z.im) (1 * z.im + 0 * z.re) = z
  rw [ExactArithmetic.one_mul, ExactArithmetic.one_mul, ExactProducts.zero_mul,
    ExactProducts.zero_mul, ExactArithmetic.sub_zero, ExactArithmetic.add_zero]

theorem zero_mul_exact (z : Amplitude F) : 0 * z = 0 := by
  change Amplitude.mk (0 * z.re - 0 * z.im) (0 * z.im + 0 * z.re) = ⟨0, 0⟩
  rw [ExactProducts.zero_mul, ExactProducts.zero_mul, ExactArithmetic.sub_zero,
    ExactArithmetic.add_zero]

theorem zero_add_exact (z : Amplitude F) : 0 + z = z := by
  change Amplitude.mk (0 + z.re) (0 + z.im) = z
  rw [ExactArithmetic.zero_add, ExactArithmetic.zero_add]

theorem add_zero_exact (z : Amplitude F) : z + 0 = z := by
  change Amplitude.mk (z.re + 0) (z.im + 0) = z
  rw [ExactArithmetic.add_zero, ExactArithmetic.add_zero]

end Amplitude

theorem setQubitBit_self (n q i : ℕ) : setQubitBit n q (qubitBit n q i) i = i := by
  have hle : qubitBit n q i * Nat.pow 2 (n - 1 - q) ≤ i :=
    calc qubitBit n q i * Nat.pow 2 (n - 1 - q)
        ≤ i / Nat.pow 2 (n - 1 - q) * Nat.pow 2 (n - 1 - q) :=
          Nat.mul_le_mul_right _ (Nat.mod_le _ 2)
      _ ≤ i := Nat.div_mul_le_self _ _
  rw [setQubitBit, Nat.sub_add_cancel hle]

theorem Operator.applyGate_identity {n q : ℕ} (hq : q < n) {u : Operator F} (hu : u.dim = 2 ^ n) :
    (identity 2).applyGate n [q] u = u := by
  have hlist : QubitList n 1 [q] :=
    ⟨rfl, List.nodup_singleton q, List.forall_mem_singleton.mpr hq⟩
  rw [applyGate_eq_applyOn hlist _ hu]
  refine ext_get rfl fun i hi j hj => ?_
  have hbit : restrictBits n [q] i = qubitBit n q i := by
    change 2 * 0 + qubitBit n q i = _
    omega
  have hreplace (k : ℕ) (hk : k < 2) : replaceBits n [q] k i = setQubitBit n q k i := by
    change setQubitBit n q (k / 1 % 2) i = _
    rw [Nat.div_one, Nat.mod_eq_of_lt hk]
  have hsum : (applyOn n [q] (identity 2) u).get i j =
      0 + (identity 2).get (qubitBit n q i) 0 * u.get (setQubitBit n q 0 i) j +
        (identity 2).get (qubitBit n q i) 1 * u.get (setQubitBit n q 1 i) j := by
    rw [get_applyOn n [q] _ u hi hj, entryOn, hbit, ← hreplace 0 (by decide),
      ← hreplace 1 (by decide)]
    rfl
  have hself := setQubitBit_self n q i
  have hlt : qubitBit n q i < 2 := Nat.mod_lt _ (by decide)
  rw [hsum]
  -- the entry for the bit that is there is one, and the other is zero
  generalize qubitBit n q i = b at hself hlt ⊢
  rw [identity, get_ofFn _ _ hlt (by decide), get_ofFn _ _ hlt (by decide)]
  obtain rfl | rfl : b = 0 ∨ b = 1 := by omega
  · rw [if_pos rfl, if_neg (by decide), hself, Amplitude.one_mul_exact, Amplitude.zero_mul_exact,
      Amplitude.zero_add_exact, Amplitude.add_zero_exact]
  · rw [if_neg (by decide), if_pos rfl, hself, Amplitude.one_mul_exact, Amplitude.zero_mul_exact,
      Amplitude.add_zero_exact, Amplitude.zero_add_exact]

end Amplitudes

namespace Circuit

variable {F : Type}

def idle (c : Circuit F) : List ℕ := (List.range c.qubits).filter (!c.referenced.contains ·)

theorem mem_idle {c : Circuit F} {q : ℕ} :
    q ∈ c.idle ↔ q < c.qubits ∧ ∀ i ∈ c.instructions, q ∉ i.qubits := by
  simp [idle, mem_referenced]

theorem pairwise_idle (c : Circuit F) : c.idle.Pairwise (· < ·) :=
  List.pairwise_lt_range.filter _

theorem idle_eq_nil_iff {c : Circuit F} : c.idle = [] ↔ c.Covered := by
  rw [List.eq_nil_iff_forall_not_mem, Covered]
  refine forall_congr' fun q => ?_
  rw [mem_idle]
  push Not
  rfl

variable [Scalar F]

/-- The circuit with the identity on every idle qubit. -/
def identityPadded (c : Circuit F) : Circuit F :=
  { c with instructions := c.instructions ++ c.idle.map fun q => .fixed .id [q] }

theorem identityPadded_of_covered {c : Circuit F} (h : c.Covered) : c.identityPadded = c := by
  rw [identityPadded, idle_eq_nil_iff.mpr h, List.map_nil, List.append_nil]

theorem wellFormed_identityPadded {c : Circuit F} (hw : c.WellFormed) :
    c.identityPadded.WellFormed := by
  intro i hi
  rcases List.mem_append.mp hi with hold | hnew
  · exact hw i hold
  · obtain ⟨q, hq, rfl⟩ := List.mem_map.mp hnew
    exact ⟨rfl, List.nodup_singleton q, List.forall_mem_singleton.mpr (mem_idle.mp hq).1⟩

theorem covered_identityPadded (c : Circuit F) : c.identityPadded.Covered := by
  intro q hq
  by_cases hused : ∃ i ∈ c.instructions, q ∈ i.qubits
  · obtain ⟨i, hi, hqi⟩ := hused
    exact ⟨i, List.mem_append_left _ hi, hqi⟩
  · push Not at hused
    have hidle : q ∈ c.idle := mem_idle.mpr ⟨hq, hused⟩
    exact ⟨.fixed .id [q], List.mem_append_right _ (List.mem_map_of_mem hidle),
      List.mem_singleton_self q⟩

theorem expandIdentity_eq_identityPadded {c : Circuit F} (hw : c.WellFormed) :
    c.expandIdentity = .ok c.identityPadded := by
  have hpadding :
      c.idle.mapM (fun q => Instruction.new (F := F) ⟨.id, [], Tag.matrix? .id []⟩ [q]) =
        .ok (c.idle.map fun q => .fixed .id [q]) :=
    mapM_eq_ok_iff.mpr (List.forall₂_map_right_iff.mpr (List.forall₂_same.mpr fun q _ => rfl))
  have hwhole : c.withInstructions (c.instructions ++ c.idle.map fun q => .fixed .id [q]) =
      .ok c.identityPadded :=
    withInstructions_eq_ok_iff.mpr ⟨fun i hi => (wellFormed_identityPadded hw i hi).lt, rfl⟩
  refine bind_eq_ok_iff.mpr ⟨⟨.id, [], Tag.matrix? .id []⟩, rfl, ?_⟩
  exact bind_eq_ok_iff.mpr ⟨_, hpadding, hwhole⟩

theorem isContiguous_identityPadded {c : Circuit F} (hw : c.WellFormed) :
    c.identityPadded.isContiguous = true := by
  have hreferenced :=
    (covered_iff_referenced (wellFormed_identityPadded hw)).mp c.covered_identityPadded
  rw [isContiguous, hreferenced, List.length_range, beq_self_eq_true]

/-- There is nothing to expand where every qubit is in use. -/
theorem expandIdentity_of_covered {c : Circuit F} (hw : c.WellFormed) (h : c.Covered) :
    c.expandIdentity = .ok c := by
  rw [expandIdentity_eq_identityPadded hw, identityPadded_of_covered h]

theorem foldlM_step_padding [ExactProducts F] {n : ℕ} {qs : List ℕ} (hqs : ∀ q ∈ qs, q < n)
    {u : Operator F} (hu : u.dim = 2 ^ n) :
    (qs.map fun q => Instruction.fixed .id [q]).foldlM (Oracle.step n) u = .ok u := by
  induction qs with
  | nil => rfl
  | cons q qs ih =>
    have hstep : Oracle.step n u (.fixed .id [q]) = .ok u :=
      congrArg Except.ok (Operator.applyGate_identity (hqs q List.mem_cons_self) hu)
    rw [List.map_cons, List.foldlM_cons, hstep]
    exact ih fun p hp => hqs p (List.mem_cons_of_mem q hp)

theorem unitaryOf_identityPadded [ExactProducts F] (o : Oracle F) (c : Circuit F) :
    o.unitaryOf c.identityPadded = o.unitaryOf c := by
  unfold Oracle.unitaryOf identityPadded
  dsimp only
  split_ifs
  · rfl
  · rw [List.foldlM_append]
    refine Eq.trans (bind_congr_ok fun u hu => ?_) (bind_eq_self fun _ => rfl)
    exact foldlM_step_padding (fun q hq => (mem_idle.mp hq).1) (Oracle.dim_foldlM_step _ u hu)

/-- Expansion of a well-formed circuit puts one identity on each idle qubit, in increasing order,
behind its instructions, and leaves all else. Then every qubit is in use, so that a second expansion
changes nothing, as does an expansion after a compression; and the circuit does what it did. -/
theorem expandIdentity_pads {c : Circuit F} (hw : c.WellFormed) :
    ∃ (c' : Circuit F) (idle : List ℕ), c.expandIdentity = .ok c' ∧
      c' = { c with instructions := c.instructions ++ idle.map fun q => .fixed .id [q] } ∧
      idle.Pairwise (· < ·) ∧
      (∀ q, q ∈ idle ↔ q < c.qubits ∧ ∀ i ∈ c.instructions, q ∉ i.qubits) ∧
      c'.isContiguous = true ∧ c'.referenced = List.range c'.qubits ∧
      c'.expandIdentity = .ok c' ∧
      ([ExactProducts F] → ∀ o : Oracle F, o.unitaryOf c' = o.unitaryOf c) ∧
      (c.layout = none → ∀ reverse, ∃ d, c.compress reverse = .ok d ∧
        d.expandIdentity = .ok d) := by
  have hw' := wellFormed_identityPadded hw
  refine ⟨c.identityPadded, c.idle, expandIdentity_eq_identityPadded hw, rfl, c.pairwise_idle,
    fun _ => mem_idle, isContiguous_identityPadded hw,
    (covered_iff_referenced hw').mp c.covered_identityPadded,
    expandIdentity_of_covered hw' c.covered_identityPadded,
    fun o => unitaryOf_identityPadded o c, ?_⟩
  intro hlayout reverse
  have hdense := dense_wellFormed hw reverse
  refine ⟨c.dense reverse, (compress_eq_ok_iff (by simp [hlayout])).mpr ⟨hdense, rfl⟩,
    expandIdentity_of_covered hdense ?_⟩
  exact (covered_iff_referenced hdense).mpr (c.referenced_dense reverse)

theorem expandIdentity_apart :
    apart.WellFormed ∧ apart.layout = none ∧
      ∃ c', apart.expandIdentity = .ok c' ∧
        c'.instructions = apart.instructions ++ [.fixed .id [0], .fixed .id [2], .fixed .id [3]] ∧
        c'.isContiguous = true ∧ c'.expandIdentity = .ok c' ∧
        (∀ o : Oracle ℝ, o.unitaryOf c' = o.unitaryOf apart) ∧
        ∃ d, apart.compress true = .ok d ∧ d.qubits = 2 ∧ d.expandIdentity = .ok d := by
  obtain ⟨hw, hlayout⟩ := built_apart.wellFormed
  obtain ⟨c', _, hc', -, -, -, hcontiguous, -, hagain, hunitary, hcompressed⟩ :=
    expandIdentity_pads hw
  obtain ⟨d, hd, hexpanded⟩ := hcompressed hlayout true
  refine ⟨hw, hlayout, c', hc', ?_, hcontiguous, hagain, hunitary, d, hd, ?_, hexpanded⟩
  · obtain rfl := Except.ok.inj hc'
    rfl
  · obtain rfl := Except.ok.inj hd
    rfl

end Circuit

end Interchange
