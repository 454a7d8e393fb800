import Interchange.Gate.Standard
import Interchange.Proofs.OperatorMatrix

noncomputable section
namespace Interchange
open Matrix

/-- The first `j` of `n` bits of a basis state are all one. -/
def LeadingOnes (n j x : ℕ) : Prop := ∀ q < j, qubitBit n q x = 1

instance (n j x : ℕ) : Decidable (LeadingOnes n j x) :=
  inferInstanceAs (Decidable (∀ q < j, qubitBit n q x = 1))

section

variable {j k x : ℕ}

theorem qubitBit_div {q : ℕ} (hq : q < j) (x : ℕ) :
    qubitBit (j + k) q x = qubitBit j q (x / 2 ^ k) := by
  rw [qubitBit_eq_testBit, qubitBit_eq_testBit, Nat.testBit_div_two_pow]
  congr 2
  omega

theorem qubitBit_mod {p : ℕ} (hp : p < k) (x : ℕ) :
    qubitBit (j + k) (j + p) x = qubitBit k p (x % 2 ^ k) := by
  rw [qubitBit_eq_testBit, qubitBit_eq_testBit, Nat.testBit_mod_two_pow,
    show j + k - 1 - (j + p) = k - 1 - p by omega]
  simp [show k - 1 - p < k by omega]

theorem div_two_pow_lt (hx : x < 2 ^ (j + k)) : x / 2 ^ k < 2 ^ j :=
  Nat.div_lt_of_lt_mul (by rwa [Nat.mul_comm, ← Nat.pow_add])

theorem leadingOnes_iff_div (hx : x < 2 ^ (j + k)) :
    LeadingOnes (j + k) j x ↔ x / 2 ^ k = 2 ^ j - 1 := by
  have hpos := Nat.two_pow_pos j
  have hones {q : ℕ} (hq : q < j) : qubitBit j q (2 ^ j - 1) = 1 := by
    rw [qubitBit_eq_testBit, Nat.testBit_two_pow_sub_one, decide_eq_true (by omega)]
    rfl
  constructor
  · intro h
    refine eq_of_qubitBit_eq (div_two_pow_lt hx) (by omega) fun q hq => ?_
    rw [← qubitBit_div hq, h q hq, hones hq]
  · intro h q hq
    rw [qubitBit_div hq, h, hones hq]

/-- All leading bits are one from the last block on. -/
theorem leadingOnes_iff_le (hx : x < 2 ^ (j + k)) {o : ℕ} (ho : 2 ^ k * 2 ^ j = o + 2 ^ k) :
    LeadingOnes (j + k) j x ↔ o ≤ x := by
  have hlt := div_two_pow_lt hx
  have hpos := Nat.two_pow_pos j
  have ho' : o = (2 ^ j - 1) * 2 ^ k := by
    rw [Nat.sub_mul, one_mul]
    rw [Nat.mul_comm] at ho
    omega
  rw [leadingOnes_iff_div hx, ho', ← Nat.le_div_iff_mul_le (Nat.two_pow_pos k)]
  omega

theorem sub_offset (h : x / 2 ^ k = 2 ^ j - 1) {o : ℕ} (ho : 2 ^ k * 2 ^ j = o + 2 ^ k) :
    x - o = x % 2 ^ k := by
  have hx := Nat.div_add_mod x (2 ^ k)
  rw [h, Nat.mul_sub, Nat.mul_one, ho, Nat.add_sub_cancel] at hx
  omega

theorem qubitList_last (j k : ℕ) : QubitList (j + k) k (List.range' j k) :=
  ⟨List.length_range', List.nodup_range', fun q hq => (List.mem_range'_1.mp hq).2⟩

theorem restrict_last (x : Fin (2 ^ (j + k))) :
    (restrict (j + k) k (List.range' j k) x : ℕ) = x % 2 ^ k := by
  refine eq_of_qubitBit_eq (Fin.isLt _) (Nat.mod_lt _ (Nat.two_pow_pos k)) fun p hp => ?_
  rw [qubitBit_restrict (qubitList_last j k) x p (by rwa [List.length_range']),
    ← qubitBit_mod (j := j) hp, List.getElem_range', Nat.one_mul]

theorem agreeOff_last {x y : ℕ} (hx : x < 2 ^ (j + k)) (hy : y < 2 ^ (j + k)) :
    AgreeOff (j + k) (List.range' j k) x y ↔ x / 2 ^ k = y / 2 ^ k := by
  constructor
  · intro h
    refine eq_of_qubitBit_eq (div_two_pow_lt hx) (div_two_pow_lt hy) fun q hq => ?_
    rw [← qubitBit_div hq, ← qubitBit_div hq]
    exact h q (by omega) fun hmem => hq.not_ge (List.mem_range'_1.mp hmem).1
  · intro h q hq hmem
    have hlt : q < j := by
      by_contra hge
      exact hmem (List.mem_range'_1.mpr ⟨by omega, hq⟩)
    rw [qubitBit_div hlt, qubitBit_div hlt, h]

end

theorem exists_offset (d j : ℕ) : ∃ o, d * 2 ^ j = o + d :=
  Nat.exists_eq_add_of_le' (Nat.le_mul_of_pos_right d (Nat.two_pow_pos j))

section

variable {d : ℕ}

/-- A matrix in the last block, below the identity. -/
def belowIdentity (o : ℕ) (A : Matrix (Fin d) (Fin d) ℂ) : Matrix (Fin (o + d)) (Fin (o + d)) ℂ :=
  (fromBlocks 1 0 0 A).submatrix finSumFinEquiv.symm finSumFinEquiv.symm

theorem belowIdentity_mul (o : ℕ) (A B : Matrix (Fin d) (Fin d) ℂ) :
    belowIdentity o (A * B) = belowIdentity o A * belowIdentity o B := by
  unfold belowIdentity
  rw [submatrix_mul_equiv, fromBlocks_multiply]
  simp

theorem belowIdentity_conjTranspose (o : ℕ) (A : Matrix (Fin d) (Fin d) ℂ) :
    belowIdentity o Aᴴ = (belowIdentity o A)ᴴ := by
  unfold belowIdentity
  rw [conjTranspose_submatrix, fromBlocks_conjTranspose]
  simp

end

namespace Operator

theorem get_controlled {F : Type} [Scalar F] {base : Operator F} {controls o i j : ℕ}
    (ho : base.dim * 2 ^ controls = o + base.dim) (hi : i < o + base.dim)
    (hj : j < o + base.dim) :
    (base.controlled controls).get i j =
      if o ≤ i ∧ o ≤ j then base.get (i - o) (j - o) else if i = j then 1 else 0 := by
  have hoffset : base.dim * Nat.pow 2 controls - base.dim = o := by rw [Nat.pow_eq]; omega
  have hdim : base.dim * Nat.pow 2 controls = o + base.dim := ho
  rw [controlled, get_ofFn _ _ (by rw [hdim]; exact hi) (by rw [hdim]; exact hj), hoffset]

theorem toSquare_controlled {base : Operator ℝ} {controls d o : ℕ} (hd : base.dim = d)
    (ho : d * 2 ^ controls = o + d) :
    (base.controlled controls).toSquare (o + d) = belowIdentity o (base.toSquare d) := by
  subst hd
  funext i j
  rw [toSquare, get_controlled ho i.isLt j.isLt]
  refine Fin.addCases (fun i => ?_) (fun i => ?_) i <;>
    refine Fin.addCases (fun j => ?_) (fun j => ?_) j
  · have hi : ¬o ≤ i := by omega
    simp [belowIdentity, hi, one_apply, Fin.ext_iff, apply_ite Amplitude.toComplex]
  · have hne : (i : ℕ) ≠ o + j := by omega
    have hi : ¬o ≤ i := by omega
    simp [belowIdentity, hi, hne]
  · have hne : o + (i : ℕ) ≠ j := by omega
    have hj : ¬o ≤ j := by omega
    simp [belowIdentity, hj, hne]
  · simp [belowIdentity, toSquare]

section

variable {a b : Operator ℝ}

theorem controlled_mul (hb : b.dim = a.dim) (controls : ℕ) :
    (a * b).controlled controls = a.controlled controls * b.controlled controls := by
  obtain ⟨o, ho⟩ := exists_offset a.dim controls
  refine ext_toSquare ho ho ?_
  rw [toSquare_mul ho, toSquare_controlled rfl ho, toSquare_controlled hb ho,
    ← belowIdentity_mul, ← toSquare_mul rfl]
  exact toSquare_controlled rfl ho

theorem controlled_dagger (a : Operator ℝ) (controls : ℕ) :
    a.dagger.controlled controls = (a.controlled controls).dagger := by
  obtain ⟨o, ho⟩ := exists_offset a.dim controls
  refine ext_toSquare ho ho ?_
  rw [toSquare_dagger ho, toSquare_controlled rfl ho, ← belowIdentity_conjTranspose,
    ← toSquare_dagger rfl]
  exact toSquare_controlled rfl ho

theorem controlled_controlled {F : Type} [Scalar F] (a : Operator F) (j m : ℕ) :
    (a.controlled j).controlled m = a.controlled (j + m) := by
  obtain ⟨o, ho⟩ := exists_offset a.dim j
  obtain ⟨p, hp⟩ := exists_offset (o + a.dim) m
  have hinner : (a.controlled j).dim = o + a.dim := ho
  have hdim : a.dim * 2 ^ (j + m) = p + o + a.dim := by
    rw [Nat.pow_add, ← Nat.mul_assoc, ho, hp, Nat.add_assoc]
  have houter : ((a.controlled j).controlled m).dim = p + o + a.dim := by
    change (a.controlled j).dim * 2 ^ m = _
    rw [hinner, hp, Nat.add_assoc]
  refine ext_get (houter.trans hdim.symm) fun r hr s hs => ?_
  rw [houter] at hr hs
  rw [get_controlled (o := p) (by rw [hinner, hp]) (by omega) (by omega), get_controlled hdim hr hs]
  by_cases hrs : p ≤ r ∧ p ≤ s
  · rw [if_pos hrs, get_controlled ho (by omega) (by omega), Nat.sub_sub, Nat.sub_sub]
    exact if_congr (by omega) rfl (if_congr (by omega) rfl rfl)
  · rw [if_neg hrs]
    exact (if_neg (by omega)).symm

/-- An entry by its bits: the base sees the last bits where all leading ones are set. -/
theorem toMatrix_controlled_apply {k : ℕ} (ha : a.dim = 2 ^ k) (j : ℕ) (i x : Fin (2 ^ (j + k))) :
    (a.controlled j).toMatrix (j + k) i x =
      if LeadingOnes (j + k) j i ∧ LeadingOnes (j + k) j x then
        a.toMatrix k (restrict (j + k) k (List.range' j k) i)
          (restrict (j + k) k (List.range' j k) x)
      else if i = x then 1 else 0 := by
  obtain ⟨o, ho⟩ := exists_offset (2 ^ k) j
  have hdim : 2 ^ (j + k) = o + a.dim := by rw [ha, ← ho, Nat.pow_add, Nat.mul_comm]
  have hiff := and_congr (leadingOnes_iff_le i.isLt ho) (leadingOnes_iff_le x.isLt ho)
  rw [toMatrix, get_controlled (ha ▸ ho) (hdim ▸ i.isLt) (hdim ▸ x.isLt)]
  by_cases h : LeadingOnes (j + k) j i ∧ LeadingOnes (j + k) j x
  · have hi := (leadingOnes_iff_div i.isLt).mp h.1
    have hx := (leadingOnes_iff_div x.isLt).mp h.2
    rw [if_pos h, if_pos (hiff.mp h), sub_offset hi ho, sub_offset hx ho, toMatrix, restrict_last,
      restrict_last]
  · rw [if_neg h, if_neg (mt hiff.mpr h), apply_ite Amplitude.toComplex]
    exact if_congr Fin.ext_iff.symm rfl rfl

/-- A basis state stays as it is, unless all controls are one: then the base acts on the qubits
after them. -/
theorem toMatrix_controlled_mulVec {k : ℕ} (ha : a.dim = 2 ^ k) (j : ℕ) (x : Fin (2 ^ (j + k))) :
    (a.controlled j).toMatrix (j + k) *ᵥ Pi.single x 1 =
      if LeadingOnes (j + k) j x then
        embed (j + k) (List.range' j k) (a.toMatrix k) *ᵥ Pi.single x 1
      else Pi.single x 1 := by
  ext i
  split_ifs with hx
  · -- the states that the base reaches from `x` are those with the same leading ones
    have hagree : AgreeOff (j + k) (List.range' j k) i x ↔ LeadingOnes (j + k) j i := by
      rw [agreeOff_last i.isLt x.isLt, (leadingOnes_iff_div x.isLt).mp hx,
        leadingOnes_iff_div i.isLt]
    rw [mulVec_single_one, mulVec_single_one, col_apply, col_apply, toMatrix_controlled_apply ha,
      embed]
    by_cases hi : LeadingOnes (j + k) j i
    · rw [if_pos ⟨hi, hx⟩, if_pos (hagree.mpr hi)]
    · have hne : i ≠ x := fun h => hi (h ▸ hx)
      rw [if_neg fun h => hi h.1, if_neg hne, if_neg (mt hagree.mp hi)]
  · rw [mulVec_single_one, col_apply, toMatrix_controlled_apply ha, if_neg fun h => hx h.2,
      Pi.single_apply]

/-- Putting operators under controls respects products, adjoints and further controls. -/
theorem controlled_homomorphism {k : ℕ} (ha : a.dim = 2 ^ k) (hb : b.dim = 2 ^ k) (j m : ℕ) :
    (a * b).controlled j = a.controlled j * b.controlled j ∧
    a.dagger.controlled j = (a.controlled j).dagger ∧
    (a.controlled j).controlled m = a.controlled (j + m) ∧
    (a.controlled j).dim = 2 ^ (j + k) ∧
    ∀ x : Fin (2 ^ (j + k)), (a.controlled j).toMatrix (j + k) *ᵥ Pi.single x 1 =
      if LeadingOnes (j + k) j x then
        embed (j + k) (List.range' j k) (a.toMatrix k) *ᵥ Pi.single x 1
      else Pi.single x 1 := by
  refine ⟨controlled_mul (hb.trans ha.symm) j, controlled_dagger a j, controlled_controlled a j m,
    ?_, toMatrix_controlled_mulVec ha j⟩
  change a.dim * 2 ^ j = 2 ^ (j + k)
  rw [ha, Nat.pow_add, Nat.mul_comm]

/-- A flip and a phase under two controls, and under a third. -/
theorem controlled_homomorphism_flip :
    let flip : Operator ℝ := twoByTwo 0 1 1 0
    let turn : Operator ℝ := twoByTwo 1 0 0 .I
    flip.dim = 2 ^ 1 ∧ turn.dim = 2 ^ 1 ∧
    (flip * turn).controlled 2 = flip.controlled 2 * turn.controlled 2 ∧
    flip.dagger.controlled 2 = (flip.controlled 2).dagger ∧
    (flip.controlled 2).controlled 1 = flip.controlled 3 ∧
    (flip.controlled 2).dim = 2 ^ 3 ∧
    ∀ x : Fin (2 ^ 3), (flip.controlled 2).toMatrix 3 *ᵥ Pi.single x 1 =
      if LeadingOnes 3 2 x then embed 3 [2] (flip.toMatrix 1) *ᵥ Pi.single x 1
      else Pi.single x 1 :=
  ⟨rfl, rfl, controlled_homomorphism (k := 1) rfl rfl 2 1⟩

end

end Operator

end Interchange
end
