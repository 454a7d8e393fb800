import Interchange.Proofs.CircuitMatrix
import Interchange.Proofs.OperatorMatrix

namespace Interchange

namespace Operator

theorem reverseBits_lt (n x : ℕ) : reverseBits n x < 2 ^ n := by
  induction n generalizing x with
  | zero => exact Nat.one_pos
  | succ n ih =>
    have hhigh : x % 2 * 2 ^ n ≤ 1 * 2 ^ n := Nat.mul_le_mul_right _ (by omega)
    have hlow := ih (x / 2)
    rw [reverseBits, Nat.pow_eq, pow_succ]
    omega

theorem testBit_reverseBits {n i : ℕ} (x : ℕ) (hi : i < n) :
    (reverseBits n x).testBit i = x.testBit (n - 1 - i) := by
  induction n generalizing x i with
  | zero => exact absurd hi (Nat.not_lt_zero i)
  | succ n ih =>
    rw [reverseBits, Nat.mul_comm, Nat.pow_eq, Nat.testBit_two_pow_mul_add _ (reverseBits_lt n _)]
    split_ifs with hin
    · rw [ih _ hin, Nat.testBit_div_two]
      congr 1
      omega
    · obtain rfl : i = n := by omega
      simp

theorem reverseBits_reverseBits {n x : ℕ} (hx : x < 2 ^ n) :
    reverseBits n (reverseBits n x) = x := by
  apply Nat.eq_of_testBit_eq
  intro i
  by_cases hi : i < n
  · rw [testBit_reverseBits _ hi, testBit_reverseBits _ (by omega)]
    congr 1
    omega
  · have hpow : 2 ^ n ≤ 2 ^ i := Nat.pow_le_pow_right (by omega) (by omega)
    rw [Nat.testBit_lt_two_pow ((reverseBits_lt n _).trans_le hpow),
      Nat.testBit_lt_two_pow (hx.trans_le hpow)]

variable {F : Type} [Scalar F]

omit [Scalar F] in
theorem dim_of_qubits? {m : Operator F} {n : ℕ} (h : m.qubits? = some n) : m.dim = 2 ^ n := by
  unfold qubits? at h
  split_ifs at h with hdim
  obtain rfl := Option.some.inj h
  exact hdim.2.symm

theorem reverseQubits_reverseQubits (m : Operator F) : m.reverseQubits.reverseQubits = m := by
  cases hn : m.qubits? with
  | none =>
    have hsame : m.reverseQubits = m := by rw [reverseQubits, hn]
    rw [hsame, hsame]
  | some n =>
    have hdim := dim_of_qubits? hn
    have honce : m.reverseQubits =
        ofFn m.dim fun i j => m.get (reverseBits n i) (reverseBits n j) := by
      rw [reverseQubits, hn]
    have hqubits : m.reverseQubits.qubits? = some n := by rw [honce]; exact hn
    rw [reverseQubits, hqubits]
    refine ext_get (by rw [dim_ofFn, honce, dim_ofFn]) fun i hi j hj => ?_
    rw [dim_ofFn] at hi hj
    have hlt (x : ℕ) : reverseBits n x < m.dim := hdim ▸ reverseBits_lt n x
    rw [get_ofFn _ _ hi hj, honce, get_ofFn _ _ (hlt i) (hlt j)]
    rw [honce, dim_ofFn, hdim] at hi hj
    rw [reverseBits_reverseBits hi, reverseBits_reverseBits hj]

end Operator

section

variable {n k : ℕ} {qs : List ℕ}

theorem reverse_involutive (k : ℕ) : Function.Involutive fun i : Fin (2 ^ k) =>
    (⟨Operator.reverseBits k i, Operator.reverseBits_lt k i⟩ : Fin (2 ^ k)) :=
  fun i => Fin.ext (Operator.reverseBits_reverseBits i.isLt)

def reversal (k : ℕ) : Equiv.Perm (Fin (2 ^ k)) := (reverse_involutive k).toPerm _

theorem reversal_val (i : Fin (2 ^ k)) : (reversal k i : ℕ) = Operator.reverseBits k i := rfl

theorem reversal_reversal (i : Fin (2 ^ k)) : reversal k (reversal k i) = i :=
  reverse_involutive k i

theorem qubitBit_reversal {p : ℕ} (hp : p < k) (i : Fin (2 ^ k)) :
    qubitBit k p (reversal k i) = qubitBit k (k - 1 - p) i := by
  rw [qubitBit_eq_testBit, qubitBit_eq_testBit, reversal_val,
    Operator.testBit_reverseBits _ (by omega)]

theorem QubitList.reverse (h : QubitList n k qs) : QubitList n k qs.reverse :=
  ⟨qs.length_reverse.trans h.length_eq, List.nodup_reverse.mpr h.nodup,
    fun q hq => h.lt q (List.mem_reverse.mp hq)⟩

theorem restrict_reverse (h : QubitList n k qs) (i : Fin (2 ^ n)) :
    restrict n k qs.reverse i = reversal k (restrict n k qs i) := by
  apply Fin.ext
  apply eq_of_qubitBit_eq (Fin.isLt _) (Fin.isLt _)
  intro p hp
  have hlength := h.length_eq
  have hp' : p < qs.reverse.length := by rw [List.length_reverse]; omega
  rw [qubitBit_restrict h.reverse i p hp', qubitBit_reversal hp,
    qubitBit_restrict h i (k - 1 - p) (by omega), List.getElem_reverse]
  simp only [hlength]

/-- A matrix with its qubits reversed acts on reversed operands as the matrix on the operands. -/
theorem embed_reverse (h : QubitList n k qs) (A : QubitMatrix k) :
    embed n qs.reverse (A.submatrix (reversal k) (reversal k)) = embed n qs A := by
  funext i j
  have hagree : AgreeOff n qs.reverse i j ↔ AgreeOff n qs i j := by
    simp only [AgreeOff, List.mem_reverse]
  simp only [embed, hagree, Matrix.submatrix_apply, restrict_reverse h, reversal_reversal]

end

namespace Operator

variable {k : ℕ}

section

variable {F : Type} [Scalar F]

theorem dim_reverseQubits (m : Operator F) : m.reverseQubits.dim = m.dim := by
  unfold reverseQubits
  split <;> rfl

omit [Scalar F] in
theorem qubits?_of_dim {m : Operator F} (hm : m.dim = 2 ^ k) (hk : 0 < k) :
    m.qubits? = some k := by
  have hlog : Nat.log2 m.dim = k := by rw [hm, Nat.log2_two_pow]
  have hdim : 2 ≤ m.dim := by rw [hm]; exact Nat.le_pow hk
  rw [qubits?, if_pos ⟨hdim, by rw [hlog, Nat.pow_eq, hm]⟩, hlog]

theorem get_reverseQubits {m : Operator F} (hm : m.dim = 2 ^ k) (i j : Fin (2 ^ k)) :
    m.reverseQubits.get i j = m.get (reversal k i) (reversal k j) := by
  cases k with
  | zero =>
    -- there is one entry, and no order of qubits
    have hnone : m.qubits? = none := if_neg fun h => absurd (hm ▸ h.1) (by decide)
    have hzero (l : Fin (2 ^ 0)) : (l : ℕ) = 0 := Nat.lt_one_iff.mp l.isLt
    rw [reverseQubits, hnone, hzero i, hzero j, hzero (reversal 0 i), hzero (reversal 0 j)]
  | succ k =>
    rw [reverseQubits, qubits?_of_dim hm k.succ_pos]
    exact get_ofFn _ _ (by rw [hm]; exact i.isLt) (by rw [hm]; exact j.isLt)

end

variable {m : Operator ℝ}

theorem toMatrix_reverseQubits (hm : m.dim = 2 ^ k) :
    m.reverseQubits.toMatrix k = (m.toMatrix k).submatrix (reversal k) (reversal k) := by
  funext i j
  exact congrArg Amplitude.toComplex (get_reverseQubits hm i j)

theorem reverseQubits_mul {m' : Operator ℝ} (hm : m.dim = 2 ^ k) (hm' : m'.dim = 2 ^ k) :
    (m * m').reverseQubits = m.reverseQubits * m'.reverseQubits := by
  have hdim : m.reverseQubits.dim = 2 ^ k := (dim_reverseQubits m).trans hm
  refine ext_toMatrix (n := k) ((dim_reverseQubits _).trans hm) hdim ?_
  calc (m * m').reverseQubits.toMatrix k
      = ((m * m').toMatrix k).submatrix (reversal k) (reversal k) := toMatrix_reverseQubits hm
    _ = (m.toMatrix k * m'.toMatrix k).submatrix (reversal k) (reversal k) :=
        congrArg (Matrix.submatrix · _ _) (toSquare_mul hm)
    _ = (m.toMatrix k).submatrix (reversal k) (reversal k) *
          (m'.toMatrix k).submatrix (reversal k) (reversal k) :=
        (Matrix.submatrix_mul_equiv _ _ _ _ _).symm
    _ = m.reverseQubits.toMatrix k * m'.reverseQubits.toMatrix k := by
        rw [toMatrix_reverseQubits hm, toMatrix_reverseQubits hm']
    _ = (m.reverseQubits * m'.reverseQubits).toMatrix k := (toSquare_mul hdim).symm

theorem reverseQubits_dagger (hm : m.dim = 2 ^ k) :
    m.dagger.reverseQubits = m.reverseQubits.dagger := by
  have hdim : m.reverseQubits.dim = 2 ^ k := (dim_reverseQubits m).trans hm
  refine ext_toMatrix (n := k) ((dim_reverseQubits _).trans hm) hdim ?_
  calc m.dagger.reverseQubits.toMatrix k
      = (m.dagger.toMatrix k).submatrix (reversal k) (reversal k) := toMatrix_reverseQubits hm
    _ = (m.toMatrix k).conjTranspose.submatrix (reversal k) (reversal k) :=
        congrArg (Matrix.submatrix · _ _) (toSquare_dagger hm)
    _ = ((m.toMatrix k).submatrix (reversal k) (reversal k)).conjTranspose :=
        (Matrix.conjTranspose_submatrix _ _ _).symm
    _ = (m.reverseQubits.toMatrix k).conjTranspose := by rw [toMatrix_reverseQubits hm]
    _ = m.reverseQubits.dagger.toMatrix k := (toSquare_dagger hdim).symm

/-- An operator with its qubits reversed acts on reversed operands as the operator itself does on
the operands. Reversal undoes itself and goes through products and adjoints. -/
theorem applyGate_reverse {n : ℕ} {qs : List ℕ} (h : QubitList n k qs) (hm : m.dim = 2 ^ k) :
    (∀ u : Operator ℝ, u.dim = 2 ^ n →
        m.reverseQubits.applyGate n qs.reverse u = m.applyGate n qs u) ∧
      m.reverseQubits.reverseQubits = m ∧
      (∀ m' : Operator ℝ, m'.dim = 2 ^ k →
        (m * m').reverseQubits = m.reverseQubits * m'.reverseQubits) ∧
      m.dagger.reverseQubits = m.reverseQubits.dagger := by
  refine ⟨fun u hu => ?_, m.reverseQubits_reverseQubits, fun m' => reverseQubits_mul hm,
    reverseQubits_dagger hm⟩
  refine ext_toMatrix (n := n) ((dim_applyGate n _ _ u).trans hu)
    ((dim_applyGate n qs m u).trans hu) ?_
  rw [toMatrix_applyGate h.reverse _ u hu, toMatrix_reverseQubits hm, embed_reverse h,
    toMatrix_applyGate h m u hu]

noncomputable def controlledNot : Operator ℝ := (twoByTwo 0 1 1 0).controlled 1

/-- The reversed controlled NOT has its control last; on two of three qubits it does the same with
the operands exchanged. -/
theorem applyGate_reverse_controlledNot :
    QubitList 3 2 [2, 0] ∧ controlledNot.dim = 2 ^ 2 ∧
      controlledNot.reverseQubits.get 1 3 = 1 ∧ controlledNot.get 1 3 = 0 ∧
      controlledNot.reverseQubits.applyGate 3 [0, 2] (identity 8) =
        controlledNot.applyGate 3 [2, 0] (identity 8) ∧
      (controlledNot * controlledNot).reverseQubits =
        controlledNot.reverseQubits * controlledNot.reverseQubits := by
  have hqs : QubitList 3 2 [2, 0] := ⟨rfl, by decide, by decide⟩
  obtain ⟨happly, -, hmul, -⟩ := applyGate_reverse hqs (m := controlledNot) rfl
  exact ⟨hqs, rfl, rfl, rfl, happly (identity 8) rfl, hmul controlledNot rfl⟩

end Operator

end Interchange
