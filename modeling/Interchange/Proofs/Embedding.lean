import Mathlib.Algebra.BigOperators.Fin
import Mathlib.Data.Fintype.BigOperators
import Mathlib.Data.Matrix.Mul
import Mathlib.Data.Nat.Bitwise
import Mathlib.Tactic.Ring
import Interchange.Circuit.Unitary
import Interchange.Proofs.Construction
import Interchange.Proofs.ExactScalar

namespace Interchange

/-- The bit of basis state `i` at qubit `q` of `n`; qubit 0 is the most significant. -/
def qubitBit (n q i : ℕ) : ℕ := i / Nat.pow 2 (n - 1 - q) % 2

/-- The bits of `i` at the listed qubits, the first most significant. -/
def restrictBits (n : ℕ) (qs : List ℕ) (i : ℕ) : ℕ :=
  qs.foldl (fun acc q => 2 * acc + qubitBit n q i) 0

def setQubitBit (n q bit i : ℕ) : ℕ :=
  i - qubitBit n q i * Nat.pow 2 (n - 1 - q) + bit * Nat.pow 2 (n - 1 - q)

/-- `i` with the bits at the listed qubits replaced by those of `bits`, the first most
significant. -/
def replaceBits (n : ℕ) : List ℕ → ℕ → ℕ → ℕ
  | [], _, i => i
  | q :: qs, bits, i =>
    setQubitBit n q (bits / Nat.pow 2 qs.length % 2)
      (replaceBits n qs (bits % Nat.pow 2 qs.length) i)

theorem qubitBit_eq_testBit (n q i : ℕ) : qubitBit n q i = (i.testBit (n - 1 - q)).toNat :=
  (Nat.toNat_testBit i (n - 1 - q)).symm

theorem qubitBit_lt_two (n q i : ℕ) : qubitBit n q i < 2 := Nat.mod_lt _ (by decide)

theorem eq_of_qubitBit_eq {n i j : ℕ} (hi : i < 2 ^ n) (hj : j < 2 ^ n)
    (h : ∀ q < n, qubitBit n q i = qubitBit n q j) : i = j := by
  apply Nat.eq_of_testBit_eq
  intro k
  by_cases hk : k < n
  · have hq := h (n - 1 - k) (by omega)
    rw [qubitBit_eq_testBit, qubitBit_eq_testBit, show n - 1 - (n - 1 - k) = k by omega] at hq
    revert hq
    cases i.testBit k <;> cases j.testBit k <;> decide
  · have hle : 2 ^ n ≤ 2 ^ k := Nat.pow_le_pow_right (by decide) (by omega)
    rw [Nat.testBit_lt_two_pow (hi.trans_le hle), Nat.testBit_lt_two_pow (hj.trans_le hle)]

/-- The bits above the replaced one, the new bit, and those below. -/
theorem setQubitBit_eq (n q b i : ℕ) :
    setQubitBit n q b i =
      2 ^ (n - 1 - q) * (2 * (i / 2 ^ (n - 1 - q) / 2) + b) + i % 2 ^ (n - 1 - q) := by
  have hi := Nat.div_add_mod i (2 ^ (n - 1 - q))
  have hc := Nat.div_add_mod (i / 2 ^ (n - 1 - q)) 2
  simp only [setQubitBit, qubitBit, Nat.pow_eq]
  generalize 2 ^ (n - 1 - q) = P at *
  have hs : i = P * (2 * (i / P / 2)) + i / P % 2 * P + i % P := by
    calc i = P * (i / P) + i % P := hi.symm
      _ = P * (2 * (i / P / 2) + i / P % 2) + i % P := by rw [hc]
      _ = _ := by ring
  have hb : P * (2 * (i / P / 2) + b) = P * (2 * (i / P / 2)) + b * P := by ring
  omega

section

variable {n p q b i : ℕ}

theorem setQubitBit_div (n q b i : ℕ) :
    setQubitBit n q b i / 2 ^ (n - 1 - q) = 2 * (i / 2 ^ (n - 1 - q) / 2) + b := by
  have hP : 0 < 2 ^ (n - 1 - q) := Nat.two_pow_pos _
  rw [setQubitBit_eq, Nat.mul_add_div hP, Nat.div_eq_of_lt (Nat.mod_lt _ hP), Nat.add_zero]

theorem setQubitBit_mod (n q b i : ℕ) :
    setQubitBit n q b i % 2 ^ (n - 1 - q) = i % 2 ^ (n - 1 - q) := by
  rw [setQubitBit_eq, Nat.mul_add_mod, Nat.mod_mod]

theorem qubitBit_setQubitBit_self (hb : b < 2) : qubitBit n q (setQubitBit n q b i) = b := by
  rw [qubitBit, Nat.pow_eq, setQubitBit_div]
  omega

theorem qubitBit_setQubitBit_of_ne (hb : b < 2) (hp : p < n) (hq : q < n) (h : p ≠ q) :
    qubitBit n p (setQubitBit n q b i) = qubitBit n p i := by
  rw [qubitBit_eq_testBit, qubitBit_eq_testBit]
  congr 1
  by_cases hlt : n - 1 - p < n - 1 - q
  · -- A lower bit is a bit of the remainder, which stays.
    have hm := congrArg (Nat.testBit · (n - 1 - p)) (setQubitBit_mod n q b i)
    simpa only [Nat.testBit_mod_two_pow, hlt, decide_true, Bool.true_and] using hm
  · -- A higher bit is a bit of the quotient without its lowest one.
    obtain ⟨d, hd⟩ : ∃ d, n - 1 - p = n - 1 - q + 1 + d := ⟨n - 1 - p - (n - 1 - q) - 1, by omega⟩
    have hquot : setQubitBit n q b i / 2 ^ (n - 1 - q + 1) = i / 2 ^ (n - 1 - q + 1) := by
      rw [pow_succ, ← Nat.div_div_eq_div_mul, ← Nat.div_div_eq_div_mul, setQubitBit_div]
      omega
    have hm := congrArg (Nat.testBit · d) hquot
    simpa only [Nat.testBit_div_two_pow, hd, Nat.add_comm d] using hm

theorem setQubitBit_lt (hb : b < 2) (hq : q < n) (hi : i < 2 ^ n) :
    setQubitBit n q b i < 2 ^ n := by
  have hn : 2 ^ n = 2 ^ (n - 1 - q) * 2 * 2 ^ q := by
    rw [← pow_succ, ← pow_add]
    congr 1
    omega
  have hh : i / 2 ^ (n - 1 - q) / 2 < 2 ^ q := by
    rw [Nat.div_div_eq_div_mul]
    exact Nat.div_lt_of_lt_mul (hn ▸ hi)
  have hr : i % 2 ^ (n - 1 - q) < 2 ^ (n - 1 - q) := Nat.mod_lt _ (Nat.two_pow_pos _)
  rw [setQubitBit_eq, hn]
  calc 2 ^ (n - 1 - q) * (2 * (i / 2 ^ (n - 1 - q) / 2) + b) + i % 2 ^ (n - 1 - q)
      < 2 ^ (n - 1 - q) * (2 * (i / 2 ^ (n - 1 - q) / 2) + b) + 2 ^ (n - 1 - q) := by omega
    _ = 2 ^ (n - 1 - q) * (2 * (i / 2 ^ (n - 1 - q) / 2) + b + 1) := by ring
    _ ≤ 2 ^ (n - 1 - q) * (2 * 2 ^ q) := Nat.mul_le_mul_left _ (by omega)
    _ = 2 ^ (n - 1 - q) * 2 * 2 ^ q := by ring

end

theorem restrictBits_cons (n q : ℕ) (qs : List ℕ) (i : ℕ) :
    restrictBits n (q :: qs) i = qubitBit n q i * 2 ^ qs.length + restrictBits n qs i := by
  suffices h : ∀ a, qs.foldl (fun acc q => 2 * acc + qubitBit n q i) a =
      a * 2 ^ qs.length + restrictBits n qs i by
    simpa [restrictBits] using h (2 * 0 + qubitBit n q i)
  induction qs with
  | nil => intro a; simp [restrictBits]
  | cons p ps ih =>
    intro a
    have hp := ih (2 * 0 + qubitBit n p i)
    simp only [restrictBits, List.foldl_cons, List.length_cons, pow_succ] at hp ih ⊢
    rw [ih, hp]
    ring

theorem restrictBits_lt (n : ℕ) (qs : List ℕ) (i : ℕ) : restrictBits n qs i < 2 ^ qs.length := by
  induction qs with
  | nil => simp [restrictBits]
  | cons q qs ih =>
    have hb := qubitBit_lt_two n q i
    calc restrictBits n (q :: qs) i
        = qubitBit n q i * 2 ^ qs.length + restrictBits n qs i := restrictBits_cons n q qs i
      _ < qubitBit n q i * 2 ^ qs.length + 2 ^ qs.length := Nat.add_lt_add_left ih _
      _ = (qubitBit n q i + 1) * 2 ^ qs.length := by ring
      _ ≤ 2 * 2 ^ qs.length := Nat.mul_le_mul_right _ hb
      _ = 2 ^ (q :: qs).length := by rw [List.length_cons, pow_succ]; ring

/-- The bits of a number whose first bit is split off. -/
theorem qubitBit_succ_of_lt {k r : ℕ} (b p : ℕ) (hr : r < 2 ^ k) (hp : p < k) :
    qubitBit (k + 1) (p + 1) (b * 2 ^ k + r) = qubitBit k p r := by
  rw [qubitBit_eq_testBit, qubitBit_eq_testBit, show k + 1 - 1 - (p + 1) = k - 1 - p by omega,
    Nat.mul_comm, Nat.testBit_two_pow_mul_add b hr, if_pos (by omega)]

theorem qubitBit_zero_of_lt {k r b : ℕ} (hb : b < 2) (hr : r < 2 ^ k) :
    qubitBit (k + 1) 0 (b * 2 ^ k + r) = b := by
  rw [qubitBit, Nat.pow_eq, show k + 1 - 1 - 0 = k by omega, Nat.mul_comm,
    Nat.mul_add_div (Nat.two_pow_pos k), Nat.div_eq_of_lt hr]
  omega

theorem qubitBit_restrictBits (n : ℕ) (qs : List ℕ) (i p : ℕ) (hp : p < qs.length) :
    qubitBit qs.length p (restrictBits n qs i) = qubitBit n qs[p] i := by
  induction qs generalizing p with
  | nil => simp at hp
  | cons q qs ih =>
    rw [restrictBits_cons, List.length_cons]
    cases p with
    | zero => exact qubitBit_zero_of_lt (qubitBit_lt_two n q i) (restrictBits_lt n qs i)
    | succ p =>
      have hp' : p < qs.length := Nat.lt_of_succ_lt_succ hp
      rw [qubitBit_succ_of_lt _ _ (restrictBits_lt n qs i) hp', ih p hp', List.getElem_cons_succ]

theorem replaceBits_lt {n : ℕ} {qs : List ℕ} {i : ℕ} (b : ℕ) (hqs : ∀ q ∈ qs, q < n)
    (hi : i < 2 ^ n) : replaceBits n qs b i < 2 ^ n := by
  induction qs generalizing b with
  | nil => exact hi
  | cons q qs ih =>
    exact setQubitBit_lt (Nat.mod_lt _ (by decide)) (hqs q (by simp))
      (ih _ fun p hp => hqs p (by simp [hp]))

theorem qubitBit_replaceBits_of_notMem {n : ℕ} {qs : List ℕ} {q : ℕ} (b i : ℕ)
    (hqs : ∀ q ∈ qs, q < n) (hq : q < n) (h : q ∉ qs) :
    qubitBit n q (replaceBits n qs b i) = qubitBit n q i := by
  induction qs generalizing b with
  | nil => rfl
  | cons p ps ih =>
    simp only [List.mem_cons, not_or] at h
    rw [replaceBits, qubitBit_setQubitBit_of_ne (Nat.mod_lt _ (by decide)) hq (hqs p (by simp)) h.1]
    exact ih _ (fun r hr => hqs r (by simp [hr])) h.2

theorem qubitBit_replaceBits_getElem {n : ℕ} {qs : List ℕ} (b i : ℕ) (hqs : ∀ q ∈ qs, q < n)
    (hnd : qs.Nodup) (p : ℕ) (hp : p < qs.length) :
    qubitBit n qs[p] (replaceBits n qs b i) = qubitBit qs.length p b := by
  induction qs generalizing b p with
  | nil => simp at hp
  | cons q qs ih =>
    obtain ⟨hq, hnd'⟩ := List.nodup_cons.mp hnd
    have hb : b / Nat.pow 2 qs.length % 2 < 2 := Nat.mod_lt _ (by decide)
    cases p with
    | zero => exact qubitBit_setQubitBit_self hb
    | succ p =>
      have hp' : p < qs.length := Nat.lt_of_succ_lt_succ hp
      have hmem : qs[p] ∈ qs := List.getElem_mem hp'
      have hne : qs[p] ≠ q := fun h => hq (h ▸ hmem)
      rw [List.getElem_cons_succ, replaceBits,
        qubitBit_setQubitBit_of_ne hb (hqs _ (by simp [hmem])) (hqs q (by simp)) hne,
        ih _ (fun r hr => hqs r (by simp [hr])) hnd' p hp', qubitBit_eq_testBit,
        qubitBit_eq_testBit, Nat.pow_eq, Nat.testBit_mod_two_pow, List.length_cons,
        show qs.length + 1 - 1 - (p + 1) = qs.length - 1 - p by omega]
      simp [show qs.length - 1 - p < qs.length by omega]

noncomputable section

theorem Operator.ext_get {F : Type} [Scalar F] {a b : Operator F} (hd : a.dim = b.dim)
    (h : ∀ i < a.dim, ∀ j < a.dim, a.get i j = b.get i j) : a = b := by
  obtain ⟨d, e, he⟩ := a
  obtain ⟨d', e', he'⟩ := b
  obtain rfl : d = d' := hd
  congr 1
  apply Array.ext (by rw [he, he'])
  intro k hk hk'
  have hpos : 0 < d := by
    rcases Nat.eq_zero_or_pos d with rfl | hpos
    · rw [he] at hk
      exact absurd hk (Nat.not_lt_zero k)
    · exact hpos
  have hrow : k / d < d := Nat.div_lt_of_lt_mul (he ▸ hk)
  have hg := h (k / d) hrow (k % d) (Nat.mod_lt k hpos)
  simp only [get, Nat.div_add_mod'] at hg
  simpa [Array.getD, hk, hk'] using hg

abbrev QubitMatrix (n : ℕ) := Matrix (Fin (2 ^ n)) (Fin (2 ^ n)) ℂ

/-- The entries of an operator, as a matrix on `n` qubits. -/
def Operator.toMatrix (n : ℕ) (m : Operator ℝ) : QubitMatrix n := fun i j => (m.get i j).toComplex

/-- Two basis states have the same bits away from the listed qubits. -/
def AgreeOff (n : ℕ) (qs : List ℕ) (i j : ℕ) : Prop :=
  ∀ q < n, q ∉ qs → qubitBit n q i = qubitBit n q j

instance (n : ℕ) (qs : List ℕ) (i j : ℕ) : Decidable (AgreeOff n qs i j) :=
  inferInstanceAs (Decidable (∀ q < n, q ∉ qs → qubitBit n q i = qubitBit n q j))

/-- The bits of a basis state at the listed qubits, as a basis state of `k` qubits. -/
def restrict (n k : ℕ) (qs : List ℕ) (i : Fin (2 ^ n)) : Fin (2 ^ k) :=
  Fin.ofNat (2 ^ k) (restrictBits n qs i)

/-- A matrix on `k` qubits acting on the listed ones of `n`: its entry at the listed bits where all
other bits agree, and zero elsewhere. -/
def embed {k : ℕ} (n : ℕ) (qs : List ℕ) (A : QubitMatrix k) : QubitMatrix n := fun i j =>
  if AgreeOff n qs i j then A (restrict n k qs i) (restrict n k qs j) else 0

section

variable {n k : ℕ} {qs : List ℕ}

theorem restrict_val (h : QubitList n k qs) (i : Fin (2 ^ n)) :
    (restrict n k qs i : ℕ) = restrictBits n qs i :=
  Nat.mod_eq_of_lt (h.length_eq ▸ restrictBits_lt n qs i)

theorem qubitBit_restrict (h : QubitList n k qs) (i : Fin (2 ^ n)) (p : ℕ) (hp : p < qs.length) :
    qubitBit k p (restrict n k qs i) = qubitBit n qs[p] i := by
  rw [restrict_val h, ← h.length_eq, qubitBit_restrictBits n qs i p hp]

def replace (h : QubitList n k qs) (w : Fin (2 ^ k)) (i : Fin (2 ^ n)) : Fin (2 ^ n) :=
  ⟨replaceBits n qs w i, replaceBits_lt w h.lt i.isLt⟩

theorem agreeOff_replace (h : QubitList n k qs) (w : Fin (2 ^ k)) (i : Fin (2 ^ n)) :
    AgreeOff n qs i (replace h w i) := by
  intro q hq hqs
  exact (qubitBit_replaceBits_of_notMem w i h.lt hq hqs).symm

theorem restrict_replace (h : QubitList n k qs) (w : Fin (2 ^ k)) (i : Fin (2 ^ n)) :
    restrict n k qs (replace h w i) = w := by
  apply Fin.ext
  apply eq_of_qubitBit_eq (Fin.isLt _) w.isLt
  intro p hp
  have hp' : p < qs.length := h.length_eq ▸ hp
  rw [qubitBit_restrict h _ p hp']
  have hb := qubitBit_replaceBits_getElem w i h.lt h.nodup p hp'
  rwa [h.length_eq] at hb

theorem eq_of_agreeOff (h : QubitList n k qs) {i j : Fin (2 ^ n)} (ha : AgreeOff n qs i j)
    (hr : restrict n k qs i = restrict n k qs j) : i = j := by
  apply Fin.ext
  apply eq_of_qubitBit_eq i.isLt j.isLt
  intro q hq
  by_cases hm : q ∈ qs
  · obtain ⟨p, hp, rfl⟩ := List.getElem_of_mem hm
    rw [← qubitBit_restrict h i p hp, ← qubitBit_restrict h j p hp, hr]
  · exact ha q hq hm

theorem AgreeOff.trans {i j l : ℕ} (hij : AgreeOff n qs i j) (hjl : AgreeOff n qs j l) :
    AgreeOff n qs i l := by
  intro q hq hm
  exact (hij q hq hm).trans (hjl q hq hm)

theorem AgreeOff.symm {i j : ℕ} (h : AgreeOff n qs i j) : AgreeOff n qs j i := by
  intro q hq hm
  exact (h q hq hm).symm

theorem replace_restrict (h : QubitList n k qs) {i j : Fin (2 ^ n)} (ha : AgreeOff n qs i j) :
    replace h (restrict n k qs j) i = j :=
  eq_of_agreeOff h ((agreeOff_replace h _ i).symm.trans ha) (restrict_replace h _ i)

/-- A sum over the states that agree off the listed qubits runs over the bits at these qubits. -/
theorem sum_agreeOff (h : QubitList n k qs) (i : Fin (2 ^ n)) (f : Fin (2 ^ n) → ℂ) :
    ∑ j : Fin (2 ^ n), (if AgreeOff n qs i j then f j else 0) =
      ∑ w : Fin (2 ^ k), f (replace h w i) := by
  -- such a state is determined by its bits at the listed qubits
  rw [← Finset.sum_filter]
  apply Finset.sum_nbij' (restrict n k qs) (fun w => replace h w i)
  · intro j _
    exact Finset.mem_univ _
  · intro w _
    exact Finset.mem_filter.mpr ⟨Finset.mem_univ _, agreeOff_replace h w i⟩
  · intro j hj
    exact replace_restrict h (Finset.mem_filter.mp hj).2
  · intro w _
    exact restrict_replace h w i
  · intro j hj
    rw [replace_restrict h (Finset.mem_filter.mp hj).2]

/-- An embedded matrix times another one, row by row. -/
theorem embed_mul_apply (h : QubitList n k qs) (A : QubitMatrix k) (M : QubitMatrix n)
    (i j : Fin (2 ^ n)) :
    (embed n qs A * M) i j = ∑ w, A (restrict n k qs i) w * M (replace h w i) j := by
  have hs := sum_agreeOff h i fun l => A (restrict n k qs i) (restrict n k qs l) * M l j
  simp only [restrict_replace] at hs
  rw [Matrix.mul_apply, ← hs]
  apply Finset.sum_congr rfl
  intro l _
  simp only [embed, ite_mul, zero_mul]

theorem embed_mul (h : QubitList n k qs) (A B : QubitMatrix k) :
    embed n qs (A * B) = embed n qs A * embed n qs B := by
  funext i j
  rw [embed_mul_apply h]
  by_cases ha : AgreeOff n qs i j
  · rw [embed, if_pos ha, Matrix.mul_apply]
    apply Finset.sum_congr rfl
    intro w _
    rw [embed, if_pos ((agreeOff_replace h w i).symm.trans ha), restrict_replace]
  · rw [embed, if_neg ha]
    symm
    apply Finset.sum_eq_zero
    intro w _
    rw [embed, if_neg fun hw => ha ((agreeOff_replace h w i).trans hw), mul_zero]

theorem embed_one (h : QubitList n k qs) : embed n qs (1 : QubitMatrix k) = 1 := by
  funext i j
  by_cases hij : i = j
  · subst hij
    have ha : AgreeOff n qs i i := fun _ _ _ => rfl
    rw [embed, if_pos ha, Matrix.one_apply_eq, Matrix.one_apply_eq]
  · rw [Matrix.one_apply_ne hij, embed]
    split_ifs with ha
    · exact Matrix.one_apply_ne fun hr => hij (eq_of_agreeOff h ha hr)
    · rfl

theorem embed_smul (n : ℕ) (qs : List ℕ) (z : ℂ) (A : QubitMatrix k) :
    embed n qs (z • A) = z • embed n qs A := by
  funext i j
  simp [embed]

end

/-- The qubits at listed positions of a list of qubits. -/
def compose (qs ops : List ℕ) : List ℕ := ops.map fun p => qs.getD p 0

section

variable {n k l : ℕ} {qs ops : List ℕ}

theorem getD_eq_getElem (hops : QubitList k l ops) (h : QubitList n k qs) {p : ℕ} (hp : p ∈ ops) :
    ∃ hp' : p < qs.length, qs.getD p 0 = qs[p] := by
  have hp' : p < qs.length := h.length_eq ▸ hops.lt p hp
  exact ⟨hp', List.getD_eq_getElem qs 0 hp'⟩

theorem mem_compose (h : QubitList n k qs) (hops : QubitList k l ops) {p : ℕ} (hp : p < qs.length) :
    qs[p] ∈ compose qs ops ↔ p ∈ ops := by
  constructor
  · intro hm
    obtain ⟨r, hr, he⟩ := List.mem_map.mp hm
    obtain ⟨hr', hg⟩ := getD_eq_getElem hops h hr
    rw [hg] at he
    exact (h.nodup.getElem_inj_iff.mp he) ▸ hr
  · intro hm
    exact List.mem_map.mpr ⟨p, hm, List.getD_eq_getElem qs 0 hp⟩

theorem QubitList.compose (h : QubitList n k qs) (hops : QubitList k l ops) :
    QubitList n l (compose qs ops) where
  length_eq := by rw [Interchange.compose, List.length_map, hops.length_eq]
  nodup := by
    apply hops.nodup.map_on
    intro p hp r hr he
    obtain ⟨hp', hgp⟩ := getD_eq_getElem hops h hp
    obtain ⟨hr', hgr⟩ := getD_eq_getElem hops h hr
    rw [hgp, hgr] at he
    exact h.nodup.getElem_inj_iff.mp he
  lt := by
    intro q hq
    obtain ⟨p, hp, rfl⟩ := List.mem_map.mp hq
    obtain ⟨hp', hg⟩ := getD_eq_getElem hops h hp
    exact h.lt _ (hg ▸ List.getElem_mem hp')

theorem restrict_restrict (h : QubitList n k qs) (hops : QubitList k l ops) (i : Fin (2 ^ n)) :
    restrict k l ops (restrict n k qs i) = restrict n l (compose qs ops) i := by
  have hc := h.compose hops
  apply Fin.ext
  apply eq_of_qubitBit_eq (Fin.isLt _) (Fin.isLt _)
  intro p hp
  have hp' : p < ops.length := hops.length_eq ▸ hp
  have hpc : p < (compose qs ops).length := hc.length_eq ▸ hp
  obtain ⟨hq, hg⟩ := getD_eq_getElem hops h (List.getElem_mem hp')
  rw [qubitBit_restrict hops _ p hp', qubitBit_restrict h _ _ hq, qubitBit_restrict hc _ p hpc]
  simp only [compose, List.getElem_map, hg]

/-- Agreement off the composed qubits splits into agreement off all of them, and agreement of the
restrictions off the positions. -/
theorem agreeOff_compose (h : QubitList n k qs) (hops : QubitList k l ops) (i j : Fin (2 ^ n)) :
    AgreeOff n (compose qs ops) i j ↔
      AgreeOff n qs i j ∧ AgreeOff k ops (restrict n k qs i) (restrict n k qs j) := by
  constructor
  · intro ha
    refine ⟨fun q hq hm => ha q hq ?_, fun p hp hm => ?_⟩
    · intro hc
      obtain ⟨p, hp, rfl⟩ := List.mem_map.mp hc
      obtain ⟨hp', hg⟩ := getD_eq_getElem hops h hp
      exact hm (hg ▸ List.getElem_mem hp')
    · have hp' : p < qs.length := h.length_eq ▸ hp
      rw [qubitBit_restrict h i p hp', qubitBit_restrict h j p hp']
      exact ha _ (h.lt _ (List.getElem_mem hp')) fun hc => hm ((mem_compose h hops hp').mp hc)
  · rintro ⟨ha, hr⟩ q hq hm
    by_cases hqs : q ∈ qs
    · obtain ⟨p, hp, rfl⟩ := List.getElem_of_mem hqs
      rw [← qubitBit_restrict h i p hp, ← qubitBit_restrict h j p hp]
      exact hr p (h.length_eq ▸ hp) fun hc => hm ((mem_compose h hops hp).mpr hc)
    · exact ha q hq hqs

/-- Acting on positions of a list of qubits is acting on the qubits at these positions. -/
theorem embed_embed (h : QubitList n k qs) (hops : QubitList k l ops) (A : QubitMatrix l) :
    embed n qs (embed k ops A) = embed n (compose qs ops) A := by
  funext i j
  simp only [embed, restrict_restrict h hops, agreeOff_compose h hops]
  split_ifs <;> simp_all

end

end

end Interchange
