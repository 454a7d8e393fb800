import Mathlib.LinearAlgebra.Matrix.Hermitian
import Mathlib.LinearAlgebra.Matrix.Kronecker
import Mathlib.LinearAlgebra.UnitaryGroup
import Interchange.Operator.Phase
import Interchange.Proofs.Embedding

noncomputable section
namespace Interchange
open scoped Matrix Kronecker

/-- The search for the last of the largest ends at one that it has seen, and at a largest one. -/
theorem foldl_largest {α : Type} (f : α → ℝ) (xs : List α) (best : α) :
    let r := xs.foldl (fun best x => if f best ≤ f x then x else best) best
    r ∈ best :: xs ∧ ∀ x ∈ best :: xs, f x ≤ f r := by
  induction xs generalizing best with
  | nil => simp
  | cons x xs ih =>
    dsimp only [List.foldl_cons]
    by_cases h : f best ≤ f x
    · rw [if_pos h]
      obtain ⟨hmem, hmax⟩ := ih x
      refine ⟨List.mem_cons_of_mem best hmem, ?_⟩
      rw [List.forall_mem_cons]
      exact ⟨h.trans (hmax x List.mem_cons_self), hmax⟩
    · rw [if_neg h]
      obtain ⟨hmem, hmax⟩ := ih best
      rw [List.forall_mem_cons] at hmax ⊢
      rw [List.forall_mem_cons]
      refine ⟨?_, hmax.1, (le_of_not_ge h).trans hmax.1, hmax.2⟩
      rcases List.mem_cons.mp hmem with heq | hmem
      · rw [heq]
        exact List.mem_cons_self
      · exact List.mem_cons_of_mem _ (List.mem_cons_of_mem _ hmem)

namespace Amplitude

@[simp] theorem toComplex_sub (x y : Amplitude ℝ) :
    toComplex (x - y) = toComplex x - toComplex y := rfl

@[simp] theorem toComplex_conj (x : Amplitude ℝ) :
    toComplex x.conj = (starRingEnd ℂ) (toComplex x) := rfl

@[simp] theorem toComplex_div (x y : Amplitude ℝ) :
    toComplex (x / y) = toComplex x / toComplex y := by
  apply Complex.ext
  · change (x.re * y.re + x.im * y.im) / (y.re * y.re + y.im * y.im) = _
    rw [Complex.div_re, Complex.normSq_apply, ← add_div]
    rfl
  · change (x.im * y.re - x.re * y.im) / (y.re * y.re + y.im * y.im) = _
    rw [Complex.div_im, Complex.normSq_apply, ← sub_div]
    rfl

@[simp] theorem toComplex_inv (x : Amplitude ℝ) : toComplex x.inv = (toComplex x)⁻¹ := by
  apply Complex.ext
  · rw [Complex.inv_re, Complex.normSq_apply]
    rfl
  · rw [Complex.inv_im, Complex.normSq_apply]
    rfl

theorem toComplex_of_beq_zero {x : Amplitude ℝ} (h : (x == 0) = true) : toComplex x = 0 := by
  have hparts : (x.re == 0 && x.im == 0) = true := h
  rw [Bool.and_eq_true, Scalar.beq_iff, Scalar.beq_iff] at hparts
  exact Complex.ext hparts.1 hparts.2

end Amplitude

namespace Operator

def toSquare (d : ℕ) (m : Operator ℝ) : Matrix (Fin d) (Fin d) ℂ := fun i j =>
  (m.get i j).toComplex

theorem toSquare_ofFn (d : ℕ) (f : ℕ → ℕ → Amplitude ℝ) :
    (ofFn d f).toSquare d = fun i j : Fin d => (f i j).toComplex := by
  funext i j
  exact congrArg Amplitude.toComplex (get_ofFn d f i.isLt j.isLt)

section

variable {d : ℕ} {a b : Operator ℝ}

theorem ext_toSquare (ha : a.dim = d) (hb : b.dim = d) (h : a.toSquare d = b.toSquare d) :
    a = b := by
  subst ha
  refine ext_get hb.symm fun i hi j hj => ?_
  exact Amplitude.toComplex_injective (congrFun (congrFun h ⟨i, hi⟩) ⟨j, hj⟩)

theorem toSquare_mul (ha : a.dim = d) : (a * b).toSquare d = a.toSquare d * b.toSquare d := by
  subst ha
  change (ofFn a.dim _).toSquare a.dim = _
  rw [toSquare_ofFn]
  funext i j
  rw [Amplitude.toComplex_sum, List.map_map, Matrix.mul_apply]
  have hsum (f : ℕ → ℂ) : ((List.range a.dim).map f).sum = ∑ k : Fin a.dim, f k := by
    rw [← Finset.sum_range]
    rfl
  exact hsum _

theorem fusedMul_eq_mul (a b : Operator ℝ) : a.fusedMul b = a * b := by
  have hstep (x y z : Amplitude ℝ) : Amplitude.mulAdd x y z = z + x * y := by
    apply congrArg₂ Amplitude.mk
    · change -x.im * y.im + (x.re * y.re + z.re) = z.re + (x.re * y.re - x.im * y.im)
      ring
    · change x.im * y.re + (x.re * y.im + z.im) = z.im + (x.re * y.im + x.im * y.re)
      ring
  change fusedMul a b = mul a b
  unfold fusedMul mul
  congr 1
  funext i j
  simp only [hstep]
  rw [Amplitude.sum, List.foldl_map]

theorem toSquare_transpose (ha : a.dim = d) : a.transpose.toSquare d = (a.toSquare d)ᵀ := by
  subst ha
  rw [transpose, toSquare_ofFn]
  rfl

theorem toSquare_dagger (ha : a.dim = d) : a.dagger.toSquare d = (a.toSquare d)ᴴ := by
  subst ha
  rw [dagger, toSquare_ofFn]
  rfl

theorem toSquare_scale (ha : a.dim = d) (z : Amplitude ℝ) :
    (a.map (· * z)).toSquare d = z.toComplex • a.toSquare d := by
  subst ha
  rw [map, toSquare_ofFn]
  funext i j
  exact mul_comm (a.get i j).toComplex z.toComplex

theorem toSquare_identity (d : ℕ) : (identity d : Operator ℝ).toSquare d = 1 := by
  rw [identity, toSquare_ofFn]
  funext i j
  rw [Matrix.one_apply]
  by_cases h : i = j
  · rw [if_pos h, if_pos (congrArg Fin.val h), Amplitude.toComplex_one]
  · rw [if_neg h, if_neg (fun hv => h (Fin.ext hv)), Amplitude.toComplex_zero]

theorem toSquare_diagonal (entries : List (Amplitude ℝ)) (hd : entries.length = d) :
    (diagonal entries).toSquare d =
      Matrix.diagonal fun i : Fin d => (entries.getD i 0).toComplex := by
  subst hd
  rw [diagonal, toSquare_ofFn]
  funext i j
  rw [Matrix.diagonal_apply]
  by_cases h : i = j
  · rw [if_pos h, if_pos (congrArg Fin.val h)]
  · rw [if_neg h, if_neg (fun hv => h (Fin.ext hv)), Amplitude.toComplex_zero]

end

end Operator

theorem mem_unitary_of_norm {z : ℂ} (h : ‖z‖ = 1) : z ∈ unitary ℂ := by
  rw [Unitary.mem_iff_star_mul_self, Complex.star_def, Complex.conj_mul', h, Complex.ofReal_one,
    one_pow]

/-- A diagonal matrix is unitary where its entries lie on the unit circle. -/
theorem diagonal_mem_unitaryGroup {d : ℕ} {z : Fin d → ℂ} :
    Matrix.diagonal z ∈ Matrix.unitaryGroup (Fin d) ℂ ↔ ∀ k, z k ∈ unitary ℂ := by
  rw [Matrix.mem_unitaryGroup_iff', Matrix.star_eq_conjTranspose, Matrix.diagonal_conjTranspose,
    Matrix.diagonal_mul_diagonal, ← Matrix.diagonal_one, Matrix.diagonal_injective.eq_iff,
    funext_iff]
  exact forall_congr' fun k => Unitary.mem_iff_star_mul_self.symm

def tensor {m n : ℕ} (A : Matrix (Fin m) (Fin m) ℂ) (B : Matrix (Fin n) (Fin n) ℂ) :
    Matrix (Fin (m * n)) (Fin (m * n)) ℂ :=
  Matrix.reindex finProdFinEquiv finProdFinEquiv (A ⊗ₖ B)

section

variable {m n : ℕ} (A A' : Matrix (Fin m) (Fin m) ℂ) (B B' : Matrix (Fin n) (Fin n) ℂ)

theorem tensor_mul_tensor : tensor A B * tensor A' B' = tensor (A * A') (B * B') := by
  unfold tensor
  rw [Matrix.mul_kronecker_mul, Matrix.reindex_apply, Matrix.reindex_apply, Matrix.reindex_apply,
    Matrix.submatrix_mul_equiv]

theorem tensor_one :
    tensor (1 : Matrix (Fin m) (Fin m) ℂ) (1 : Matrix (Fin n) (Fin n) ℂ) = 1 := by
  rw [tensor, Matrix.one_kronecker_one, Matrix.reindex_apply, Matrix.submatrix_one_equiv]

theorem smul_tensor (x : ℂ) : tensor (x • A) B = x • tensor A B := by
  unfold tensor
  rw [Matrix.smul_kronecker, Matrix.reindex_apply, Matrix.submatrix_smul]
  rfl

theorem tensor_smul (x : ℂ) : tensor A (x • B) = x • tensor A B := by
  unfold tensor
  rw [Matrix.kronecker_smul, Matrix.reindex_apply, Matrix.submatrix_smul]
  rfl

theorem smul_tensor_smul (x y : ℂ) : tensor (x • A) (y • B) = (x * y) • tensor A B := by
  rw [smul_tensor, tensor_smul, smul_smul]

end

theorem Operator.toSquare_kron {m n : ℕ} {a b : Operator ℝ} (ha : a.dim = m) (hb : b.dim = n) :
    (a.kron b).toSquare (m * n) = tensor (a.toSquare m) (b.toSquare n) := by
  subst ha hb
  rw [kron, toSquare_ofFn]
  funext i j
  change (if _ then _ else _ : Amplitude ℝ).toComplex =
    (a.get (i / b.dim) (j / b.dim)).toComplex * (b.get (i % b.dim) (j % b.dim)).toComplex
  by_cases h : (a.get (i / b.dim) (j / b.dim) == 0) = true
  · rw [if_pos h, Amplitude.toComplex_of_beq_zero h, zero_mul, Amplitude.toComplex_zero]
  · rw [if_neg h, Amplitude.toComplex_mul]

theorem Amplitude.toComplex_divReal (x : Amplitude ℝ) (r : ℝ) :
    (x.divReal r).toComplex = x.toComplex / r := by
  apply Complex.ext
  · exact (Complex.div_ofReal_re x.toComplex r).symm
  · exact (Complex.div_ofReal_im x.toComplex r).symm

namespace Operator

variable {a b m : Operator ℝ} {tolerance : ℝ} {i j : ℕ}

theorem all_eq_true_iff {dim : ℕ} {p : ℕ → ℕ → Bool} :
    all dim p = true ↔ ∀ i < dim, ∀ j < dim, p i j = true := by
  simp [all, List.all_eq_true]

theorem mem_positions (hi : i < m.dim) (hj : j < m.dim) :
    (i, j) ∈ (List.range m.dim).flatMap fun i => (List.range m.dim).map fun j => (i, j) := by
  simp [hi, hj]

theorem largestEntry_lt (h : 0 < m.dim) :
    m.largestEntry.1 < m.dim ∧ m.largestEntry.2 < m.dim := by
  have hmem := (foldl_largest (fun p : ℕ × ℕ => (m.get p.1 p.2).norm)
    ((List.range m.dim).flatMap fun i => (List.range m.dim).map fun j => (i, j)) (0, 0)).1
  rcases List.mem_cons.mp hmem with heq | hmem
  · change m.largestEntry = (0, 0) at heq
    rw [heq]
    exact ⟨h, h⟩
  · simp only [List.mem_flatMap, List.mem_range, List.mem_map] at hmem
    obtain ⟨i, hi, j, hj, heq⟩ := hmem
    change (i, j) = m.largestEntry at heq
    rw [← heq]
    exact ⟨hi, hj⟩

theorem norm_le_largestEntry (hi : i < m.dim) (hj : j < m.dim) :
    ‖(m.get i j).toComplex‖ ≤ ‖(m.get m.largestEntry.1 m.largestEntry.2).toComplex‖ := by
  have hmax := (foldl_largest (fun p : ℕ × ℕ => (m.get p.1 p.2).norm) _ (0, 0)).2 (i, j)
    (List.mem_cons_of_mem _ (mem_positions hi hj))
  rwa [Amplitude.norm_eq, Amplitude.norm_eq] at hmax

theorem near_iff {x y : Amplitude ℝ} :
    Amplitude.near tolerance x y = true ↔ ‖x.toComplex - y.toComplex‖ ≤ tolerance := by
  rw [Amplitude.near, decide_eq_true_iff, Amplitude.norm_eq, Amplitude.toComplex_sub]

/-- What is compared, where `p` is the largest entry of the second operator and `x` is the entry of
the first at the same place. -/
theorem equalUpToPhase_eq_true_iff (hdim : a.dim = b.dim) (hpos : 0 < b.dim) {p x : ℂ}
    (hp : (b.get b.largestEntry.1 b.largestEntry.2).toComplex = p)
    (hx : (a.get b.largestEntry.1 b.largestEntry.2).toComplex = x) :
    equalUpToPhase tolerance a b = true ↔
      if ‖p‖ < tolerance then ∀ i < b.dim, ∀ j < b.dim, ‖(a.get i j).toComplex‖ ≤ tolerance
      else |‖x / p‖ - 1| ≤ tolerance ∧ ∀ i < b.dim, ∀ j < b.dim,
        ‖(a.get i j).toComplex - x / p / ‖x / p‖ * (b.get i j).toComplex‖ ≤ tolerance := by
  have habs (y : ℝ) : Scalar.abs y = |y| := rfl
  subst hp hx
  unfold equalUpToPhase
  rw [if_neg (not_not.mpr hdim), if_neg hpos.ne']
  simp only [Amplitude.norm_eq, Amplitude.toComplex_div, hdim, habs]
  split_ifs with hsmall hfar
  · simp only [all_eq_true_iff, decide_eq_true_iff]
  · exact iff_of_false not_false fun h => absurd h.1 (not_le.mpr hfar)
  · simp only [all_eq_true_iff, near_iff, not_lt.mp hfar, true_and, Amplitude.toComplex_mul,
      Amplitude.toComplex_divReal, Amplitude.toComplex_div]

/-- Operators that differ by a phase are found equal, unless nothing is tolerated and all entries
are zero. -/
theorem equalUpToPhase_of_smul {z : ℂ} (htolerance : 0 ≤ tolerance) (hdim : a.dim = b.dim)
    (hz : ‖z‖ = 1)
    (h : ∀ i < b.dim, ∀ j < b.dim, (a.get i j).toComplex = z * (b.get i j).toComplex)
    (hne : tolerance = 0 → ∃ i < b.dim, ∃ j < b.dim, (b.get i j).toComplex ≠ 0) :
    equalUpToPhase tolerance a b = true := by
  rcases Nat.eq_zero_or_pos b.dim with hzero | hpos
  · rw [equalUpToPhase, if_neg (not_not.mpr hdim), if_pos hzero]
  obtain ⟨hi, hj⟩ := largestEntry_lt hpos
  rw [equalUpToPhase_eq_true_iff hdim hpos rfl (h _ hi _ hj)]
  set p := (b.get b.largestEntry.1 b.largestEntry.2).toComplex with hp
  split_ifs with hsmall
  · intro i hi j hj
    rw [h i hi j hj, norm_mul, hz, one_mul]
    exact (norm_le_largestEntry hi hj).trans hsmall.le
  · have hpne : p ≠ 0 := by
      intro hp0
      rw [hp0, norm_zero, not_lt] at hsmall
      obtain ⟨i, hi, j, hj, hne⟩ := hne (hsmall.antisymm htolerance)
      have hle := norm_le_largestEntry hi hj
      rw [← hp, hp0, norm_zero, norm_le_zero_iff] at hle
      exact hne hle
    rw [mul_div_cancel_right₀ z hpne, hz, sub_self, abs_zero]
    refine ⟨htolerance, fun i hi j hj => ?_⟩
    rw [h i hi j hj, Complex.ofReal_one, div_one, sub_self, norm_zero]
    exact htolerance

/-- Operators that are found equal differ by a phase, up to the tolerance in every entry, unless one
of them vanishes up to it. -/
theorem exists_phase_of_equalUpToPhase (htolerance : tolerance < 1)
    (h : equalUpToPhase tolerance a b = true)
    (hlarge : ∃ i < b.dim, ∃ j < b.dim, tolerance ≤ ‖(b.get i j).toComplex‖) :
    ∃ z : ℂ, ‖z‖ = 1 ∧ ∀ i < b.dim, ∀ j < b.dim,
      ‖(a.get i j).toComplex - z * (b.get i j).toComplex‖ ≤ tolerance := by
  obtain ⟨i, hi, j, hj, hlarge⟩ := hlarge
  have hdim : a.dim = b.dim := by
    by_contra hne
    rw [equalUpToPhase, if_pos hne] at h
    cases h
  rw [equalUpToPhase_eq_true_iff hdim (by omega) rfl rfl,
    if_neg (not_lt.mpr (hlarge.trans (norm_le_largestEntry hi hj)))] at h
  refine ⟨_, ?_, h.2⟩
  have hpos := (abs_le.mp h.1).1
  rw [norm_div, Complex.norm_real, norm_norm, div_self (by linarith)]

end Operator

end Interchange
end
