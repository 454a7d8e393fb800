import Mathlib.Tactic.FinCases
import Mathlib.Tactic.LinearCombination
import Interchange.Proofs.ControlledBlock
import Interchange.Proofs.GateMatrix
import Interchange.Proofs.StandardGate

noncomputable section
namespace Interchange
open Matrix ComplexConjugate

section

variable {d : ℕ}

theorem belowIdentity_one (o d : ℕ) : belowIdentity o (1 : Matrix (Fin d) (Fin d) ℂ) = 1 := by
  rw [belowIdentity, fromBlocks_one, submatrix_one_equiv]

theorem belowIdentity_mem_unitaryGroup (o : ℕ) {A : Matrix (Fin d) (Fin d) ℂ}
    (h : A ∈ unitaryGroup (Fin d) ℂ) : belowIdentity o A ∈ unitaryGroup (Fin (o + d)) ℂ := by
  rw [mem_unitaryGroup_iff, star_eq_conjTranspose] at h ⊢
  rw [← belowIdentity_conjTranspose, ← belowIdentity_mul, h, belowIdentity_one]

end

namespace Operator

/-- An operator is unitary without any tolerance. -/
def Unitary (m : Operator ℝ) : Prop := m.toSquare m.dim ∈ unitaryGroup (Fin m.dim) ℂ

variable {d : ℕ} {m : Operator ℝ}

theorem unitary_iff (hd : m.dim = d) : m.Unitary ↔ m.toSquare d ∈ unitaryGroup (Fin d) ℂ := by
  subst hd
  rfl

theorem Unitary.mul_dagger (h : m.Unitary) : m * m.dagger = identity m.dim := by
  refine ext_toSquare (d := m.dim) rfl rfl ?_
  rw [toSquare_mul rfl, toSquare_dagger rfl, toSquare_identity]
  exact mem_unitaryGroup_iff.mp h

theorem Unitary.dagger_mul (h : m.Unitary) : m.dagger * m = identity m.dim := by
  refine ext_toSquare (d := m.dim) rfl rfl ?_
  rw [toSquare_mul (show m.dagger.dim = m.dim from rfl), toSquare_dagger rfl, toSquare_identity]
  exact mem_unitaryGroup_iff'.mp h

theorem Unitary.controlled (h : m.Unitary) (controls : ℕ) : (m.controlled controls).Unitary := by
  obtain ⟨o, ho⟩ := exists_offset m.dim controls
  rw [unitary_iff (show (m.controlled controls).dim = o + m.dim from ho),
    toSquare_controlled rfl ho]
  exact belowIdentity_mem_unitaryGroup o h

section Shapes

theorem unitary_identity (d : ℕ) : (identity d).Unitary := by
  rw [unitary_iff (d := d) rfl, toSquare_identity]
  exact one_mem _

theorem unitary_diagonal {entries : List (Amplitude ℝ)}
    (h : ∀ x ∈ entries, ‖x.toComplex‖ = 1) : (diagonal entries).Unitary := by
  rw [unitary_iff (show (diagonal entries).dim = entries.length from rfl),
    toSquare_diagonal entries rfl, diagonal_mem_unitaryGroup]
  intro k
  rw [List.getD_eq_getElem entries 0 k.isLt]
  exact mem_unitary_of_norm (h _ (List.getElem_mem k.isLt))

open Complex in
theorem unitary_twoByTwo {a b c d : Amplitude ℝ}
    (hab : normSq a.toComplex + normSq b.toComplex = 1)
    (hcd : normSq c.toComplex + normSq d.toComplex = 1)
    (horth : a.toComplex * conj c.toComplex + b.toComplex * conj d.toComplex = 0) :
    (twoByTwo a b c d).Unitary := by
  have horth' : c.toComplex * conj a.toComplex + d.toComplex * conj b.toComplex = 0 := by
    simpa [mul_comm] using congrArg conj horth
  have hsquare : (twoByTwo a b c d).toSquare 2 =
      !![a.toComplex, b.toComplex; c.toComplex, d.toComplex] := toMatrix_twoByTwo a b c d
  rw [unitary_iff (d := 2) rfl, hsquare, mem_unitaryGroup_iff, star_eq_conjTranspose]
  ext i j
  fin_cases i <;> fin_cases j
  · simp [mul_apply, mul_conj, ← ofReal_add, hab]
  · simpa [mul_apply] using horth
  · simpa [mul_apply] using horth'
  · simp [mul_apply, mul_conj, ← ofReal_add, hcd]

/-- A turn between the two states, with a phase on the second column and one on the second row. -/
theorem unitary_turn {a b c d : Amplitude ℝ} {x y : ℝ} {v w : ℂ} (hxy : x ^ 2 + y ^ 2 = 1)
    (hv : ‖v‖ = 1) (hw : ‖w‖ = 1) (ha : a.toComplex = x) (hb : b.toComplex = -(y * v))
    (hc : c.toComplex = y * w) (hd : d.toComplex = x * (v * w)) : (twoByTwo a b c d).Unitary := by
  have hunit {z : ℂ} (hz : ‖z‖ = 1) : Complex.normSq z = 1 := by
    rw [Complex.normSq_eq_norm_sq, hz, one_pow]
  apply unitary_twoByTwo
  · rw [ha, hb, Complex.normSq_neg, Complex.normSq_mul, hunit hv, Complex.normSq_ofReal,
      Complex.normSq_ofReal]
    linear_combination hxy
  · rw [hc, hd, Complex.normSq_mul, Complex.normSq_mul, Complex.normSq_mul, hunit hv, hunit hw,
      Complex.normSq_ofReal, Complex.normSq_ofReal]
    linear_combination hxy
  · have hvv : v * conj v = 1 := by rw [Complex.mul_conj, hunit hv, Complex.ofReal_one]
    rw [ha, hb, hc, hd, map_mul, map_mul, map_mul, Complex.conj_ofReal, Complex.conj_ofReal]
    linear_combination -(x * y * conj w) * hvv

theorem unitary_exchange {factor : Amplitude ℝ} (h : ‖factor.toComplex‖ = 1) :
    (exchange factor).Unitary := by
  have hfactor : factor.toComplex * conj factor.toComplex = 1 := by
    rw [Complex.mul_conj', h, Complex.ofReal_one, one_pow]
  have hsquare : (exchange factor).toSquare 4 = !![1, 0, 0, 0; 0, 0, factor.toComplex, 0;
      0, factor.toComplex, 0, 0; 0, 0, 0, 1] := by
    rw [exchange, toSquare_ofFn]
    funext i j
    fin_cases i <;> fin_cases j <;> rfl
  rw [unitary_iff (d := 4) rfl, hsquare, mem_unitaryGroup_iff, star_eq_conjTranspose]
  ext i j
  fin_cases i <;> fin_cases j <;> simp [mul_apply, Fin.sum_univ_four, hfactor]

/-- A turn between opposite states, by the same angle in both of them. -/
theorem unitary_fourByFour {x : ℝ} {y : ℕ → ℝ} (hxy : ∀ i < 4, x ^ 2 + y i ^ 2 = 1)
    (hopposite : ∀ i < 4, y (3 - i) = y i) :
    (fourByFour (fun _ => (1 : Amplitude ℝ).scale x) fun i => ⟨0, y i⟩).Unitary := by
  have hsquare : (fourByFour (fun _ => (1 : Amplitude ℝ).scale x) fun i => ⟨0, y i⟩).toSquare 4 =
      !![(x : ℂ), 0, 0, y 0 * Complex.I; 0, x, y 1 * Complex.I, 0;
        0, y 1 * Complex.I, x, 0; y 0 * Complex.I, 0, 0, x] := by
    have h2 : y 2 = y 1 := hopposite 1 (by decide)
    have h3 : y 3 = y 0 := hopposite 0 (by decide)
    rw [fourByFour, toSquare_ofFn]
    funext i j
    fin_cases i <;> fin_cases j <;> simp [h2, h3]
  have hrow (i : ℕ) (hi : i < 4) :
      (x : ℂ) * x - y i * Complex.I * (y i * Complex.I) = 1 := by
    have h : (x : ℂ) ^ 2 + y i ^ 2 = 1 := by exact_mod_cast hxy i hi
    linear_combination h - (y i : ℂ) ^ 2 * Complex.I_sq
  have h0 := hrow 0 (by decide)
  have h1 := hrow 1 (by decide)
  rw [unitary_iff (d := 4) rfl, hsquare, mem_unitaryGroup_iff, star_eq_conjTranspose]
  ext i j
  fin_cases i <;> fin_cases j <;> simp [mul_apply, Fin.sum_univ_four] <;> grind

end Shapes

end Operator

namespace Tag
open Operator Amplitude

theorem sq_cos_add_sq_sin (t : ℝ) : (Scalar.cos t : ℝ) ^ 2 + Scalar.sin t ^ 2 = 1 :=
  Real.cos_sq_add_sin_sq t

theorem sq_invSqrtTwo : (Scalar.invSqrtTwo : ℝ) ^ 2 = 1 / 2 := by
  apply Complex.ofReal_injective
  simpa [rootHalf] using rootHalf_sq

theorem norm_cis (t : ℝ) : ‖(cis t).toComplex‖ = 1 := by rw [toComplex_cis, norm_unitPhase]

/-- Every gate without controls has a unitary matrix, whatever its angles are. -/
theorem exists_unitary_plain {tag : Tag} (hu : tag ≠ unitary) (hm : tag ≠ measure)
    (hb : tag.base? = none) {values : List ℝ} (hl : values.length = tag.paramCount) :
    ∃ m, tag.plainMatrix? values = some m ∧ m.Unitary := by
  cases tag with
  | unitary => exact absurd rfl hu
  | measure => exact absurd rfl hm
  | cx | cy | cz | ch | cphase | crx | cry | crz | ccx | cswap => cases hb
  | h =>
    obtain rfl := List.length_eq_zero_iff.mp hl
    refine ⟨_, rfl, unitary_turn (x := Scalar.invSqrtTwo) (y := Scalar.invSqrtTwo) (v := -1)
      (w := 1) (by rw [sq_invSqrtTwo, add_halves]) ?_ ?_ ?_ ?_ ?_ ?_⟩ <;> simp
  | x =>
    obtain rfl := List.length_eq_zero_iff.mp hl
    refine ⟨_, rfl, unitary_turn (x := 0) (y := 1) (v := -1) (w := 1) ?_ ?_ ?_ ?_ ?_ ?_ ?_⟩ <;> simp
  | y =>
    obtain rfl := List.length_eq_zero_iff.mp hl
    refine ⟨_, rfl, unitary_turn (x := 0) (y := 1) (v := Complex.I) (w := Complex.I)
      ?_ ?_ ?_ ?_ ?_ ?_ ?_⟩ <;> simp
  | z | s | sdg | t | tdg =>
    obtain rfl := List.length_eq_zero_iff.mp hl
    exact ⟨_, rfl, unitary_diagonal (by simp [norm_cis])⟩
  | id =>
    obtain rfl := List.length_eq_zero_iff.mp hl
    exact ⟨_, rfl, unitary_identity 2⟩
  | sx | sxdg =>
    obtain rfl := List.length_eq_zero_iff.mp hl
    refine ⟨_, rfl, unitary_twoByTwo ?_ ?_ ?_⟩
    · norm_num [Complex.normSq_apply, half_real]
    · norm_num [Complex.normSq_apply, half_real]
    · simp only [toComplex_mk, Complex.ofReal_neg, map_add, map_mul, map_neg, Complex.conj_ofReal,
        Complex.conj_I]
      linear_combination 2 * (Scalar.half : ℝ) ^ 2 * Complex.I_sq
  | phase | rz | rzz =>
    obtain ⟨t, rfl⟩ := List.length_eq_one_iff.mp hl
    exact ⟨_, rfl, unitary_diagonal (by simp [norm_cis])⟩
  | rx =>
    obtain ⟨t, rfl⟩ := List.length_eq_one_iff.mp hl
    refine ⟨_, rfl, unitary_turn (v := Complex.I) (w := -Complex.I)
      (sq_cos_add_sq_sin (t / Scalar.two)) ?_ ?_ ?_ ?_ ?_ ?_⟩ <;> simp
  | ry =>
    obtain ⟨t, rfl⟩ := List.length_eq_one_iff.mp hl
    refine ⟨_, rfl, unitary_turn (v := 1) (w := 1) (sq_cos_add_sq_sin (t / Scalar.two))
      ?_ ?_ ?_ ?_ ?_ ?_⟩ <;> simp
  | u =>
    obtain ⟨θ, φ, l, rfl⟩ := List.length_eq_three.mp hl
    refine ⟨_, rfl, unitary_turn (v := unitPhase l) (w := unitPhase φ)
      (sq_cos_add_sq_sin (θ / Scalar.two)) (norm_unitPhase l) (norm_unitPhase φ) ?_ ?_ ?_ ?_⟩
    · simp
    · rw [toComplex_neg, toComplex_polar, unitPhase]
    · rw [toComplex_polar, unitPhase]
    · rw [toComplex_polar, ← unitPhase_add, unitPhase, add_comm l]
  | swap | iswap =>
    obtain rfl := List.length_eq_zero_iff.mp hl
    exact ⟨_, rfl, unitary_exchange (by simp)⟩
  | rxx =>
    obtain ⟨t, rfl⟩ := List.length_eq_one_iff.mp hl
    refine ⟨_, rfl, unitary_fourByFour (fun i _ => ?_) fun i _ => rfl⟩
    rw [neg_sq, sq_cos_add_sq_sin]
  | ryy =>
    obtain ⟨t, rfl⟩ := List.length_eq_one_iff.mp hl
    refine ⟨_, rfl, unitary_fourByFour (fun i _ => ?_) fun i hi => ?_⟩
    · split_ifs
      · exact sq_cos_add_sq_sin _
      · rw [neg_sq, sq_cos_add_sq_sin]
    · exact if_congr (by omega) rfl rfl

theorem exists_unitary {tag : Tag} (hu : tag ≠ unitary) (hm : tag ≠ measure) {values : List ℝ}
    (hl : values.length = tag.paramCount) : ∃ m, tag.matrix? values = some m ∧ m.Unitary := by
  cases hb : tag.base? with
  | none =>
    rw [matrix?_of_plain hl hb]
    exact exists_unitary_plain hu hm hb hl
  | some base =>
    have hbase := isBase_of_base? hb
    have hl' : values.length = base.paramCount := hl.trans hbase.paramCount_eq.symm
    obtain ⟨m, hmatrix, hunitary⟩ :=
      exists_unitary_plain hbase.ne_unitary hbase.ne_measure hbase.base?_eq hl'
    rw [matrix?_of_base hl hb, matrix?_of_plain hl' hbase.base?_eq, hmatrix]
    exact ⟨m.controlled tag.controls, rfl, hunitary.controlled tag.controls⟩

/-- Every tag but the general unitary and the measurement has a matrix for each choice of angles. It
has as many rows as the qubits of the tag have states, and is unitary from both sides. -/
theorem exists_unitary_matrix {tag : Tag} (hu : tag ≠ unitary) (hm : tag ≠ measure)
    {values : List ℝ} (hl : values.length = tag.paramCount) :
    ∃ m n, tag.matrix? values = some m ∧ tag.qubits? = some n ∧ m.dim = 2 ^ n ∧
      m * m.dagger = identity m.dim ∧ m.dagger * m = identity m.dim := by
  obtain ⟨n, hn⟩ := exists_qubits? hu
  obtain ⟨m, hmatrix, hunitary⟩ := exists_unitary hu hm hl
  exact ⟨m, n, hmatrix, hn, dim_of_matrix? hmatrix hn, hunitary.mul_dagger, hunitary.dagger_mul⟩

/-- A general turn under no control, and a turn under one. -/
theorem exists_unitary_matrix_turns :
    (∃ m n, u.matrix? [1, Real.pi, -3] = some m ∧ u.qubits? = some n ∧ m.dim = 2 ^ n ∧
      m * m.dagger = identity m.dim ∧ m.dagger * m = identity m.dim) ∧
    ∃ m n, crx.matrix? [Real.sqrt 2] = some m ∧ crx.qubits? = some n ∧ m.dim = 2 ^ n ∧
      m * m.dagger = identity m.dim ∧ m.dagger * m = identity m.dim :=
  ⟨exists_unitary_matrix (by decide) (by decide) rfl,
    exists_unitary_matrix (by decide) (by decide) rfl⟩

end Tag

end Interchange
end
