import Interchange.Proofs.GateMatrix

noncomputable section
namespace Interchange
open Matrix Scalar

namespace Operator

theorem toMatrix_exchange (z : Amplitude ℝ) :
    (exchange z).toMatrix 2 =
      !![1, 0, 0, 0; 0, 0, z.toComplex, 0; 0, z.toComplex, 0, 0; 0, 0, 0, 1] := by
  rw [exchange, toMatrix_ofFn (show 4 = 2 ^ 2 from rfl)]
  funext i j
  fin_cases i <;> fin_cases j <;> simp

theorem toMatrix_fourByFour (diagonal antidiagonal : ℕ → Amplitude ℝ) :
    (fourByFour diagonal antidiagonal).toMatrix 2 =
      !![(diagonal 0).toComplex, 0, 0, (antidiagonal 0).toComplex;
        0, (diagonal 1).toComplex, (antidiagonal 1).toComplex, 0;
        0, (antidiagonal 2).toComplex, (diagonal 2).toComplex, 0;
        (antidiagonal 3).toComplex, 0, 0, (diagonal 3).toComplex] := by
  rw [fourByFour, toMatrix_ofFn (show 4 = 2 ^ 2 from rfl)]
  funext i j
  fin_cases i <;> fin_cases j <;> simp

theorem toMatrix_diagonal_four (a b c d : Amplitude ℝ) :
    (diagonal [a, b, c, d]).toMatrix 2 =
      !![a.toComplex, 0, 0, 0; 0, b.toComplex, 0, 0; 0, 0, c.toComplex, 0;
        0, 0, 0, d.toComplex] := by
  rw [diagonal, toMatrix_ofFn (show [a, b, c, d].length = 2 ^ 2 from rfl)]
  funext i j
  fin_cases i <;> fin_cases j <;> rfl

theorem get_controlled_ofFn {d c i j : ℕ} (f : ℕ → ℕ → Amplitude ℝ) (hi : i < d * Nat.pow 2 c)
    (hj : j < d * Nat.pow 2 c) :
    ((ofFn d f).controlled c).get i j =
      if d * Nat.pow 2 c - d ≤ i ∧ d * Nat.pow 2 c - d ≤ j then
        f (i - (d * Nat.pow 2 c - d)) (j - (d * Nat.pow 2 c - d))
      else if i = j then 1 else 0 := by
  refine (get_ofFn _ _ hi hj).trans ?_
  rw [dim_ofFn]
  split_ifs with h
  · exact get_ofFn d f (by omega) (by omega)
  all_goals rfl

end Operator

/-- A matrix with a single one in each row moves amplitudes. -/
theorem mulVec_of_source {n : ℕ} {M : QubitMatrix n} {source : Fin (2 ^ n) → Fin (2 ^ n)}
    (h : ∀ i j, M i j = if source i = j then 1 else 0) (v : Fin (2 ^ n) → ℂ) :
    M *ᵥ v = fun i => v (source i) := by
  funext i
  simp [mulVec, dotProduct, h]

namespace Tag
open Amplitude

theorem exactMatrix_sx :
    exactMatrix 1 sx [] = !![(1 + Complex.I) / 2, (1 - Complex.I) / 2;
      (1 - Complex.I) / 2, (1 + Complex.I) / 2] := by
  refine (Operator.toMatrix_twoByTwo _ _ _ _).trans ?_
  simp only [toComplex_mk, half_real]
  push_cast
  ring_nf

theorem exactMatrix_sxdg :
    exactMatrix 1 sxdg [] = !![(1 - Complex.I) / 2, (1 + Complex.I) / 2;
      (1 + Complex.I) / 2, (1 - Complex.I) / 2] := by
  refine (Operator.toMatrix_twoByTwo _ _ _ _).trans ?_
  simp only [toComplex_mk, half_real]
  push_cast
  ring_nf

theorem exactMatrix_u (θ φ l : ℝ) :
    exactMatrix 1 u [θ, φ, l] =
      !![cosHalf θ, -(sinHalf θ * unitPhase l);
        sinHalf θ * unitPhase φ, cosHalf θ * unitPhase (φ + l)] := by
  refine (Operator.toMatrix_twoByTwo _ _ _ _).trans ?_
  simp only [toComplex_neg, toComplex_polar, toComplex_mk, two_real]
  simp [Scalar.sin, Scalar.cos, cosHalf, sinHalf, unitPhase]

/-- A tag with one control acts as its base where the control is set. -/
theorem exactMatrix_controlled {tag : Tag} (base : Tag) {values : List ℝ} {m : Operator ℝ}
    (ht : tag.matrix? values = some (m.controlled 1)) (hb : base.matrix? values = some m)
    (hd : m.dim = 2) :
    exactMatrix 2 tag values =
      (let B : QubitMatrix 1 := base.exactMatrix 1 values
      !![1, 0, 0, 0; 0, 1, 0, 0; 0, 0, B 0 0, B 0 1; 0, 0, B 1 0, B 1 1]) := by
  rw [exactMatrix, exactMatrix, ht, hb]
  exact Operator.toMatrix_controlled hd

theorem exactMatrix_swap :
    exactMatrix 2 swap [] = !![1, 0, 0, 0; 0, 0, 1, 0; 0, 1, 0, 0; 0, 0, 0, 1] := by
  refine (Operator.toMatrix_exchange _).trans ?_
  rw [toComplex_one]

theorem exactMatrix_iswap :
    exactMatrix 2 iswap [] =
      !![1, 0, 0, 0; 0, 0, Complex.I, 0; 0, Complex.I, 0, 0; 0, 0, 0, 1] := by
  refine (Operator.toMatrix_exchange _).trans ?_
  rw [toComplex_I]

theorem exactMatrix_rxx (t : ℝ) :
    exactMatrix 2 rxx [t] =
      !![cosHalf t, 0, 0, -(sinHalf t * Complex.I); 0, cosHalf t, -(sinHalf t * Complex.I), 0;
        0, -(sinHalf t * Complex.I), cosHalf t, 0; -(sinHalf t * Complex.I), 0, 0, cosHalf t] := by
  refine (Operator.toMatrix_fourByFour _ _).trans ?_
  simp [two_real, Scalar.sin, Scalar.cos, cosHalf, sinHalf]

theorem exactMatrix_ryy (t : ℝ) :
    exactMatrix 2 ryy [t] =
      !![cosHalf t, 0, 0, sinHalf t * Complex.I; 0, cosHalf t, -(sinHalf t * Complex.I), 0;
        0, -(sinHalf t * Complex.I), cosHalf t, 0; sinHalf t * Complex.I, 0, 0, cosHalf t] := by
  refine (Operator.toMatrix_fourByFour _ _).trans ?_
  simp [two_real, Scalar.sin, Scalar.cos, cosHalf, sinHalf]

theorem exactMatrix_rzz (t : ℝ) :
    exactMatrix 2 rzz [t] =
      !![unitPhase (-(t / 2)), 0, 0, 0; 0, unitPhase (t / 2), 0, 0;
        0, 0, unitPhase (t / 2), 0; 0, 0, 0, unitPhase (-(t / 2))] := by
  refine (Operator.toMatrix_diagonal_four _ _ _ _).trans ?_
  rw [toComplex_cis, toComplex_cis, two_real, neg_div]

theorem exactMatrix_ccx_apply (i j : Fin 8) :
    exactMatrix 3 ccx [] i j =
      if (![0, 1, 2, 3, 4, 5, 7, 6] : Fin 8 → Fin 8) i = j then 1 else 0 := by
  refine (congrArg Amplitude.toComplex
    (Operator.get_controlled_ofFn (d := 2) (c := 2) _ i.isLt j.isLt)).trans ?_
  fin_cases i <;> fin_cases j <;> rfl

theorem exactMatrix_ccx_mulVec (a b c d e f g h : ℂ) :
    exactMatrix 3 ccx [] *ᵥ ![a, b, c, d, e, f, g, h] = ![a, b, c, d, e, f, h, g] := by
  rw [mulVec_of_source exactMatrix_ccx_apply]
  exact (FinVec.etaExpand_eq _).symm

theorem exactMatrix_cswap_mulVec (a b c d e f g h : ℂ) :
    exactMatrix 3 cswap [] *ᵥ ![a, b, c, d, e, f, g, h] = ![a, b, c, d, e, g, f, h] := by
  have hs : ∀ i j : Fin 8, exactMatrix 3 cswap [] i j =
      if (![0, 1, 2, 3, 4, 6, 5, 7] : Fin 8 → Fin 8) i = j then 1 else 0 := by
    intro i j
    refine (congrArg Amplitude.toComplex
      (Operator.get_controlled_ofFn (d := 4) (c := 1) _ i.isLt j.isLt)).trans ?_
    fin_cases i <;> fin_cases j <;> rfl
  rw [mulVec_of_source hs]
  exact (FinVec.etaExpand_eq _).symm

end Tag

end Interchange
end
