import Mathlib.LinearAlgebra.Matrix.Permutation
import Mathlib.Tactic.FinCases
import Mathlib.Tactic.LinearCombination
import Interchange.Proofs.CirqExpression
import Interchange.Proofs.OperatorMatrix
import Interchange.Proofs.ParamReading
import Interchange.Proofs.RuleTarget

noncomputable section
namespace Interchange
open Matrix Scalar

/-- A matrix that undoes itself. -/
structure Involution (n : ℕ) where
  matrix : QubitMatrix n
  mul_self : matrix * matrix = 1

namespace Involution

variable {n : ℕ}

def basisState (n a : ℕ) : Fin (2 ^ n) := ⟨a % 2 ^ n, Nat.mod_lt a (Nat.two_pow_pos n)⟩

def exchanging (n a b : ℕ) : Involution n where
  matrix := (Equiv.swap (basisState n a) (basisState n b)).permMatrix ℂ
  mul_self := by rw [← permMatrix_mul, Equiv.swap_mul_self, permMatrix_one]

def negating (n a : ℕ) : Involution n where
  matrix := diagonal fun i => if i = basisState n a then -1 else 1
  mul_self := by
    rw [diagonal_mul_diagonal, ← diagonal_one]
    congr 1
    funext i
    split_ifs <;> simp

def onBoth (G : Involution 1) : Involution 2 where
  matrix := tensor G.matrix G.matrix
  mul_self := by
    rw [tensor_mul_tensor, G.mul_self]
    exact tensor_one

def x : Involution 1 := exchanging 1 0 1

def y : Involution 1 where
  matrix := !![0, -Complex.I; Complex.I, 0]
  mul_self := by
    change (!![0, -Complex.I; Complex.I, 0] : Matrix (Fin 2) (Fin 2) ℂ) * _ = 1
    simp [one_fin_two]

def z : Involution 1 := negating 1 1

def h : Involution 1 where
  matrix := ((√(2 : ℕ) : ℝ) : ℂ)⁻¹ • !![1, 1; 1, -1]
  mul_self := by
    have hsquare : (!![1, 1; 1, -1] : QubitMatrix 1) * !![1, 1; 1, -1] = (2 : ℂ) • 1 := by
      rw [one_fin_two]
      norm_num
    have hroot : ((√2 : ℝ) : ℂ)⁻¹ * ((√2 : ℝ) : ℂ)⁻¹ * 2 = 1 := by
      rw [← mul_inv, ← Complex.ofReal_mul, Real.mul_self_sqrt zero_le_two, Complex.ofReal_ofNat,
        inv_mul_cancel₀ two_ne_zero]
    rw [Nat.cast_ofNat, smul_mul_smul_comm, hsquare, smul_smul, hroot, one_smul]

/-- `G^t`, with the eigenvalue `-1` taken to `e^{iπt}`. -/
def power (G : Involution n) (t : ℝ) : QubitMatrix n :=
  (1 / (2 : ℕ) : ℂ) • (1 + G.matrix) + (unitPhase (Real.pi * t) / (2 : ℕ)) • (1 - G.matrix)

theorem power_eq (G : Involution n) (t : ℝ) : G.power t =
    (1 / 2 : ℂ) • (1 + G.matrix) + (unitPhase (Real.pi * t) / 2) • (1 - G.matrix) := by
  rw [power, Nat.cast_ofNat]

variable (G : Involution n) (t : ℝ)

theorem power_apply (i j : Fin (2 ^ n)) : G.power t i j =
    (1 + unitPhase (Real.pi * t)) / 2 * (1 : QubitMatrix n) i j +
      (1 - unitPhase (Real.pi * t)) / 2 * G.matrix i j := by
  simp only [power_eq, Matrix.add_apply, Matrix.sub_apply, Matrix.smul_apply, smul_eq_mul]
  ring

theorem power_eq_self {t : ℝ} (ht : t = 1 ∨ t = -1) : G.power t = G.matrix := by
  have hphase : unitPhase (Real.pi * t) = -1 := by
    rcases ht with rfl | rfl
    · rw [mul_one, unitPhase_pi]
    · rw [mul_neg_one, unitPhase_neg_pi]
  rw [power_eq, hphase]
  module

def turn (θ : ℝ) : QubitMatrix n := cosHalf θ • 1 - (sinHalf θ * Complex.I) • G.matrix

theorem turn_apply (θ : ℝ) (i j : Fin (2 ^ n)) : G.turn θ i j =
    cosHalf θ * (1 : QubitMatrix n) i j - sinHalf θ * Complex.I * G.matrix i j := rfl

theorem turn_eq_smul_power :
    G.turn (Real.pi * t) = unitPhase (-(Real.pi * t / 2)) • G.power t := by
  have hhalves : unitPhase (Real.pi * t) =
      unitPhase (Real.pi * t / 2) * unitPhase (Real.pi * t / 2) := by
    rw [← unitPhase_add, add_halves]
  have hinv := unitPhase_neg_mul (Real.pi * t / 2)
  have hcos : cosHalf (Real.pi * t) =
      (unitPhase (-(Real.pi * t / 2)) + unitPhase (Real.pi * t / 2)) / 2 := by
    rw [unitPhase_half, unitPhase_neg_half]
    ring
  have hsin : sinHalf (Real.pi * t) * Complex.I =
      (unitPhase (Real.pi * t / 2) - unitPhase (-(Real.pi * t / 2))) / 2 := by
    rw [unitPhase_half, unitPhase_neg_half]
    ring
  rw [turn, hcos, hsin, power_eq, hhalves]
  generalize unitPhase (-(Real.pi * t / 2)) = u at hinv ⊢
  generalize unitPhase (Real.pi * t / 2) = v at hinv ⊢
  have huvv : u * (v * v / 2) = v / 2 := by linear_combination (v / 2) * hinv
  rw [smul_add, smul_smul, smul_smul, huvv]
  module

theorem exchanging_apply (a b : ℕ) (i j : Fin (2 ^ n)) :
    (exchanging n a b).matrix i j =
      if Equiv.swap (basisState n a) (basisState n b) i = j then 1 else 0 := by
  simp [exchanging, Equiv.Perm.permMatrix, PEquiv.toMatrix_apply, Equiv.toPEquiv_apply]

theorem matrix_x : x.matrix = !![0, 1; 1, 0] := by
  funext i j
  rw [x, exchanging_apply]
  fin_cases i <;> fin_cases j <;> rfl

theorem matrix_z : z.matrix = !![1, 0; 0, -1] := by
  funext i j
  fin_cases i <;> fin_cases j <;> rfl

theorem matrix_onBoth {G : Involution 1} {a b c d : ℂ} (h : G.matrix = !![a, b; c, d]) :
    G.onBoth.matrix = !![a * a, a * b, b * a, b * b; a * c, a * d, b * c, b * d;
      c * a, c * b, d * a, d * b; c * c, c * d, d * c, d * d] := by
  funext i j
  change tensor G.matrix G.matrix i j = _
  rw [h]
  fin_cases i <;> fin_cases j <;> rfl

theorem power_negating (a : ℕ) : (negating n a).power t =
    diagonal fun i => if i = basisState n a then unitPhase (Real.pi * t) else 1 := by
  funext i j
  rw [power_apply]
  change _ * _ + _ * diagonal (fun i => if i = basisState n a then (-1 : ℂ) else 1) i j = _
  by_cases hij : i = j
  · subst hij
    rw [one_apply_eq, diagonal_apply_eq, diagonal_apply_eq]
    split_ifs <;> ring
  · rw [one_apply_ne hij, diagonal_apply_ne _ hij, diagonal_apply_ne _ hij]
    ring

/-- Up to a phase, an operator is a power of an involution. -/
def IsPower (m : Operator ℝ) : Prop :=
  m.dim = 2 ^ n ∧ ∃ w : ℂ, ‖w‖ = 1 ∧ m.toMatrix n = w • G.power t

variable {G t}

theorem IsPower.of_eq {m : Operator ℝ} (hd : m.dim = 2 ^ n) (h : m.toMatrix n = G.power t) :
    G.IsPower t m :=
  ⟨hd, 1, norm_one, by rw [h, one_smul]⟩

theorem IsPower.of_self {m : Operator ℝ} (hd : m.dim = 2 ^ n) (h : m.toMatrix n = G.matrix)
    (ht : t = 1 ∨ t = -1) : G.IsPower t m :=
  .of_eq hd (h.trans (G.power_eq_self ht).symm)

theorem IsPower.of_turn {m : Operator ℝ} (hd : m.dim = 2 ^ n)
    (h : m.toMatrix n = G.turn (Real.pi * t)) : G.IsPower t m :=
  ⟨hd, _, norm_unitPhase _, h.trans (G.turn_eq_smul_power t)⟩

end Involution

namespace Tag
open Involution

theorem exactMatrix_x_eq : exactMatrix 1 .x [] = Involution.x.matrix :=
  exactMatrix_x.trans matrix_x.symm

theorem exactMatrix_h_eq : exactMatrix 1 .h [] = Involution.h.matrix := by
  have hroot : rootHalf = ((√2 : ℝ) : ℂ)⁻¹ := by
    rw [rootHalf, ← Complex.ofReal_inv, ← Real.sqrt_inv, ← one_div]
    exact congrArg (fun r : ℝ => ((√r : ℝ) : ℂ)) half_real
  rw [exactMatrix_h, hroot, Involution.h]
  funext i j
  fin_cases i <;> fin_cases j <;> simp

theorem exactMatrix_cx_eq :
    exactMatrix 2 .cx [] = (exchanging 2 2 3).matrix := by
  rw [exactMatrix_cx]
  funext i j
  rw [exchanging_apply]
  fin_cases i <;> fin_cases j <;> rfl

theorem exactMatrix_swap_eq :
    exactMatrix 2 .swap [] = (exchanging 2 1 2).matrix := by
  rw [exactMatrix_swap]
  funext i j
  rw [exchanging_apply]
  fin_cases i <;> fin_cases j <;> rfl

theorem exactMatrix_ccx_eq :
    exactMatrix 3 .ccx [] = (exchanging 3 6 7).matrix := by
  have htable : ∀ i : Fin 8, (![0, 1, 2, 3, 4, 5, 7, 6] : Fin 8 → Fin 8) i =
      Equiv.swap (basisState 3 6) (basisState 3 7) i := by
    decide
  funext i j
  rw [exchanging_apply]
  refine (exactMatrix_ccx_apply i j).trans ?_
  rw [htable]

theorem exactMatrix_phase_eq (t : ℝ) :
    exactMatrix 1 .phase [Real.pi * t] = Involution.z.power t := by
  rw [exactMatrix_phase, Involution.z, power_negating]
  funext i j
  fin_cases i <;> fin_cases j <;> rfl

theorem exactMatrix_cphase_eq (t : ℝ) :
    exactMatrix 2 .cphase [Real.pi * t] = (negating 2 3).power t := by
  rw [exactMatrix_controlled .phase rfl rfl rfl, exactMatrix_phase, power_negating]
  funext i j
  fin_cases i <;> fin_cases j <;> rfl

theorem exactMatrix_rx_eq (θ : ℝ) : exactMatrix 1 .rx [θ] = Involution.x.turn θ := by
  rw [exactMatrix_rx]
  funext i j
  rw [turn_apply, matrix_x]
  fin_cases i <;> fin_cases j <;> simp

theorem exactMatrix_ry_eq (θ : ℝ) : exactMatrix 1 .ry [θ] = Involution.y.turn θ := by
  rw [exactMatrix_ry]
  funext i j
  rw [turn_apply, Involution.y]
  fin_cases i <;> fin_cases j <;> simp [mul_assoc]

theorem exactMatrix_rxx_eq (θ : ℝ) : exactMatrix 2 .rxx [θ] = Involution.x.onBoth.turn θ := by
  rw [exactMatrix_rxx]
  funext i j
  rw [turn_apply, matrix_onBoth matrix_x]
  fin_cases i <;> fin_cases j <;> simp

theorem exactMatrix_ryy_eq (θ : ℝ) : exactMatrix 2 .ryy [θ] = Involution.y.onBoth.turn θ := by
  rw [exactMatrix_ryy]
  funext i j
  rw [turn_apply, matrix_onBoth rfl]
  fin_cases i <;> fin_cases j <;> simp

theorem exactMatrix_rzz_eq (θ : ℝ) : exactMatrix 2 .rzz [θ] = Involution.z.onBoth.turn θ := by
  rw [exactMatrix_rzz, unitPhase_half, unitPhase_neg_half]
  funext i j
  rw [turn_apply, matrix_onBoth matrix_z]
  fin_cases i <;> fin_cases j <;> simp

theorem exactMatrix_sx_eq : exactMatrix 1 .sx [] = Involution.x.power (1 / 2) := by
  have hphase : unitPhase (Real.pi * (1 / 2)) = Complex.I := by
    rw [mul_one_div, Cirq.unitPhase_halfPi]
  rw [exactMatrix_sx]
  funext i j
  rw [power_apply, matrix_x, hphase]
  fin_cases i <;> fin_cases j <;> simp

theorem exactMatrix_sxdg_eq : exactMatrix 1 .sxdg [] = Involution.x.power (-(1 / 2)) := by
  have hphase : unitPhase (Real.pi * -(1 / 2)) = -Complex.I := by
    rw [mul_neg, mul_one_div, Cirq.unitPhase_neg_halfPi]
  rw [exactMatrix_sxdg]
  funext i j
  rw [power_apply, matrix_x, hphase]
  fin_cases i <;> fin_cases j <;> simp [sub_eq_add_neg]

end Tag

namespace Cirq

def namedExponents : List ℝ :=
  [1, -1, 1 / (2 : ℕ), -(1 / (2 : ℕ)), 1 / (4 : ℕ), -(1 / (4 : ℕ))]

/-- An exponent that is not mistaken for another one. -/
def IsPlainExponent (t : ℝ) : Prop :=
  t ∈ namedExponents ∨ ∀ named ∈ namedExponents, 1 / (10 ^ 12 : ℕ) ≤ |t - named|

theorem IsPlainExponent.eq_of_isTakenFor {t named : ℝ} (ht : IsPlainExponent t)
    (hnamed : named ∈ namedExponents) (h : IsTakenFor t named) : t = named := by
  rw [isTakenFor_iff] at h
  rcases ht with ht | ht
  · -- exponents with a name are quarters, and these are far apart
    have hquarter : ∀ e ∈ namedExponents, ∃ k : ℤ, e = k / 4 := by
      simp only [namedExponents, List.forall_mem_cons, List.not_mem_nil, false_imp_iff,
        implies_true, and_true]
      exact ⟨⟨4, by norm_num⟩, ⟨-4, by norm_num⟩, ⟨2, by norm_num⟩, ⟨-2, by norm_num⟩,
        ⟨1, by norm_num⟩, ⟨-1, by norm_num⟩⟩
    obtain ⟨k, rfl⟩ := hquarter t ht
    obtain ⟨l, rfl⟩ := hquarter named hnamed
    have hlt : |((k - l : ℤ) : ℝ)| < 1 := by
      rw [← sub_div, abs_div, abs_of_pos (four_pos : (0 : ℝ) < 4), div_lt_iff₀ four_pos] at h
      push_cast
      exact h.trans (by norm_num)
    rw [← Int.cast_abs, ← Int.cast_one, Int.cast_lt, Int.abs_lt_one_iff, sub_eq_zero] at hlt
    rw [hlt]
  · have hfar := ht named hnamed
    rw [Nat.cast_pow, Nat.cast_ofNat] at hfar
    exact absurd h (not_lt.mpr hfar)

/-- The involution of which a gate type takes powers. Basis states are numbered with the first qubit
most significant. -/
def involution? : String → Option (Σ n, Involution n)
  | "XPowGate" => some ⟨1, .x⟩
  | "YPowGate" => some ⟨1, .y⟩
  | "ZPowGate" => some ⟨1, .z⟩
  | "HPowGate" => some ⟨1, .h⟩
  | "CZPowGate" => some ⟨2, .negating 2 3⟩
  | "CXPowGate" | "CNotPowGate" => some ⟨2, .exchanging 2 2 3⟩
  | "SwapPowGate" => some ⟨2, .exchanging 2 1 2⟩
  | "CCXPowGate" | "CCNotPowGate" => some ⟨3, .exchanging 3 6 7⟩
  | "XXPowGate" => some ⟨2, Involution.x.onBoth⟩
  | "YYPowGate" => some ⟨2, Involution.y.onBoth⟩
  | "ZZPowGate" => some ⟨2, Involution.z.onBoth⟩
  | _ => none

theorem isPowerType_of_involution {type : String} {G : Σ n, Involution n}
    (h : involution? type = some G) : IsPowerType type := by
  unfold involution? at h
  split at h
  all_goals cases h
  all_goals exact ⟨rfl, by decide⟩

/-- The parameters of a tag have values for which its matrix is a power, up to a phase. -/
def IsReadAsPower {n : ℕ} (G : Involution n) (t : ℝ) (tag : Tag) (params : List (Param ℝ)) : Prop :=
  ∃ values m, Gate.values? params = some values ∧ tag.matrix? values = some m ∧ G.IsPower t m

variable {n : ℕ} {G : Involution n} {g : GateObject ℝ} {exponent : Param ℝ} {t : ℝ} {tag : Tag}
  {params : List (Param ℝ)}

theorem eq_of_taken (ht : exponent.value? = some t) (hplain : IsPlainExponent t) {named : ℝ}
    (hnamed : named ∈ namedExponents)
    (h : ∃ e, exponent.value? = some e ∧ IsTakenFor e named) : t = named := by
  obtain ⟨e, he, hnear⟩ := h
  obtain rfl := Option.some.inj (ht.symm.trans he)
  exact hplain.eq_of_isTakenFor hnamed hnear

theorem eq_one_or_of_taken (ht : exponent.value? = some t) (hplain : IsPlainExponent t)
    (h : (∃ e, exponent.value? = some e ∧ IsTakenFor e 1) ∨
      ∃ e, exponent.value? = some e ∧ IsTakenFor e (-1)) : t = 1 ∨ t = -1 :=
  h.imp (eq_of_taken ht hplain (by simp [namedExponents]))
    (eq_of_taken ht hplain (by simp [namedExponents]))

variable [Numeral ℝ]

/-- A gate type of which only the involution itself is read. -/
theorem isReadAsPower_of_fixed (ht : exponent.value? = some t) (hplain : IsPlainExponent t)
    (named : Tag) {m : Operator ℝ} (hm : named.matrix? [] = some m) (hd : m.dim = 2 ^ n)
    (hmatrix : m.toMatrix n = G.matrix)
    (h : (if (∃ e, exponent.value? = some e ∧ IsTakenFor e 1) ∨
      ∃ e, exponent.value? = some e ∧ IsTakenFor e (-1) then .ok (named, [])
      else g.unsupported) = .ok (tag, params)) : IsReadAsPower G t tag params := by
  unfold GateObject.unsupported at h
  split_ifs at h with hone
  cases h
  exact ⟨[], m, rfl, hm, .of_self hd hmatrix (eq_one_or_of_taken ht hplain hone)⟩

/-- A gate type with a gate for every angle, of which some phases have a name. -/
theorem isReadAsPower_of_halfTurns (ht : exponent.value? = some t) (hplain : IsPlainExponent t)
    (base : Tag) {shift : ℝ} (hbase : halfTurns? base = some (g.type, shift)) {m : Operator ℝ}
    (hm : base.matrix? [Real.pi * t] = some m) (hpower : G.IsPower t m)
    (h : g.ofPower exponent = .ok (tag, params)) : IsReadAsPower G t tag params := by
  obtain ⟨result, hresult, hcases⟩ := exists_ofPower hbase rfl exponent
  obtain rfl := Except.ok.inj (h.symm.trans hresult)
  rcases hcases with ⟨p, hp, htaken, hnamed⟩ | hangle
  · obtain ⟨rfl, rfl⟩ := Prod.mk.inj hnamed
    have hmem : p.2 ∈ namedExponents := by
      cases base with
      | phase | cphase =>
        simp only [namedPhases, List.mem_cons, List.not_mem_nil, or_false] at hp
        rcases hp with rfl | rfl | rfl | rfl | rfl | rfl <;>
          norm_num [namedExponents, half_real]
      | _ => cases hp
    refine ⟨[], m, rfl, (matrix_of_named hp).trans ?_, hpower⟩
    rw [← eq_of_taken ht hplain hmem htaken, hm]
  · obtain ⟨rfl, rfl⟩ := Prod.mk.inj hangle
    exact ⟨_, m, values?_angle ht, hm, hpower⟩

theorem isReadAsPower_x (ht : exponent.value? = some t) (hplain : IsPlainExponent t)
    (htype : g.type = "XPowGate") (h : g.ofPower exponent = .ok (tag, params)) :
    IsReadAsPower .x t tag params := by
  have hhalf : half ∈ namedExponents ∧ -half ∈ namedExponents := by
    simp [namedExponents, half_real]
  unfold GateObject.ofPower at h
  simp only [Bool.or_eq_true, any_value?_iff, htype] at h
  split_ifs at h with hone hplus hminus
  all_goals cases h
  · exact ⟨[], _, rfl, rfl,
      .of_self rfl Tag.exactMatrix_x_eq (eq_one_or_of_taken ht hplain hone)⟩
  · rw [eq_of_taken ht hplain hhalf.1 hplus, half_real]
    exact ⟨[], _, rfl, rfl, .of_eq rfl Tag.exactMatrix_sx_eq⟩
  · rw [eq_of_taken ht hplain hhalf.2 hminus, half_real]
    exact ⟨[], _, rfl, rfl, .of_eq rfl Tag.exactMatrix_sxdg_eq⟩
  · exact ⟨_, _, values?_angle ht, rfl, .of_turn rfl (Tag.exactMatrix_rx_eq _)⟩

theorem isReadAsPower_y (ht : exponent.value? = some t) (hplain : IsPlainExponent t)
    (htype : g.type = "YPowGate") (h : g.ofPower exponent = .ok (tag, params)) :
    IsReadAsPower .y t tag params := by
  unfold GateObject.ofPower at h
  simp only [Bool.or_eq_true, any_value?_iff, htype] at h
  split_ifs at h with hone
  all_goals cases h
  · exact ⟨[], _, rfl, rfl, .of_self rfl Tag.exactMatrix_y (eq_one_or_of_taken ht hplain hone)⟩
  · exact ⟨_, _, values?_angle ht, rfl, .of_turn rfl (Tag.exactMatrix_ry_eq _)⟩

/-- Whatever a power of a gate type is read as, up to a phase it is that power. -/
theorem isReadAsPower_of_ofPower (hG : involution? g.type = some ⟨n, G⟩)
    (ht : exponent.value? = some t) (hplain : IsPlainExponent t)
    (h : g.ofPower exponent = .ok (tag, params)) : IsReadAsPower G t tag params := by
  have hpower := h
  unfold GateObject.ofPower at h
  simp only [Bool.or_eq_true, any_value?_iff] at h
  unfold involution? at hG
  split at hG
  next htype =>
    cases hG
    exact isReadAsPower_x ht hplain htype hpower
  next htype =>
    cases hG
    exact isReadAsPower_y ht hplain htype hpower
  next htype =>
    cases hG
    exact isReadAsPower_of_halfTurns ht hplain .phase (by rw [htype]; rfl) rfl
      (.of_eq rfl (Tag.exactMatrix_phase_eq t)) hpower
  next htype =>
    cases hG
    simp only [htype] at h
    exact isReadAsPower_of_fixed ht hplain .h rfl rfl Tag.exactMatrix_h_eq h
  next htype =>
    cases hG
    exact isReadAsPower_of_halfTurns ht hplain .cphase (by rw [htype]; rfl) rfl
      (.of_eq rfl (Tag.exactMatrix_cphase_eq t)) hpower
  case h_6 htype | h_7 htype =>
    cases hG
    simp only [htype] at h
    exact isReadAsPower_of_fixed ht hplain .cx rfl rfl Tag.exactMatrix_cx_eq h
  next htype =>
    cases hG
    simp only [htype] at h
    exact isReadAsPower_of_fixed ht hplain .swap rfl rfl Tag.exactMatrix_swap_eq h
  case h_9 htype | h_10 htype =>
    cases hG
    simp only [htype] at h
    exact isReadAsPower_of_fixed ht hplain .ccx rfl rfl Tag.exactMatrix_ccx_eq h
  next htype =>
    cases hG
    exact isReadAsPower_of_halfTurns ht hplain .rxx (by rw [htype]; rfl) rfl
      (.of_turn rfl (Tag.exactMatrix_rxx_eq _)) hpower
  next htype =>
    cases hG
    exact isReadAsPower_of_halfTurns ht hplain .ryy (by rw [htype]; rfl) rfl
      (.of_turn rfl (Tag.exactMatrix_ryy_eq _)) hpower
  next htype =>
    cases hG
    exact isReadAsPower_of_halfTurns ht hplain .rzz (by rw [htype]; rfl) rfl
      (.of_turn rfl (Tag.exactMatrix_rzz_eq _)) hpower
  next => cases hG

/-- The exponent of a gate object is a number, in whatever form it is written. -/
def GateObject.HasExponent (g : GateObject ℝ) (t : ℝ) : Prop :=
  (g.exponent.getD (.number 1)).Reads fun p => p.value? = some t

/-- An operation that takes a power is read as one gate on its qubits, which is that power up to a
phase. -/
def Operation.TakesPower (o : Operation ℝ) (is : List (Instruction ℝ)) : Prop :=
  ∀ n (G : Involution n) t, involution? o.gate.type = some ⟨n, G⟩ → o.gate.HasExponent t →
    IsPlainExponent t →
    ∃ gate m, is = [⟨gate, o.qubits.map (·.x), []⟩] ∧ gate.matrix = some m ∧ G.IsPower t m

theorem Operation.exists_power_of_read {o : Operation ℝ} {c c' : Circuit ℝ} {keys keys' : KeyBits}
    (h : o.read (c, keys) = .ok (c', keys')) : ∃ is, o.TakesPower is ∧ c.Grows is c' := by
  cases hinvolution : involution? o.gate.type with
  | none =>
    obtain ⟨is, hgrows⟩ := extends_of_read h
    refine ⟨is, fun n G t hG => ?_, hgrows⟩
    rw [hinvolution] at hG
    cases hG
  | some _ =>
    have htype := isPowerType_of_involution hinvolution
    rw [read_eq_apply fun hmem => htype.2 (List.mem_cons_of_mem _ hmem)] at h
    obtain ⟨c₁, tag, params, gate, hclassify, hnew, hgrows⟩ := exists_gate_of_apply h
    refine ⟨_, fun n G t hG hexponent hplain => ?_, hgrows⟩
    obtain ⟨exponent, hread, hpower⟩ := exists_exponent_of_classify htype hclassify
    obtain ⟨registry, p, hp, ht⟩ := hexponent c.registry
    rw [readExpression, hp] at hread
    cases hread
    obtain ⟨values, m, hvalues, hm, hmatrix⟩ := isReadAsPower_of_ofPower hG ht hplain hpower
    have hgate : gate.HasValues values := .of_new hnew hvalues
    refine ⟨gate, m, rfl, ?_, hmatrix⟩
    rw [hgate.matrix, Gate.tag_of_new hnew, hm]

/-- Wherever a document takes a power of a gate type at a plain exponent, the circuit that is read
has one gate, whose matrix is that power of the involution up to a phase. -/
theorem decode_takes_powers {d : Document ℝ} {c : Circuit ℝ} (h : decode d = .ok c) :
    ∃ blocks, List.Forall₂ Operation.TakesPower d.operations blocks ∧
      c.instructions = blocks.flatten := by
  obtain ⟨width, keys, keys', hrun⟩ := exists_run_of_decode h
  obtain ⟨-, blocks, hblocks, hgrows⟩ := Circuit.foldlM_grows (I := fun _ _ => True) Prod.fst
    (fun done o rest s s' _ _ ho => ⟨trivial, Operation.exists_power_of_read ho⟩) trivial hrun
  exact ⟨blocks, hblocks, hgrows.instructions⟩

/-- A third of an exchange of both qubits with a shift, and a power without an exponent. -/
def thirdOfBoth : Document ℝ where
  moments := [
    { operations := [.on (.power "XXPowGate" (.number (1 / (3 : ℕ))) (-1)) [0, 1]] },
    { operations := [.on (.named "ZZPowGate") [1, 2]] }]

omit [Numeral ℝ] in
theorem decode_takes_powers_thirdOfBoth :
    ∃ c gate gate' m m', @decode ℝ _ Qasm.naturalNumeral thirdOfBoth = .ok c ∧
      c.instructions = [⟨gate, [0, 1], []⟩, ⟨gate', [1, 2], []⟩] ∧
      gate.matrix = some m ∧ Involution.x.onBoth.IsPower (1 / (3 : ℕ)) m ∧
      gate'.matrix = some m' ∧ Involution.z.onBoth.IsPower 1 m' := by
  let _ : Numeral ℝ := Qasm.naturalNumeral
  obtain ⟨c, h⟩ : ∃ c, decode thirdOfBoth = .ok c := ⟨_, rfl⟩
  obtain ⟨blocks, hblocks, hinstructions⟩ := decode_takes_powers h
  change List.Forall₂ _ [_, _] blocks at hblocks
  rcases hblocks with _ | ⟨hfirst, _ | ⟨hsecond, _ | _⟩⟩
  have hthird : IsPlainExponent (1 / (3 : ℕ)) := by
    right
    simp only [namedExponents, List.forall_mem_cons]
    norm_num [le_abs]
  obtain ⟨gate, m, rfl, hm, hpower⟩ := hfirst 2 _ _ rfl (.number rfl) hthird
  obtain ⟨gate', m', rfl, hm', hpower'⟩ := hsecond 2 _ _ rfl (.number rfl) (.inl List.mem_cons_self)
  exact ⟨c, gate, gate', m, m', h, hinstructions, hm, hpower, hm', hpower'⟩

end Cirq

end Interchange
end
