import Mathlib.Data.Nat.Digits.Defs
import Mathlib.LinearAlgebra.Matrix.Notation
import Mathlib.Tactic.FinCases
import Interchange.Proofs.CircuitMatrix

noncomputable section
namespace Interchange
open Matrix Scalar

def unitPhase (x : ℝ) : ℂ := Complex.exp (x * Complex.I)

theorem unitPhase_add (x y : ℝ) : unitPhase (x + y) = unitPhase x * unitPhase y := by
  rw [unitPhase, unitPhase, unitPhase, ← Complex.exp_add, Complex.ofReal_add, add_mul]

@[simp] theorem unitPhase_zero : unitPhase 0 = 1 := by simp [unitPhase]

theorem unitPhase_neg_mul (t : ℝ) : unitPhase (-t) * unitPhase t = 1 := by
  rw [← unitPhase_add, neg_add_cancel, unitPhase_zero]

theorem unitPhase_pi : unitPhase Real.pi = -1 := Complex.exp_pi_mul_I

theorem unitPhase_neg_pi : unitPhase (-Real.pi) = -1 := by
  have h := unitPhase_neg_mul Real.pi
  rwa [unitPhase_pi, mul_neg_one, neg_eq_iff_eq_neg] at h

@[simp] theorem norm_unitPhase (x : ℝ) : ‖unitPhase x‖ = 1 := Complex.norm_exp_ofReal_mul_I x

/-- The cosine and sine of half an angle, as a rotation by the angle has them. -/
def cosHalf (t : ℝ) : ℂ := (Real.cos (t / 2) : ℝ)

def sinHalf (t : ℝ) : ℂ := (Real.sin (t / 2) : ℝ)

theorem unitPhase_half (t : ℝ) : unitPhase (t / 2) = cosHalf t + sinHalf t * Complex.I := by
  rw [unitPhase, Complex.exp_mul_I, cosHalf, sinHalf, Complex.ofReal_cos, Complex.ofReal_sin]

@[simp] theorem cosHalf_neg (t : ℝ) : cosHalf (-t) = cosHalf t := by
  rw [cosHalf, neg_div, Real.cos_neg, cosHalf]

@[simp] theorem sinHalf_neg (t : ℝ) : sinHalf (-t) = -sinHalf t := by
  rw [sinHalf, neg_div, Real.sin_neg, Complex.ofReal_neg, sinHalf]

theorem unitPhase_neg_half (t : ℝ) :
    unitPhase (-(t / 2)) = cosHalf t - sinHalf t * Complex.I := by
  rw [← neg_div, unitPhase_half, cosHalf_neg, sinHalf_neg, neg_mul, sub_eq_add_neg]

theorem cosHalf_sq_add_sinHalf_sq (t : ℝ) : cosHalf t ^ 2 + sinHalf t ^ 2 = 1 := by
  rw [cosHalf, sinHalf, ← Complex.ofReal_pow, ← Complex.ofReal_pow, ← Complex.ofReal_add,
    Real.cos_sq_add_sin_sq, Complex.ofReal_one]

theorem cosHalf_eq (t : ℝ) : cosHalf t = cosHalf (t / 2) ^ 2 - sinHalf (t / 2) ^ 2 := by
  have h : Real.cos (t / 2) = Real.cos (t / 2 / 2) ^ 2 - Real.sin (t / 2 / 2) ^ 2 := by
    rw [← Real.cos_two_mul']
    congr 1
    ring
  rw [cosHalf, h, Complex.ofReal_sub, Complex.ofReal_pow, Complex.ofReal_pow, cosHalf, sinHalf]

theorem sinHalf_eq (t : ℝ) : sinHalf t = 2 * sinHalf (t / 2) * cosHalf (t / 2) := by
  have h : Real.sin (t / 2) = 2 * Real.sin (t / 2 / 2) * Real.cos (t / 2 / 2) := by
    rw [← Real.sin_two_mul]
    congr 1
    ring
  rw [sinHalf, h, Complex.ofReal_mul, Complex.ofReal_mul, Complex.ofReal_ofNat, sinHalf, cosHalf]

theorem cosHalf_add (s t : ℝ) :
    cosHalf (s + t) = cosHalf s * cosHalf t - sinHalf s * sinHalf t := by
  rw [cosHalf, add_div, Real.cos_add, Complex.ofReal_sub, Complex.ofReal_mul, Complex.ofReal_mul,
    cosHalf, cosHalf, sinHalf, sinHalf]

theorem sinHalf_add (s t : ℝ) :
    sinHalf (s + t) = sinHalf s * cosHalf t + cosHalf s * sinHalf t := by
  rw [sinHalf, add_div, Real.sin_add, Complex.ofReal_add, Complex.ofReal_mul, Complex.ofReal_mul,
    cosHalf, cosHalf, sinHalf, sinHalf]

def rootHalf : ℂ := ((invSqrtTwo : ℝ) : ℂ)

theorem half_real : (half : ℝ) = 1 / 2 := by rw [half, two_real]

theorem rootHalf_sq : rootHalf ^ 2 = 1 / 2 := by
  have h : (invSqrtTwo : ℝ) * invSqrtTwo = half := by
    refine Real.mul_self_sqrt ?_
    rw [half_real]
    norm_num
  rw [rootHalf, sq, ← Complex.ofReal_mul, h, half_real]
  norm_num

theorem halfPi_div_two : (halfPi : ℝ) / 2 = Real.pi / 4 := by
  rw [halfPi_real]
  ring

theorem cosHalf_halfPi : cosHalf (halfPi : ℝ) = rootHalf := by
  have h : (invSqrtTwo : ℝ) = Real.sqrt (1 / 2) := congrArg Real.sqrt half_real
  rw [cosHalf, halfPi_div_two, rootHalf, h, Real.cos_pi_div_four, Real.sqrt_div zero_le_one,
    Real.sqrt_one]
  congr 1
  exact (div_eq_div_iff two_ne_zero (by positivity)).mpr (by simp)

theorem sinHalf_halfPi : sinHalf (halfPi : ℝ) = rootHalf := by
  rw [← cosHalf_halfPi, cosHalf, sinHalf, halfPi_div_two, Real.cos_pi_div_four,
    Real.sin_pi_div_four]

theorem unitPhase_quarterPi : unitPhase (Real.pi / 4) = rootHalf * (1 + Complex.I) := by
  rw [← halfPi_div_two, unitPhase_half, cosHalf_halfPi, sinHalf_halfPi, mul_add, mul_one]

theorem unitPhase_neg_quarterPi : unitPhase (-(Real.pi / 4)) = rootHalf * (1 - Complex.I) := by
  rw [← halfPi_div_two, unitPhase_neg_half, cosHalf_halfPi, sinHalf_halfPi, mul_sub, mul_one]

namespace Operator

theorem toMatrix_ofFn {d n : ℕ} (hd : d = 2 ^ n) (f : ℕ → ℕ → Amplitude ℝ) :
    (ofFn d f).toMatrix n = fun i j : Fin (2 ^ n) => (f i j).toComplex := by
  subst hd
  funext i j
  rw [toMatrix, get_ofFn _ _ i.isLt j.isLt]

theorem toMatrix_twoByTwo (a b c d : Amplitude ℝ) :
    (twoByTwo a b c d).toMatrix 1 =
      !![a.toComplex, b.toComplex; c.toComplex, d.toComplex] := by
  rw [twoByTwo, toMatrix_ofFn (show 2 = 2 ^ 1 from rfl)]
  funext i j
  fin_cases i <;> fin_cases j <;> rfl

theorem toMatrix_diagonal (a b : Amplitude ℝ) :
    (diagonal [a, b]).toMatrix 1 = !![a.toComplex, 0; 0, b.toComplex] := by
  rw [diagonal, toMatrix_ofFn (show [a, b].length = 2 ^ 1 from rfl)]
  funext i j
  fin_cases i <;> fin_cases j <;> rfl

end Operator

/-- The matrix of a tag for values of its parameters, on `k` qubits. -/
def Tag.exactMatrix (k : ℕ) (tag : Tag) (values : List ℝ) : QubitMatrix k :=
  ((tag.matrix? values).getD (.identity 0)).toMatrix k

namespace Tag
open Amplitude

theorem exactMatrix_h : exactMatrix 1 h [] = !![rootHalf, rootHalf; rootHalf, -rootHalf] := by
  refine (Operator.toMatrix_twoByTwo _ _ _ _).trans ?_
  simp [rootHalf]

theorem exactMatrix_x : exactMatrix 1 x [] = !![0, 1; 1, 0] :=
  Operator.toMatrix_twoByTwo _ _ _ _

theorem exactMatrix_y : exactMatrix 1 y [] = !![0, -Complex.I; Complex.I, 0] :=
  Operator.toMatrix_twoByTwo _ _ _ _

theorem exactMatrix_s : exactMatrix 1 s [] = !![1, 0; 0, Complex.I] :=
  Operator.toMatrix_diagonal _ _

theorem exactMatrix_sdg : exactMatrix 1 sdg [] = !![1, 0; 0, -Complex.I] :=
  Operator.toMatrix_diagonal _ _

theorem toComplex_cis (t : ℝ) : (cis t).toComplex = unitPhase t := by
  rw [cis, toComplex_polar, Complex.ofReal_one, one_mul, unitPhase]

theorem exactMatrix_phase (t : ℝ) : exactMatrix 1 .phase [t] = !![1, 0; 0, unitPhase t] := by
  refine (Operator.toMatrix_diagonal _ _).trans ?_
  rw [toComplex_one, toComplex_cis]

theorem exactMatrix_t : exactMatrix 1 t [] = !![1, 0; 0, unitPhase (Real.pi / 4)] := by
  refine (Operator.toMatrix_diagonal _ _).trans ?_
  rw [toComplex_one, toComplex_cis]
  rfl

theorem exactMatrix_tdg : exactMatrix 1 tdg [] = !![1, 0; 0, unitPhase (-(Real.pi / 4))] := by
  refine (Operator.toMatrix_diagonal _ _).trans ?_
  rw [toComplex_one, toComplex_cis]
  rfl

theorem exactMatrix_rx (t : ℝ) :
    exactMatrix 1 rx [t] =
      !![cosHalf t, -(sinHalf t * Complex.I); -(sinHalf t * Complex.I), cosHalf t] := by
  refine (Operator.toMatrix_twoByTwo _ _ _ _).trans ?_
  simp [two_real, Scalar.sin, Scalar.cos, cosHalf, sinHalf]

theorem exactMatrix_ry (t : ℝ) :
    exactMatrix 1 ry [t] = !![cosHalf t, -sinHalf t; sinHalf t, cosHalf t] := by
  refine (Operator.toMatrix_twoByTwo _ _ _ _).trans ?_
  simp [two_real, Scalar.sin, Scalar.cos, cosHalf, sinHalf]

theorem exactMatrix_rz (t : ℝ) :
    exactMatrix 1 rz [t] =
      !![unitPhase (-(t / 2)), 0; 0, unitPhase (t / 2)] := by
  refine (Operator.toMatrix_diagonal _ _).trans ?_
  rw [toComplex_cis, toComplex_cis, two_real, neg_div]

end Tag

namespace Operator

/-- A single control: the identity on the upper half, the base on the lower one. -/
theorem toMatrix_controlled {base : Operator ℝ} (hd : base.dim = 2) :
    (base.controlled 1).toMatrix 2 =
      !![1, 0, 0, 0; 0, 1, 0, 0; 0, 0, base.toMatrix 1 0 0, base.toMatrix 1 0 1;
        0, 0, base.toMatrix 1 1 0, base.toMatrix 1 1 1] := by
  rw [controlled, toMatrix_ofFn (show base.dim * Nat.pow 2 1 = 2 ^ 2 by rw [hd]; rfl), hd]
  funext i j
  fin_cases i <;> fin_cases j <;> rfl

end Operator

section

variable {n k : ℕ} {qs : List ℕ}

/-- An embedded matrix acts on each amplitude through the states that differ at its qubits. -/
theorem embed_mulVec (h : QubitList n k qs) (A : QubitMatrix k) (v : Fin (2 ^ n) → ℂ)
    (i : Fin (2 ^ n)) :
    (embed n qs A *ᵥ v) i = ∑ w, A (restrict n k qs i) w * v (replace h w i) := by
  have hs := sum_agreeOff h i fun l => A (restrict n k qs i) (restrict n k qs l) * v l
  simp only [restrict_replace] at hs
  rw [Matrix.mulVec, dotProduct, ← hs]
  apply Finset.sum_congr rfl
  intro l _
  simp only [embed, ite_mul, zero_mul]

theorem embed_one_mulVec {q : ℕ} (h : QubitList n 1 [q]) (A : QubitMatrix 1)
    (v : Fin (2 ^ n) → ℂ) (i : Fin (2 ^ n)) :
    (embed n [q] A *ᵥ v) i =
      A (restrict n 1 [q] i) 0 * v (replace h 0 i) +
        A (restrict n 1 [q] i) 1 * v (replace h 1 i) := by
  rw [embed_mulVec h]
  exact Fin.sum_univ_two _

theorem Tag.exactMatrix_cx :
    exactMatrix 2 cx [] = !![1, 0, 0, 0; 0, 1, 0, 0; 0, 0, 0, 1; 0, 0, 1, 0] := by
  refine (Operator.toMatrix_controlled rfl).trans ?_
  have hx : (Operator.twoByTwo 0 1 1 0 : Operator ℝ).toMatrix 1 = !![0, 1; 1, 0] :=
    Operator.toMatrix_twoByTwo _ _ _ _
  rw [hx]
  rfl

/-- The controlled NOT moves amplitudes: it reads the state with the target flipped where the
control is set. -/
theorem embed_cx_mulVec {c t : ℕ} (h : QubitList n 2 [c, t]) (v : Fin (2 ^ n) → ℂ)
    (i : Fin (2 ^ n)) :
    (embed n [c, t] (Tag.exactMatrix 2 .cx []) *ᵥ v) i =
      v (replace h ((![0, 1, 3, 2] : Fin 4 → Fin 4) (restrict n 2 [c, t] i)) i) := by
  rw [embed_mulVec h, Tag.exactMatrix_cx]
  refine (Fin.sum_univ_four _).trans ?_
  generalize restrict n 2 [c, t] i = r
  fin_cases r <;> simp

end

/-- The number that the bits of `i` at the listed qubits spell, the first most significant. Qubit 0
of `n` is the most significant bit of `i`. -/
def spelledBits (n : ℕ) (qs : List ℕ) (i : ℕ) : ℕ :=
  Nat.ofDigits 2 (qs.map fun q => (i.testBit (n - 1 - q)).toNat).reverse

theorem restrictBits_eq_spelledBits (n : ℕ) (qs : List ℕ) (i : ℕ) :
    restrictBits n qs i = spelledBits n qs i := by
  rw [spelledBits, Nat.ofDigits_eq_foldr, List.foldr_reverse, List.foldl_map, restrictBits]
  congr 1
  funext acc q
  rw [qubitBit_eq_testBit]
  exact Nat.add_comm _ _

/-- The action of a `2 ^ k` by `2 ^ k` matrix on `k` listed qubits of `n`, entry by entry: what the
matrix has at the bits spelled on these qubits where all other bits of row and column agree, and
zero elsewhere. -/
def actionOn (n : ℕ) (qs : List ℕ) (g : Operator ℝ) : QubitMatrix n := fun i j =>
  if ∀ q < n, q ∉ qs → (i : ℕ).testBit (n - 1 - q) = (j : ℕ).testBit (n - 1 - q) then
    (g.get (spelledBits n qs i) (spelledBits n qs j)).toComplex
  else 0

theorem agreeOff_iff_testBit {n : ℕ} {qs : List ℕ} {i j : ℕ} :
    AgreeOff n qs i j ↔
      ∀ q < n, q ∉ qs → i.testBit (n - 1 - q) = j.testBit (n - 1 - q) := by
  have toNat_eq_iff : ∀ a b : Bool, a.toNat = b.toNat ↔ a = b := by decide
  unfold AgreeOff
  simp only [qubitBit_eq_testBit, toNat_eq_iff]

theorem embed_eq_actionOn {n : ℕ} {qs : List ℕ} (h : QubitList n qs.length qs) (g : Operator ℝ) :
    embed n qs (g.toMatrix qs.length) = actionOn n qs g := by
  funext i j
  simp only [embed, actionOn, agreeOff_iff_testBit, Operator.toMatrix, restrict_val h,
    restrictBits_eq_spelledBits]

/-- The action of an instruction on the register. -/
def Instruction.action (n : ℕ) (i : Instruction ℝ) : QubitMatrix n :=
  actionOn n i.qubits (i.gate.matrix.getD (.identity 0))

theorem timeProduct_actions {n : ℕ} {is : List (Instruction ℝ)}
    (hw : ∀ i ∈ is, i.WellFormed n)
    (hm : ∀ i ∈ is, i.isMeasure = false → i.gate.matrix.isSome = true) :
    timeProduct n (actions is) =
      some ((is.filter fun i => !i.isMeasure).map (Instruction.action n)).reverse.prod := by
  induction is with
  | nil => rfl
  | cons i is ih =>
    have hrest := ih (fun j hj => hw j (List.mem_cons_of_mem i hj))
      (fun j hj => hm j (List.mem_cons_of_mem i hj))
    cases hi : i.isMeasure with
    | true => rw [actions_measure is hi, hrest, List.filter_cons_of_neg (by simp [hi])]
    | false =>
      obtain ⟨m, hmatrix⟩ := Option.isSome_iff_exists.mp (hm i List.mem_cons_self hi)
      have haction : i.action n = embed n i.qubits (m.toMatrix i.qubits.length) := by
        rw [Instruction.action, hmatrix, Option.getD_some,
          embed_eq_actionOn (hw i List.mem_cons_self).qubitList]
      rw [actions_gate is hi, List.filter_cons_of_pos (by simp [hi]), List.map_cons,
        List.reverse_cons, List.prod_append, List.prod_singleton, haction]
      exact timeProduct_cons.mpr ⟨m, _, hmatrix, hrest, rfl⟩

/-- The unitary of a circuit is the product of the actions of its gates, later ones further left.
Measurements are no factors. -/
theorem unitaryOf_eq_prod_action (o : Oracle ℝ) (c : Circuit ℝ) (hw : c.WellFormed)
    (hn : c.qubits ≤ min o.maxQubits maxDenseQubits)
    (hm : ∀ i ∈ c.instructions, i.isMeasure = false → i.gate.matrix.isSome = true) :
    ∃ u, o.unitaryOf c = .ok u ∧ u.dim = 2 ^ c.qubits ∧
      u.toMatrix c.qubits =
        ((c.instructions.filter fun i => !i.isMeasure).map
          (Instruction.action c.qubits)).reverse.prod :=
  unitaryOf_eq_timeProduct o c hw hn (timeProduct_actions hw hm)

/-- A controlled NOT upwards over an idle qubit, a measurement in between, and a Hadamard gate. -/
def upwardThenSplit : Circuit ℝ where
  qubits := 3
  clbits := 1
  instructions :=
    [⟨⟨.cx, [], Tag.cx.matrix? []⟩, [2, 0], []⟩, .measure 2 0,
      ⟨⟨.h, [], Tag.h.matrix? []⟩, [1], []⟩]

theorem unitaryOf_upwardThenSplit :
    upwardThenSplit.WellFormed ∧
      ∃ u, (Oracle.new 12 0).unitaryOf upwardThenSplit = .ok u ∧ u.dim = 8 ∧
        u.toMatrix 3 =
          actionOn 3 [1] ((Tag.h.matrix? []).getD (.identity 0)) *
            actionOn 3 [2, 0] ((Tag.cx.matrix? []).getD (.identity 0)) := by
  have hw : upwardThenSplit.WellFormed := by
    unfold upwardThenSplit Circuit.WellFormed
    simp only [List.forall_mem_cons, List.not_mem_nil, false_imp_iff, implies_true, and_true]
    exact ⟨⟨rfl, by decide, by decide⟩, ⟨rfl, by decide, by decide⟩, rfl, by decide, by decide⟩
  obtain ⟨u, hu, hd, hp⟩ := unitaryOf_eq_prod_action (Oracle.new 12 0) upwardThenSplit hw
    (by decide)
    (by simp [upwardThenSplit, Instruction.measure, Instruction.isMeasure, Instruction.tag,
      Gate.measure, Tag.matrix?, Tag.base?, Tag.plainMatrix?, Tag.paramCount])
  refine ⟨hw, u, hu, hd, hp.trans ?_⟩
  change [_, _].prod = _
  rw [List.prod_cons, List.prod_singleton]
  rfl

end Interchange
end
