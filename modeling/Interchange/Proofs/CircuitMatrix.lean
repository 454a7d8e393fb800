import Mathlib.Analysis.Complex.Basic
import Interchange.Proofs.InPlaceProduct
import Interchange.Proofs.Outcome

noncomputable section
namespace Interchange

/-- The product of gates on listed qubits in time order, later ones further left. There is none
unless every gate has a matrix. -/
def timeProduct (n : ℕ) : List (Gate ℝ × List ℕ) → Option (QubitMatrix n)
  | [] => some 1
  | (g, qs) :: rest => do
    let m ← g.matrix
    let p ← timeProduct n rest
    return p * embed n qs (m.toMatrix qs.length)

theorem timeProduct_cons {n : ℕ} {g : Gate ℝ} {qs : List ℕ} {rest : List (Gate ℝ × List ℕ)}
    {p : QubitMatrix n} :
    timeProduct n ((g, qs) :: rest) = some p ↔
      ∃ m r, g.matrix = some m ∧ timeProduct n rest = some r ∧
        p = r * embed n qs (m.toMatrix qs.length) := by
  simp only [timeProduct, Option.bind_eq_bind, Option.bind_eq_some_iff, Option.pure_def,
    Option.some.injEq]
  constructor
  · rintro ⟨m, hm, r, hr, rfl⟩
    exact ⟨m, r, hm, hr, rfl⟩
  · rintro ⟨m, r, hm, hr, rfl⟩
    exact ⟨m, hm, r, hr, rfl⟩

theorem timeProduct_append {n : ℕ} {xs ys : List (Gate ℝ × List ℕ)} {p q : QubitMatrix n}
    (hp : timeProduct n xs = some p) (hq : timeProduct n ys = some q) :
    timeProduct n (xs ++ ys) = some (q * p) := by
  induction xs generalizing p with
  | nil =>
    obtain rfl : 1 = p := Option.some.inj hp
    rw [List.nil_append, hq, mul_one]
  | cons x xs ih =>
    obtain ⟨m, r, hm, hr, rfl⟩ := timeProduct_cons.mp hp
    exact timeProduct_cons.mpr ⟨m, q * r, hm, ih hr, (mul_assoc q r _).symm⟩

/-- Gates on positions of a list of qubits do there what they do on a register of their own. -/
theorem timeProduct_compose {n k : ℕ} {qs : List ℕ} (h : QubitList n k qs)
    {xs : List (Gate ℝ × List ℕ)} (hops : ∀ x ∈ xs, QubitList k x.2.length x.2)
    {p : QubitMatrix k} (hp : timeProduct k xs = some p) :
    timeProduct n (xs.map fun x => (x.1, compose qs x.2)) = some (embed n qs p) := by
  induction xs generalizing p with
  | nil =>
    obtain rfl : 1 = p := Option.some.inj hp
    exact congrArg some (embed_one h).symm
  | cons x xs ih =>
    obtain ⟨m, r, hm, hr, rfl⟩ := timeProduct_cons.mp hp
    obtain ⟨hx, hops⟩ := List.forall_mem_cons.mp hops
    refine timeProduct_cons.mpr ⟨m, _, hm, ih hops hr, ?_⟩
    have hcomp : (compose qs x.2).length = x.2.length := List.length_map _
    rw [embed_mul h, embed_embed h hx, hcomp]

theorem exists_matrix_of_timeProduct {n : ℕ} {xs : List (Gate ℝ × List ℕ)} {p : QubitMatrix n}
    (h : timeProduct n xs = some p) : ∀ x ∈ xs, ∃ m, x.1.matrix = some m := by
  induction xs generalizing p with
  | nil => exact fun _ hx => absurd hx List.not_mem_nil
  | cons x xs ih =>
    obtain ⟨m, r, hm, hr, -⟩ := timeProduct_cons.mp h
    exact List.forall_mem_cons.mpr ⟨⟨m, hm⟩, ih hr⟩

def actions (is : List (Instruction ℝ)) : List (Gate ℝ × List ℕ) :=
  (is.filter fun i => !i.isMeasure).map fun i => (i.gate, i.qubits)

theorem actions_append (is js : List (Instruction ℝ)) :
    actions (is ++ js) = actions is ++ actions js := by
  rw [actions, List.filter_append, List.map_append]
  rfl

theorem actions_measure {i : Instruction ℝ} (is : List (Instruction ℝ)) (h : i.isMeasure = true) :
    actions (i :: is) = actions is := by simp [actions, h]

theorem actions_gate {i : Instruction ℝ} (is : List (Instruction ℝ)) (h : i.isMeasure = false) :
    actions (i :: is) = (i.gate, i.qubits) :: actions is := by simp [actions, h]

theorem Instruction.WellFormed.qubitList {n : ℕ} {i : Instruction ℝ} (h : i.WellFormed n) :
    QubitList n i.qubits.length i.qubits := ⟨rfl, h.nodup, h.lt⟩

namespace Operator

theorem ext_toMatrix {n : ℕ} {a b : Operator ℝ} (ha : a.dim = 2 ^ n) (hb : b.dim = 2 ^ n)
    (h : a.toMatrix n = b.toMatrix n) : a = b := by
  refine ext_get (ha.trans hb.symm) fun i hi j hj => ?_
  rw [ha] at hi hj
  exact Amplitude.toComplex_injective (congrFun (congrFun h ⟨i, hi⟩) ⟨j, hj⟩)

theorem toMatrix_map {n : ℕ} {a : Operator ℝ} (ha : a.dim = 2 ^ n)
    (f : Amplitude ℝ → Amplitude ℝ) (i j : Fin (2 ^ n)) :
    (a.map f).toMatrix n i j = (f (a.get i j)).toComplex := by
  rw [toMatrix, map, get_ofFn _ _ (by rw [ha]; exact i.isLt) (by rw [ha]; exact j.isLt)]

theorem toMatrix_identity (n : ℕ) : (identity (2 ^ n) : Operator ℝ).toMatrix n = 1 := by
  funext i j
  rw [toMatrix, identity, get_ofFn _ _ i.isLt j.isLt, Matrix.one_apply]
  by_cases h : i = j
  · rw [if_pos (congrArg Fin.val h), if_pos h, Amplitude.toComplex_one]
  · rw [if_neg fun hv => h (Fin.ext hv), if_neg h, Amplitude.toComplex_zero]

end Operator

/-- Stepping through instructions multiplies on the left by their product in time order. -/
theorem foldlM_step {n : ℕ} {is : List (Instruction ℝ)} {p : QubitMatrix n}
    (hw : ∀ i ∈ is, i.WellFormed n) (hp : timeProduct n (actions is) = some p)
    (u : Operator ℝ) (hu : u.dim = 2 ^ n) :
    ∃ v, is.foldlM (Oracle.step n) u = .ok v ∧ v.dim = 2 ^ n ∧ v.toMatrix n = p * u.toMatrix n := by
  -- the state so far is generalised: it stands on the right of what the rest multiplies
  induction is generalizing p u with
  | nil =>
    obtain rfl : 1 = p := Option.some.inj hp
    exact ⟨u, rfl, hu, (one_mul _).symm⟩
  | cons i is ih =>
    have hw' := fun j hj => hw j (List.mem_cons_of_mem i hj)
    cases hi : i.isMeasure with
    | true =>
      rw [actions_measure is hi] at hp
      obtain ⟨v, hv, h⟩ := ih hw' hp u hu
      refine ⟨v, ?_, h⟩
      rw [List.foldlM_cons, Oracle.step, if_pos hi]
      exact hv
    | false =>
      rw [actions_gate is hi] at hp
      obtain ⟨m, r, hm, hr, rfl⟩ := timeProduct_cons.mp hp
      obtain ⟨v, hv, hd, he⟩ := ih hw' hr (m.applyGate n i.qubits u)
        ((Operator.dim_applyGate n i.qubits m u).trans hu)
      refine ⟨v, ?_, hd, ?_⟩
      · rw [List.foldlM_cons, Oracle.step, if_neg (by simp [hi]), Oracle.matrixOf, hm]
        exact hv
      · rw [he, toMatrix_applyGate (hw i List.mem_cons_self).qubitList m u hu, mul_assoc]

/-- The unitary of a circuit within the limit is the product of its gates in time order. -/
theorem unitaryOf_eq_timeProduct (o : Oracle ℝ) (c : Circuit ℝ) {p : QubitMatrix c.qubits}
    (hw : c.WellFormed) (hn : c.qubits ≤ min o.maxQubits maxDenseQubits)
    (hp : timeProduct c.qubits (actions c.instructions) = some p) :
    ∃ u, o.unitaryOf c = .ok u ∧ u.dim = 2 ^ c.qubits ∧ u.toMatrix c.qubits = p := by
  obtain ⟨u, hu, hd, he⟩ := foldlM_step hw hp (.identity (2 ^ c.qubits)) rfl
  refine ⟨u, ?_, hd, ?_⟩
  · rw [Oracle.unitaryOf, if_neg (Nat.not_lt.mpr hn)]
    exact hu
  · rw [he, Operator.toMatrix_identity, mul_one]

namespace Oracle

variable {n : ℕ} {u v : Operator ℝ} {i : Instruction ℝ}

theorem step_measure (h : i.isMeasure = true) : step n u i = .ok u := if_pos h

theorem step_gate (h : i.isMeasure = false) :
    step n u i = (matrixOf i).map fun m => m.applyGate n i.qubits u := by
  rw [step, if_neg (by simp [h])]
  cases matrixOf i <;> rfl

theorem matrixOf_eq_ok_iff {m : Operator ℝ} : matrixOf i = .ok m ↔ i.gate.matrix = some m := by
  unfold matrixOf
  cases i.gate.matrix with
  | some g => simp
  | none => cases i.gate.refs <;> simp

theorem exists_timeProduct_of_foldlM {is : List (Instruction ℝ)}
    (h : is.foldlM (step n) u = .ok v) : ∃ p, timeProduct n (actions is) = some p := by
  induction is generalizing u with
  | nil => exact ⟨1, rfl⟩
  | cons i is ih =>
    rw [List.foldlM_cons] at h
    obtain ⟨w, hstep, hrest⟩ := bind_eq_ok_iff.mp h
    obtain ⟨p, hp⟩ := ih hrest
    cases hi : i.isMeasure with
    | true => exact ⟨p, by rw [actions_measure is hi, hp]⟩
    | false =>
      rw [step_gate hi] at hstep
      cases hm : matrixOf i with
      | ok m =>
        rw [actions_gate is hi]
        exact ⟨_, timeProduct_cons.mpr ⟨m, p, matrixOf_eq_ok_iff.mp hm, hp, rfl⟩⟩
      | error e =>
        rw [hm] at hstep
        cases hstep

/-- A circuit has a unitary if it is within the limit and its gates multiply, and then the unitary
is their product. -/
theorem unitaryOf_eq_ok_iff {o : Oracle ℝ} {c : Circuit ℝ} (hw : c.WellFormed) :
    o.unitaryOf c = .ok u ↔
      c.qubits ≤ min o.maxQubits maxDenseQubits ∧ u.dim = 2 ^ c.qubits ∧
        timeProduct c.qubits (actions c.instructions) = some (u.toMatrix c.qubits) := by
  constructor
  · intro h
    have hn : c.qubits ≤ min o.maxQubits maxDenseQubits := by
      by_contra hn
      rw [unitaryOf, if_pos (Nat.not_le.mp hn)] at h
      cases h
    have hfold := h
    rw [unitaryOf, if_neg (Nat.not_lt.mpr hn)] at hfold
    obtain ⟨p, hp⟩ := exists_timeProduct_of_foldlM hfold
    obtain ⟨v, hv, hd, rfl⟩ := unitaryOf_eq_timeProduct o c hw hn hp
    obtain rfl : u = v := Except.ok.inj (h.symm.trans hv)
    exact ⟨hn, hd, hp⟩
  · rintro ⟨hn, hd, hp⟩
    obtain ⟨v, hv, hvd, he⟩ := unitaryOf_eq_timeProduct o c hw hn hp
    rw [hv, Operator.ext_toMatrix hvd hd he]

end Oracle

end Interchange
end
