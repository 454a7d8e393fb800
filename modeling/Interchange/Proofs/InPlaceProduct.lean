import Interchange.Proofs.Embedding

namespace Interchange

theorem testBit_foldl_or {α : Type} (f : α → ℕ) (xs : List α) (a t : ℕ) :
    (xs.foldl (fun acc x => acc ||| f x) a).testBit t =
      (a.testBit t || xs.any fun x => (f x).testBit t) := by
  induction xs generalizing a with
  | nil => simp
  | cons x xs ih => rw [List.foldl_cons, ih, Nat.testBit_or, List.any_cons, Bool.or_assoc]

theorem foldl_or_lt {α : Type} {f : α → ℕ} {xs : List α} {a n : ℕ} (ha : a < 2 ^ n)
    (h : ∀ x ∈ xs, f x < 2 ^ n) : xs.foldl (fun acc x => acc ||| f x) a < 2 ^ n := by
  induction xs generalizing a with
  | nil => exact ha
  | cons x xs ih =>
    exact ih (Nat.or_lt_two_pow ha (h x List.mem_cons_self))
      fun y hy => h y (List.mem_cons_of_mem x hy)

namespace Operator

/-! ### Masks -/

theorem qubitMask_lt {n q : ℕ} (hq : q < n) : qubitMask n q < 2 ^ n := by
  rw [qubitMask, Nat.one_shiftLeft]
  exact Nat.pow_lt_pow_right (by decide) (by omega)

theorem testBit_qubitMask {n p q : ℕ} (hp : p < n) (hq : q < n) :
    (qubitMask n p).testBit (n - 1 - q) = decide (p = q) := by
  rw [qubitMask, Nat.one_shiftLeft, Nat.testBit_two_pow]
  exact decide_eq_decide.mpr (by omega)

section

variable {n k : ℕ} {qs : List ℕ}

/-- The joined mask has the bits of the listed qubits. -/
theorem testBit_foldl_qubitMask (hqs : ∀ q ∈ qs, q < n) {q : ℕ} (hq : q < n) :
    ((qs.map (qubitMask n)).foldl (· ||| ·) 0).testBit (n - 1 - q) = decide (q ∈ qs) := by
  have hor := testBit_foldl_or id (qs.map (qubitMask n)) 0 (n - 1 - q)
  simp only [id, Nat.zero_testBit, Bool.false_or, List.any_map, Function.comp_def] at hor
  rw [hor, Bool.eq_iff_iff, List.any_eq_true, decide_eq_true_iff]
  constructor
  · rintro ⟨p, hp, hbit⟩
    rw [testBit_qubitMask (hqs p hp) hq, decide_eq_true_iff] at hbit
    exact hbit ▸ hp
  · exact fun hm => ⟨q, hm, by rw [testBit_qubitMask hq hq, decide_eq_true rfl]⟩

/-- A block starts at the basis states without a bit of the listed qubits. -/
theorem and_masks_eq_zero_iff (hqs : ∀ q ∈ qs, q < n) (i : ℕ) :
    i &&& (qs.map (qubitMask n)).foldl (· ||| ·) 0 = 0 ↔ ∀ q ∈ qs, qubitBit n q i = 0 := by
  constructor
  · intro h q hq
    have hbit := congrArg (Nat.testBit · (n - 1 - q)) h
    simp only [Nat.testBit_and, testBit_foldl_qubitMask hqs (hqs q hq), hq, decide_true,
      Bool.and_true, Nat.zero_testBit] at hbit
    rw [qubitBit_eq_testBit, hbit, Bool.toNat_false]
  · intro h
    have hlt : (qs.map (qubitMask n)).foldl (· ||| ·) 0 < 2 ^ n := by
      apply foldl_or_lt (f := id) (Nat.two_pow_pos n)
      exact List.forall_mem_map.mpr fun q hq => qubitMask_lt (hqs q hq)
    apply eq_of_qubitBit_eq (Nat.and_lt_two_pow i hlt) (Nat.two_pow_pos n)
    intro q hq
    rw [qubitBit_eq_testBit, Nat.testBit_and, testBit_foldl_qubitMask hqs hq, qubitBit_eq_testBit,
      Nat.zero_testBit]
    by_cases hm : q ∈ qs
    · have hbit := h q hm
      rw [qubitBit_eq_testBit, Bool.toNat_eq_zero] at hbit
      rw [hbit, Bool.false_and]
    · rw [decide_eq_false hm, Bool.and_false]

theorem shiftRight_and_one_beq (w s : ℕ) : ((w >>> s) &&& 1 == 1) = w.testBit s := by
  rw [Nat.testBit_eq_decide_div_mod_eq, Nat.and_one_is_mod, Nat.shiftRight_eq_div_pow]
  rfl

theorem testBit_blockOffset (hqs : ∀ q ∈ qs, q < n) {q : ℕ} (hq : q < n) (w : ℕ) :
    (blockOffset (qs.map (qubitMask n)) w).testBit (n - 1 - q) =
      qs.zipIdx.any fun m => w.testBit (qs.length - 1 - m.2) && decide (m.1 = q) := by
  rw [blockOffset, testBit_foldl_or, Nat.zero_testBit, Bool.false_or, List.any_filter,
    List.zipIdx_map, List.any_map, List.length_map, Bool.eq_iff_iff, List.any_eq_true,
    List.any_eq_true]
  refine exists_congr fun m => and_congr_right fun hm => ?_
  simp only [Function.comp_apply, Prod.map_fst, Prod.map_snd, id, shiftRight_and_one_beq,
    testBit_qubitMask (hqs m.1 (List.fst_mem_of_mem_zipIdx hm)) hq]

theorem blockOffset_lt (hqs : ∀ q ∈ qs, q < n) (w : ℕ) :
    blockOffset (qs.map (qubitMask n)) w < 2 ^ n := by
  apply foldl_or_lt (Nat.two_pow_pos n)
  intro m hm
  have hmem := List.fst_mem_of_mem_zipIdx (List.mem_of_mem_filter hm)
  obtain ⟨q, hq, he⟩ := List.mem_map.mp hmem
  exact he ▸ qubitMask_lt (hqs q hq)

theorem any_zipIdx_getElem (hnd : qs.Nodup) {p : ℕ} (hp : p < qs.length) (b : ℕ → Bool) :
    (qs.zipIdx.any fun m => b m.2 && decide (m.1 = qs[p])) = b p := by
  rw [Bool.eq_iff_iff, List.any_eq_true]
  constructor
  · rintro ⟨m, hm, hb⟩
    rw [Bool.and_eq_true, decide_eq_true_iff] at hb
    obtain ⟨hlt, hget⟩ := List.getElem?_eq_some_iff.mp (List.mem_zipIdx_iff_getElem?.mp hm)
    exact hnd.getElem_inj_iff.mp (hget.trans hb.2) ▸ hb.1
  · intro hb
    refine ⟨(qs[p], p), List.mk_mem_zipIdx_iff_getElem?.mpr (List.getElem?_eq_getElem hp), ?_⟩
    rw [hb, decide_eq_true rfl, Bool.and_true]

/-- The offset of place `w` leads from the start of a block to the basis state with the bits of `w`
at the listed qubits. -/
theorem or_blockOffset (h : QubitList n k qs) {base : ℕ} (hb : base < 2 ^ n)
    (hz : ∀ q ∈ qs, qubitBit n q base = 0) (w : ℕ) :
    base ||| blockOffset (qs.map (qubitMask n)) w = replaceBits n qs w base := by
  apply eq_of_qubitBit_eq (Nat.or_lt_two_pow hb (blockOffset_lt h.lt w)) (replaceBits_lt w h.lt hb)
  intro q hq
  rw [qubitBit_eq_testBit, Nat.testBit_or, testBit_blockOffset h.lt hq]
  by_cases hm : q ∈ qs
  · obtain ⟨p, hp, rfl⟩ := List.getElem_of_mem hm
    have hbase := hz _ hm
    rw [qubitBit_eq_testBit, Bool.toNat_eq_zero] at hbase
    rw [hbase, Bool.false_or, any_zipIdx_getElem h.nodup hp fun r => w.testBit (qs.length - 1 - r),
      qubitBit_replaceBits_getElem w base h.lt h.nodup p hp, qubitBit_eq_testBit]
  · have hnone : (qs.zipIdx.any fun m => w.testBit (qs.length - 1 - m.2) && decide (m.1 = q)) =
        false := by
      rw [List.any_eq_false]
      rintro m hmem hb
      rw [Bool.and_eq_true, decide_eq_true_iff] at hb
      exact hm (hb.2 ▸ List.fst_mem_of_mem_zipIdx hmem)
    rw [hnone, Bool.or_false, qubitBit_replaceBits_of_notMem w base h.lt hq hm,
      qubitBit_eq_testBit]

end

/-! ### Blocks -/

section

variable {n k : ℕ} {qs : List ℕ}

/-- The start of the block of a basis state. -/
def blockStart (n : ℕ) (qs : List ℕ) (i : ℕ) : ℕ := replaceBits n qs 0 i

theorem blockStart_lt (h : QubitList n k qs) {i : ℕ} (hi : i < 2 ^ n) : blockStart n qs i < 2 ^ n :=
  replaceBits_lt 0 h.lt hi

theorem qubitBit_blockStart (h : QubitList n k qs) (i : ℕ) {q : ℕ} (hq : q < n) :
    qubitBit n q (blockStart n qs i) = if q ∈ qs then 0 else qubitBit n q i := by
  split_ifs with hm
  · obtain ⟨p, hp, rfl⟩ := List.getElem_of_mem hm
    rw [blockStart, qubitBit_replaceBits_getElem 0 i h.lt h.nodup p hp, qubitBit_eq_testBit,
      Nat.zero_testBit, Bool.toNat_false]
  · exact qubitBit_replaceBits_of_notMem 0 i h.lt hq hm

theorem replaceBits_eq_iff (h : QubitList n k qs) {i j w : ℕ} (hi : i < 2 ^ n) (hj : j < 2 ^ n)
    (hw : w < 2 ^ k) :
    j = replaceBits n qs w i ↔ AgreeOff n qs i j ∧ restrictBits n qs j = w := by
  constructor
  · rintro rfl
    refine ⟨agreeOff_replace h ⟨w, hw⟩ ⟨i, hi⟩, ?_⟩
    exact (restrict_val h _).symm.trans (congrArg Fin.val (restrict_replace h ⟨w, hw⟩ ⟨i, hi⟩))
  · rintro ⟨ha, rfl⟩
    have hr := congrArg Fin.val (replace_restrict h (i := ⟨i, hi⟩) (j := ⟨j, hj⟩) ha)
    simp only [replace, restrict_val h] at hr
    exact hr.symm

theorem blockStart_eq_iff (h : QubitList n k qs) {i j : ℕ} (hi : i < 2 ^ n) (hj : j < 2 ^ n) :
    blockStart n qs j = blockStart n qs i ↔ AgreeOff n qs i j := by
  have hstart (l : ℕ) (hl : l < 2 ^ n) := (replaceBits_eq_iff h hl (blockStart_lt h hl)
    (Nat.two_pow_pos k)).mp rfl
  rw [show blockStart n qs i = replaceBits n qs 0 i from rfl,
    replaceBits_eq_iff h hi (blockStart_lt h hj) (Nat.two_pow_pos k)]
  constructor
  · exact fun ha => ha.1.trans (hstart j hj).1.symm
  · exact fun ha => ⟨ha.trans (hstart j hj).1, (hstart j hj).2⟩

theorem replaceBits_congr (h : QubitList n k qs) {i j w : ℕ} (hi : i < 2 ^ n) (hj : j < 2 ^ n)
    (hw : w < 2 ^ k) (ha : AgreeOff n qs i j) : replaceBits n qs w i = replaceBits n qs w j := by
  obtain ⟨hi', hr⟩ := (replaceBits_eq_iff h hi (replaceBits_lt w h.lt hi) hw).mp rfl
  exact (replaceBits_eq_iff h hj (replaceBits_lt w h.lt hi) hw).mpr ⟨ha.symm.trans hi', hr⟩

end

/-! ### Loops that overwrite one block after the other -/

section

variable {F : Type} [Scalar F] {β : Type} [DecidableEq β]

omit [Scalar F] [DecidableEq β] in
theorem dim_foldl {step : Operator F → β → Operator F} (h : ∀ u b, (step u b).dim = u.dim)
    (bs : List β) (u : Operator F) : (bs.foldl step u).dim = u.dim := by
  induction bs generalizing u with
  | nil => rfl
  | cons b bs ih => rw [List.foldl_cons, ih, h]

/-- A step of a loop over blocks of cells: it gives the cells of block `b` new values, which are
read from this block alone. -/
structure BlockStep (d : ℕ) (blocks : List β) (key : ℕ → ℕ → β)
    (step : Operator F → β → Operator F) (value : Operator F → ℕ → ℕ → Amplitude F) : Prop where
  dim : ∀ u b, (step u b).dim = u.dim
  get : ∀ u, u.dim = d → ∀ b ∈ blocks, ∀ i < d, ∀ j < d,
    (step u b).get i j = if key i j = b then value u i j else u.get i j
  congr : ∀ u v, ∀ i < d, ∀ j < d,
    (∀ r < d, ∀ c < d, key r c = key i j → u.get r c = v.get r c) → value u i j = value v i j

namespace BlockStep

variable {d : ℕ} {blocks : List β} {key : ℕ → ℕ → β} {step : Operator F → β → Operator F}
  {value : Operator F → ℕ → ℕ → Amplitude F}

/-- A loop over different blocks gives each of their cells its value in the original matrix. -/
theorem get_foldl (h : BlockStep d blocks key step value) {bs : List β} (hbs : bs ⊆ blocks)
    (hnd : bs.Nodup) {u : Operator F} (hu : u.dim = d) {i j : ℕ} (hi : i < d) (hj : j < d) :
    (bs.foldl step u).get i j = if key i j ∈ bs then value u i j else u.get i j := by
  induction bs generalizing u with
  | nil => simp
  | cons b bs ih =>
    obtain ⟨hb, hnd'⟩ := List.nodup_cons.mp hnd
    have hmem : b ∈ blocks := hbs List.mem_cons_self
    rw [List.foldl_cons, ih (List.subset_of_cons_subset hbs) hnd' ((h.dim u b).trans hu),
      h.get u hu b hmem i hi j hj]
    by_cases hk : key i j = b
    · -- the block of the cell was overwritten just now and does not come again
      rw [if_neg (hk ▸ hb), if_pos hk, if_pos (hk ▸ List.mem_cons_self)]
    · -- its own block has not been touched, so its value is still the one in `u`
      have hsame : value (step u b) i j = value u i j := by
        apply h.congr _ _ i hi j hj
        intro r hr c hc hkey
        rw [h.get u hu b hmem r hr c hc, if_neg (hkey ▸ hk)]
      rw [hsame, if_neg hk]
      simp only [List.mem_cons, hk, false_or]

end BlockStep

end

/-! ### The product with an embedded operator -/

section

variable {F : Type} [Scalar F]

/-- The product of `u` with `g` acting on the listed qubits of `n`, entry by entry. -/
def entryOn (n : ℕ) (qs : List ℕ) (g u : Operator F) (i j : ℕ) : Amplitude F :=
  .sum ((List.range (2 ^ qs.length)).map fun w =>
    g.get (restrictBits n qs i) w * u.get (replaceBits n qs w i) j)

def applyOn (n : ℕ) (qs : List ℕ) (g u : Operator F) : Operator F :=
  ofFn u.dim (entryOn n qs g u)

theorem get_applyOn (n : ℕ) (qs : List ℕ) (g u : Operator F) {i j : ℕ} (hi : i < u.dim)
    (hj : j < u.dim) : (applyOn n qs g u).get i j = entryOn n qs g u i j :=
  get_ofFn _ _ hi hj

theorem zipIdx_map_range {α : Type} (f : ℕ → α) (m : ℕ) :
    ((List.range m).map f).zipIdx = (List.range m).map fun r => (f r, r) := by
  apply List.ext_getElem <;> simp

theorem dim_updateColumn (g : Operator F) (offsets : List ℕ) (base col : ℕ) (u : Operator F) :
    (updateColumn g offsets base col u).dim = u.dim := by
  apply dim_foldl
  intro v row
  exact dim_set v _ col _

theorem dim_applyGate (n : ℕ) (qs : List ℕ) (g u : Operator F) :
    (applyGate n qs g u).dim = u.dim :=
  dim_foldl (fun v base => dim_foldl (fun v col => dim_updateColumn g _ base col v) _ v) _ u

variable {n k : ℕ} {qs : List ℕ}

def offsetsOn (n : ℕ) (qs : List ℕ) : List ℕ :=
  (List.range (1 <<< qs.length)).map (blockOffset (qs.map (qubitMask n)))

/-- An entry of the product reads the column of its own block. -/
theorem entryOn_congr (h : QubitList n k qs) {g u v : Operator F} {i j : ℕ} (hi : i < 2 ^ n)
    (huv : ∀ r < 2 ^ n, blockStart n qs r = blockStart n qs i → u.get r j = v.get r j) :
    entryOn n qs g u i j = entryOn n qs g v i j := by
  rw [entryOn, entryOn]
  congr 1
  apply List.map_congr_left
  intro w hw
  have hlt := replaceBits_lt w h.lt hi
  have hw' : w < 2 ^ k := h.length_eq ▸ List.mem_range.mp hw
  rw [huv _ hlt ((blockStart_eq_iff h hi hlt).mpr ((replaceBits_eq_iff h hi hlt hw').mp rfl).1)]

section

variable {base : ℕ} (h : QubitList n k qs) (hb : base < 2 ^ n)
  (hz : ∀ q ∈ qs, qubitBit n q base = 0) (g : Operator F)

include h hb hz

theorem updateColumn_eq (col : ℕ) (u : Operator F) :
    updateColumn g (offsetsOn n qs) base col u =
      (List.range (2 ^ k)).foldl (fun v r => v.set (replaceBits n qs r base) col
        (.sum ((List.range (2 ^ k)).map fun w =>
          g.get r w * u.get (replaceBits n qs w base) col))) u := by
  simp only [updateColumn, offsetsOn, List.map_map, zipIdx_map_range, List.foldl_map,
    Function.comp_def, or_blockOffset h hb hz, Nat.one_shiftLeft, h.length_eq]

theorem blockStart_eq_self : blockStart n qs base = base := by
  apply eq_of_qubitBit_eq (blockStart_lt h hb) hb
  intro q hq
  rw [qubitBit_blockStart h base hq]
  split_ifs with hm
  · exact (hz q hm).symm
  · rfl

theorem agreeOff_base_iff {i : ℕ} (hi : i < 2 ^ n) :
    AgreeOff n qs base i ↔ blockStart n qs i = base := by
  rw [← blockStart_eq_iff h hb hi, blockStart_eq_self h hb hz]

theorem blockStep_set {col : ℕ} (hc : col < 2 ^ n) (x : ℕ → Amplitude F) :
    BlockStep (2 ^ n) (List.range (2 ^ k)) (fun i _ => restrictBits n qs i)
      (fun v r => v.set (replaceBits n qs r base) col (x r))
      fun v i j => if blockStart n qs i = base ∧ j = col then x (restrictBits n qs i)
        else v.get i j where
  dim _ _ := rfl
  get v hv r hr i hi j hj := by
    have hcell := replaceBits_eq_iff h hb hi (List.mem_range.mp hr)
    rw [agreeOff_base_iff h hb hz hi] at hcell
    rw [get_set v (x r) (hv ▸ hi) (hv ▸ hj) (hv ▸ hc)]
    by_cases hk : restrictBits n qs i = r
    · simp only [hcell, hk, and_true, if_true]
    · simp only [hcell, hk, and_false, false_and, if_false]
  congr v w i hi j hj hvw := by
    rw [hvw i hi j hj rfl]

/-- One column of a block takes its entries in the product; everything else stays. -/
theorem get_updateColumn {col : ℕ} (hc : col < 2 ^ n) {u : Operator F} (hu : u.dim = 2 ^ n)
    {i j : ℕ} (hi : i < 2 ^ n) (hj : j < 2 ^ n) :
    (updateColumn g (offsetsOn n qs) base col u).get i j =
      if blockStart n qs i = base ∧ j = col then entryOn n qs g u i j else u.get i j := by
  have hr : restrictBits n qs i ∈ List.range (2 ^ k) :=
    List.mem_range.mpr (h.length_eq ▸ restrictBits_lt n qs i)
  rw [updateColumn_eq h hb hz, (blockStep_set h hb hz hc _).get_foldl (List.Subset.refl _)
    List.nodup_range hu hi hj, if_pos hr]
  split_ifs with hcell
  · obtain ⟨hs, rfl⟩ := hcell
    rw [entryOn, h.length_eq]
    congr 1
    apply List.map_congr_left
    intro w hw
    rw [replaceBits_congr h hb hi (List.mem_range.mp hw) ((agreeOff_base_iff h hb hz hi).mpr hs)]
  · rfl

theorem blockStep_updateColumn :
    BlockStep (2 ^ n) (List.range (1 <<< n)) (fun _ j => j)
      (fun v col => updateColumn g (offsetsOn n qs) base col v)
      fun v i j => if blockStart n qs i = base then entryOn n qs g v i j else v.get i j where
  dim v col := dim_updateColumn g _ base col v
  get v hv col hc i hi j hj := by
    rw [Nat.one_shiftLeft, List.mem_range] at hc
    rw [get_updateColumn h hb hz g hc hv hi hj]
    by_cases hk : j = col
    · simp only [hk, and_true, if_true]
    · simp only [hk, and_false, if_false]
  congr v w i hi j hj hvw := by
    rw [hvw i hi j hj rfl, entryOn_congr h hi fun r hr _ => hvw r hr j hj rfl]

end

theorem blockStep_columns (h : QubitList n k qs) (g : Operator F) :
    BlockStep (2 ^ n)
      ((List.range (1 <<< n)).filter (· &&& (qs.map (qubitMask n)).foldl (· ||| ·) 0 == 0))
      (fun i _ => blockStart n qs i)
      (fun v base => (List.range (1 <<< n)).foldl
        (fun v col => updateColumn g (offsetsOn n qs) base col v) v)
      (entryOn n qs g) where
  dim v base := dim_foldl (fun v col => dim_updateColumn g _ base col v) _ v
  get v hv base hbase i hi j hj := by
    rw [List.mem_filter, List.mem_range, Nat.one_shiftLeft, beq_iff_eq,
      and_masks_eq_zero_iff h.lt] at hbase
    have hcol : j ∈ List.range (1 <<< n) := by rwa [Nat.one_shiftLeft, List.mem_range]
    rw [(blockStep_updateColumn h hbase.1 hbase.2 g).get_foldl (List.Subset.refl _)
      List.nodup_range hv hi hj, if_pos hcol]
  congr _ _ i hi j hj huv := entryOn_congr h hi fun r hr hs => huv r hr j hj hs

/-- The loop over the blocks of the listed qubits multiplies by the operator on these qubits. -/
theorem applyGate_eq_applyOn (h : QubitList n k qs) (g : Operator F) {u : Operator F}
    (hu : u.dim = 2 ^ n) : applyGate n qs g u = applyOn n qs g u := by
  apply ext_get (b := applyOn n qs g u) (dim_applyGate n qs g u)
  intro i hi j hj
  rw [dim_applyGate] at hi hj
  rw [get_applyOn n qs g u hi hj]
  rw [hu] at hi hj
  have hstart : blockStart n qs i ∈ (List.range (1 <<< n)).filter
      (· &&& (qs.map (qubitMask n)).foldl (· ||| ·) 0 == 0) := by
    rw [List.mem_filter, List.mem_range, Nat.one_shiftLeft, beq_iff_eq, and_masks_eq_zero_iff h.lt]
    refine ⟨blockStart_lt h hi, fun q hq => ?_⟩
    rw [qubitBit_blockStart h i (h.lt q hq), if_pos hq]
  have hloop := (blockStep_columns h g).get_foldl (List.Subset.refl _)
    (List.nodup_range.filter _) hu hi hj
  rw [if_pos hstart] at hloop
  exact hloop

end

end Operator

section

variable {n k : ℕ} {qs : List ℕ}

/-- The loop multiplies by the embedding of the operator into the matrices on `n` qubits. -/
theorem toMatrix_applyGate (h : QubitList n k qs) (g u : Operator ℝ) (hu : u.dim = 2 ^ n) :
    (g.applyGate n qs u).toMatrix n = embed n qs (g.toMatrix k) * u.toMatrix n := by
  funext i j
  have hi : (i : ℕ) < u.dim := by rw [hu]; exact i.isLt
  have hj : (j : ℕ) < u.dim := by rw [hu]; exact j.isLt
  have hsum (f : ℕ → ℂ) : ((List.range (2 ^ k)).map f).sum = ∑ w : Fin (2 ^ k), f w := by
    rw [← Finset.sum_range]
    rfl
  rw [embed_mul_apply h, Operator.toMatrix, Operator.applyGate_eq_applyOn h g hu,
    Operator.get_applyOn n qs g u hi hj, Operator.entryOn, Amplitude.toComplex_sum, h.length_eq,
    List.map_map, hsum]
  apply Finset.sum_congr rfl
  intro w _
  rw [Function.comp_apply, Amplitude.toComplex_mul, Operator.toMatrix, Operator.toMatrix,
    restrict_val h]
  rfl

end

namespace Oracle

variable {F : Type} [Scalar F] {n : ℕ}

theorem dim_step {u : Operator F} {i : Instruction F} :
    Returns (step n u i) fun v => v.dim = u.dim := by
  intro v h
  unfold step at h
  split_ifs at h
  · rw [← Except.ok.inj h]
  · obtain ⟨m, -, hm⟩ := bind_eq_ok_iff.mp h
    rw [← Except.ok.inj hm, Operator.dim_applyGate]

theorem dim_foldlM_step {u : Operator F} (is : List (Instruction F)) :
    Returns (is.foldlM (step n) u) fun v => v.dim = u.dim := by
  induction is generalizing u with
  | nil =>
    intro v h
    rw [← Except.ok.inj h]
  | cons i is ih =>
    intro v h
    rw [List.foldlM_cons] at h
    obtain ⟨w, hw, hv⟩ := bind_eq_ok_iff.mp h
    exact (ih v hv).trans (dim_step w hw)

end Oracle

end Interchange
