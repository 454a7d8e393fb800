import Mathlib.Algebra.GroupWithZero.Nat
import Mathlib.Algebra.Order.BigOperators.Group.List
import Mathlib.Data.List.Induction
import Mathlib.Data.List.Nodup
import Mathlib.Data.Prod.Lex
import Mathlib.Data.String.Basic
import Interchange.Job.Counts
import Interchange.Scalar.Double

namespace Interchange.Counts

def Ordered (es : List (String × ℕ)) : Prop := (es.map Prod.fst).Pairwise (· < ·)

section

variable {bits key : String} {count : ℕ} {e : String × ℕ} {es : List (String × ℕ)}

theorem getD_lookup_cons (e : String × ℕ) (es : List (String × ℕ)) (key : String) :
    ((e :: es).lookup key).getD 0 = if key = e.1 then e.2 else (es.lookup key).getD 0 := by
  obtain ⟨bits, count⟩ := e
  rw [List.lookup_cons]
  by_cases h : key = bits
  · rw [if_pos h, beq_iff_eq.mpr h]
    rfl
  · rw [if_neg h, beq_false_of_ne h]

theorem getD_lookup_of_notMem (h : key ∉ es.map Prod.fst) : (es.lookup key).getD 0 = 0 := by
  induction es with
  | nil => rfl
  | cons e es ih =>
    rw [List.map_cons, List.mem_cons, not_or] at h
    rw [getD_lookup_cons, if_neg h.1, ih h.2]

theorem Ordered.tail (h : Ordered (e :: es)) : Ordered es := (List.pairwise_cons.mp h).2

theorem Ordered.head_lt (h : Ordered (e :: es)) (hkey : key ∈ es.map Prod.fst) : e.1 < key :=
  (List.pairwise_cons.mp h).1 key hkey

theorem Ordered.lt_of_lt_head (h : Ordered (e :: es)) (hlt : bits < e.1)
    (hkey : key ∈ (e :: es).map Prod.fst) : bits < key := by
  rcases List.mem_cons.mp hkey with rfl | hkey
  · exact hlt
  · exact hlt.trans (h.head_lt hkey)

theorem Ordered.mem_iff (h : Ordered es) :
    e ∈ es ↔ e.1 ∈ es.map Prod.fst ∧ e.2 = (es.lookup e.1).getD 0 := by
  induction es with
  | nil => simp
  | cons d es ih =>
    rw [List.map_cons, List.mem_cons, List.mem_cons, getD_lookup_cons, ih h.tail, Prod.ext_iff]
    by_cases hkey : e.1 = d.1
    · have habsent : d.1 ∉ es.map Prod.fst := fun hmem => (h.head_lt hmem).false
      simp only [hkey, true_and, habsent, false_and, or_false, if_true]
    · simp only [hkey, false_and, false_or, if_false]

variable (bits count)

/-- The place of an outcome does not depend on what was inserted before. -/
theorem insertInto_comm (bits' : String) (count' : ℕ) (es : List (String × ℕ)) :
    insertInto bits count (insertInto bits' count' es) =
      insertInto bits' count' (insertInto bits count es) := by
  induction es with
  | nil => grind [insertInto]
  | cons e es ih => grind [insertInto]

theorem mem_keys_insertInto (es : List (String × ℕ)) :
    key ∈ (insertInto bits count es).map Prod.fst ↔ key = bits ∨ key ∈ es.map Prod.fst := by
  fun_induction insertInto bits count es with
  | case1 => simp
  | case2 e es heq => simp [← heq]
  | case3 => simp
  | case4 e es _ _ ih =>
    rw [List.map_cons, List.mem_cons, ih, List.map_cons, List.mem_cons]
    exact or_left_comm

theorem Ordered.insertInto (h : Ordered es) : Ordered (insertInto bits count es) := by
  fun_induction Counts.insertInto bits count es with
  | case1 => exact List.pairwise_singleton _ _
  | case2 e es heq => exact heq ▸ h
  | case3 e es _ hlt => exact List.pairwise_cons.mpr ⟨fun _ => h.lt_of_lt_head hlt, h⟩
  | case4 e es hne hlt ih =>
    refine List.pairwise_cons.mpr ⟨fun key hkey => ?_, ih h.tail⟩
    rcases (mem_keys_insertInto bits count es).mp hkey with rfl | hkey
    · exact lt_of_le_of_ne (not_lt.mp hlt) (Ne.symm hne)
    · exact h.head_lt hkey

theorem Ordered.getD_lookup_insertInto (h : Ordered es) (key : String) :
    ((Counts.insertInto bits count es).lookup key).getD 0 =
      (es.lookup key).getD 0 + if bits = key then count else 0 := by
  fun_induction Counts.insertInto bits count es with
  | case1 =>
    rw [getD_lookup_cons, List.lookup_nil, Option.getD_none, Nat.zero_add]
    exact if_congr eq_comm rfl rfl
  | case2 e es heq =>
    rw [getD_lookup_cons, getD_lookup_cons]
    grind
  | case3 e es _ hlt =>
    rw [getD_lookup_cons]
    by_cases hkey : key = bits
    · have habsent : key ∉ (e :: es).map Prod.fst := fun hmem =>
        (h.lt_of_lt_head hlt hmem).ne hkey.symm
      rw [if_pos hkey, if_pos hkey.symm, getD_lookup_of_notMem habsent, Nat.zero_add]
    · rw [if_neg hkey, if_neg (Ne.symm hkey), Nat.add_zero]
  | case4 e es hne hlt ih =>
    rw [getD_lookup_cons, getD_lookup_cons, ih h.tail]
    grind

theorem sum_insertInto (es : List (String × ℕ)) :
    ((insertInto bits count es).map Prod.snd).sum = (es.map Prod.snd).sum + count := by
  fun_induction insertInto bits count es with
  | case1 => simp
  | case2 e es _ => grind
  | case3 e es _ _ => grind
  | case4 e es _ _ ih => grind

end

def observed (observations : List (String × ℕ)) (bits : String) : ℕ :=
  ((observations.filter fun o => o.1 = bits).map Prod.snd).sum

theorem observed_append (xs ys : List (String × ℕ)) (bits : String) :
    observed (xs ++ ys) bits = observed xs bits + observed ys bits := by
  simp [observed]

theorem observed_singleton (o : String × ℕ) (bits : String) :
    observed [o] bits = if o.1 = bits then o.2 else 0 := by
  by_cases h : o.1 = bits <;> simp [observed, h]

theorem total_eq_sum (c : Counts) : c.total = (c.entries.map Prod.snd).sum := by
  rw [total, List.sum_eq_foldr, List.foldr_map]

/-- A histogram says what the observations say: it has an entry for each outcome that occurs, in
order, with the number of its observations. -/
structure Collects (c : Counts) (observations : List (String × ℕ)) : Prop where
  ordered : Ordered c.entries
  mem_keys : ∀ key, key ∈ c.entries.map Prod.fst ↔ key ∈ observations.map Prod.fst
  get_eq : ∀ key, c.get key = observed observations key
  total_eq : c.total = (observations.map Prod.snd).sum

section

variable {c : Counts} {observations : List (String × ℕ)}

theorem Collects.insert (h : c.Collects observations) (o : String × ℕ) :
    (c.insert o.1 o.2).Collects (observations ++ [o]) where
  ordered := h.ordered.insertInto o.1 o.2
  mem_keys key := by
    rw [Counts.insert, mem_keys_insertInto, h.mem_keys]
    simp [or_comm]
  get_eq key := by
    rw [Counts.insert, get, h.ordered.getD_lookup_insertInto, observed_append, observed_singleton,
      ← h.get_eq, get]
  total_eq := by
    rw [total_eq_sum, Counts.insert, sum_insertInto, ← total_eq_sum, h.total_eq]
    simp

theorem collects_ofList (observations : List (String × ℕ)) :
    (ofList observations).Collects observations := by
  induction observations using List.reverseRecOn with
  | nil => exact ⟨List.Pairwise.nil, fun _ => Iff.rfl, fun _ => rfl, rfl⟩
  | append_singleton observations o ih =>
    rw [ofList, List.foldl_concat]
    exact ih.insert o

theorem Collects.mem_entries (h : c.Collects observations) {e : String × ℕ} :
    e ∈ c.entries ↔ e.1 ∈ observations.map Prod.fst ∧ e.2 = observed observations e.1 := by
  rw [h.ordered.mem_iff, h.mem_keys, ← h.get_eq, get]

theorem get_le_total (observations : List (String × ℕ)) (bits : String) :
    (ofList observations).get bits ≤ (ofList observations).total := by
  rw [(collects_ofList observations).get_eq, (collects_ofList observations).total_eq]
  exact (List.filter_sublist.map Prod.snd).sum_le_sum fun _ _ => Nat.zero_le _

theorem total_le_of_earlier {earlier : List (String × ℕ)} (h : earlier <+: observations) :
    (ofList earlier).total ≤ (ofList observations).total := by
  rw [(collects_ofList earlier).total_eq, (collects_ofList observations).total_eq]
  exact (h.sublist.map Prod.snd).sum_le_sum fun _ _ => Nat.zero_le _

theorem ofList_perm {reordered : List (String × ℕ)} (h : reordered.Perm observations) :
    ofList reordered = ofList observations := by
  refine h.foldl_eq' (fun a _ b _ c => ?_) (⟨[]⟩ : Counts)
  exact congrArg Counts.mk (insertInto_comm b.1 b.2 a.1 a.2 c.entries)

end

/-- Entries are compared by their counts, and under equal counts by their outcomes the other way
round. -/
def compareEntries (a b : String × ℕ) : Ordering := (compare a.2 b.2).then (compare b.1 a.1)

/-- The greatest entry, found by one pass in the order in which they are visited. -/
def greatest? : List (String × ℕ) → Option (String × ℕ)
  | [] => none
  | e :: es => some (es.foldl (fun best e => if compareEntries best e = .gt then best else e) e)

def rank (e : String × ℕ) : ℕ ×ₗ Stringᵒᵈ := toLex (e.2, OrderDual.toDual e.1)

section

variable {a b e : String × ℕ} {es visited : List (String × ℕ)} {c : Counts}

theorem rank_le_rank_iff : rank a ≤ rank b ↔ a.2 < b.2 ∨ a.2 = b.2 ∧ b.1 ≤ a.1 := Prod.Lex.le_iff

theorem rank_injective : Function.Injective rank := by
  intro a b h
  have hle := rank_le_rank_iff.mp h.le
  have hge := rank_le_rank_iff.mp h.ge
  have hcount : a.2 = b.2 := by omega
  refine Prod.ext (le_antisymm ?_ ?_) hcount
  · exact (hge.resolve_left hcount.not_gt).2
  · exact (hle.resolve_left hcount.not_lt).2

theorem compareEntries_eq_gt_iff : compareEntries a b = .gt ↔ rank b < rank a := by
  rw [← not_le, rank_le_rank_iff, compareEntries, Ordering.then_eq_gt, compare_gt_iff_gt,
    compare_gt_iff_gt, compare_eq_iff_eq]
  grind

theorem map_rank_greatest? (es : List (String × ℕ)) :
    (greatest? es).map rank = (es.map rank).max? := by
  cases es with
  | nil => rfl
  | cons e es =>
    refine congrArg some ?_
    rw [List.foldl_map]
    refine (List.foldl_hom rank fun best e => ?_).symm
    simp only [max_def, apply_ite rank, compareEntries_eq_gt_iff, ← not_le, ite_not]

theorem greatest?_eq_some_iff : greatest? es = some e ↔ e ∈ es ∧ ∀ d ∈ es, rank d ≤ rank e := by
  rw [← (Option.map_injective rank_injective).eq_iff, map_rank_greatest?, Option.map_some,
    List.max?_eq_some_iff, List.mem_map_of_injective rank_injective, List.forall_mem_map]

theorem greatest?_perm (h : visited.Perm es) : greatest? visited = greatest? es := by
  ext e
  simp only [greatest?_eq_some_iff, h.mem_iff]

/-- A later outcome is the more frequent one only if its count is larger. -/
theorem moreFrequent_of_lt (h : a.1 < b.1) :
    moreFrequent a b = if compareEntries a b = .gt then a else b := by
  have hiff : compareEntries a b = .gt ↔ ¬a.2 < b.2 := by
    rw [compareEntries_eq_gt_iff, ← not_le, rank_le_rank_iff]
    simp only [h.not_ge, and_false, or_false]
  rw [if_congr hiff rfl rfl, ite_not]
  rfl

theorem Ordered.foldl_moreFrequent (h : Ordered (e :: es)) :
    es.foldl moreFrequent e =
      es.foldl (fun best e => if compareEntries best e = .gt then best else e) e := by
  induction es generalizing e with
  | nil => rfl
  | cons d es ih =>
    rw [List.foldl_cons, List.foldl_cons, moreFrequent_of_lt (h.head_lt List.mem_cons_self)]
    refine ih ?_
    -- the choice comes before what is left, whichever of the two it is
    split
    · exact h.sublist (.cons_cons e.1 (List.sublist_cons_self d.1 _))
    · exact h.tail

theorem Ordered.mostFrequent?_eq (h : Ordered c.entries) :
    c.mostFrequent? = greatest? c.entries := by
  unfold mostFrequent? greatest?
  cases hes : c.entries with
  | nil => rfl
  | cons e es => exact congrArg some (Ordered.foldl_moreFrequent (hes ▸ h))

end

/-- The relative frequencies of entries as they are visited, sorted afterwards. -/
def sortedFrequencies {F : Type} [Scalar F] (visited : List (String × ℕ)) : List (String × F) :=
  let total := (visited.map Prod.snd).sum
  if total = 0 then []
  else (visited.map fun e => (e.1, Scalar.ofNat e.2 / Scalar.ofNat total)).mergeSort
    fun a b => a.1 ≤ b.1

section

variable {F : Type} [Scalar F] {c : Counts} {visited observations : List (String × ℕ)}

/-- Outcomes that all differ have one increasing order. -/
theorem mergeSort_eq_of_perm {α : Type} {ps qs : List (String × α)} (h : ps.Perm qs)
    (hq : (qs.map Prod.fst).Pairwise (· < ·)) : ps.mergeSort (fun a b => a.1 ≤ b.1) = qs := by
  have hsorted : (ps.mergeSort fun a b => a.1 ≤ b.1).Pairwise fun a b => a.1 ≤ b.1 := by
    have hpairs := @List.pairwise_mergeSort _ (fun a b : String × α => decide (a.1 ≤ b.1))
      (fun a b c hab hbc => decide_eq_true ((of_decide_eq_true hab).trans (of_decide_eq_true hbc)))
      (fun a b => by simpa using le_total a.1 b.1) ps
    exact hpairs.imp of_decide_eq_true
  have hperm : (ps.mergeSort fun a b => a.1 ≤ b.1).Perm qs := (List.mergeSort_perm ps _).trans h
  refine List.Perm.eq_of_pairwise (fun a b ha hb hab hba => ?_) hsorted
    ((List.pairwise_map.mp hq).imp LT.lt.le) hperm
  exact List.inj_on_of_nodup_map (hq.imp LT.lt.ne) (hperm.mem_iff.mp ha) hb (hab.antisymm hba)

theorem sum_visited (h : visited.Perm c.entries) : (visited.map Prod.snd).sum = c.total := by
  rw [total_eq_sum, (h.map Prod.snd).sum_eq]

theorem map_fst_probabilities (h : c.total ≠ 0) :
    (c.probabilities : List (String × F)).map Prod.fst = c.entries.map Prod.fst := by
  rw [probabilities, if_neg h, List.map_map]
  rfl

theorem sortedFrequencies_perm (hc : Ordered c.entries) (h : visited.Perm c.entries) :
    (sortedFrequencies visited : List (String × F)) = c.probabilities := by
  unfold sortedFrequencies
  dsimp only
  rw [sum_visited h]
  by_cases hzero : c.total = 0
  · rw [if_pos hzero, probabilities, if_pos hzero]
  · rw [if_neg hzero]
    refine mergeSort_eq_of_perm ?_ (map_fst_probabilities (F := F) hzero ▸ hc)
    rw [probabilities, if_neg hzero]
    exact h.map _

/-- An outcome that occurs, with its count: none occurs more often, and none that is smaller occurs
as often. -/
structure IsMostFrequent (observations : List (String × ℕ)) (e : String × ℕ) : Prop where
  occurs : e.1 ∈ observations.map Prod.fst
  count_eq : e.2 = observed observations e.1
  greatest : ∀ bits ∈ observations.map Prod.fst,
    observed observations bits < e.2 ∨ observed observations bits = e.2 ∧ e.1 ≤ bits

theorem Collects.mostFrequent?_eq_some_iff (h : c.Collects observations) {e : String × ℕ} :
    c.mostFrequent? = some e ↔ IsMostFrequent observations e := by
  rw [h.ordered.mostFrequent?_eq, greatest?_eq_some_iff, h.mem_entries]
  constructor
  · rintro ⟨⟨hmem, hcount⟩, hmax⟩
    refine ⟨hmem, hcount, fun bits hbits => ?_⟩
    have hentry : (bits, observed observations bits) ∈ c.entries := h.mem_entries.mpr ⟨hbits, rfl⟩
    exact rank_le_rank_iff.mp (hmax _ hentry)
  · rintro ⟨hmem, hcount, hmax⟩
    refine ⟨⟨hmem, hcount⟩, fun d hd => rank_le_rank_iff.mpr ?_⟩
    obtain ⟨hd, hdcount⟩ := h.mem_entries.mp hd
    rw [hdcount]
    exact hmax d.1 hd

theorem Collects.mostFrequent?_eq_none_iff (h : c.Collects observations) :
    c.mostFrequent? = none ↔ observations = [] := by
  have hentries : c.mostFrequent? = none ↔ c.entries = [] := by
    unfold mostFrequent?
    split <;> simp_all
  rw [hentries, ← List.map_eq_nil_iff (f := Prod.fst), List.eq_nil_iff_forall_not_mem]
  simp only [h.mem_keys]
  rw [← List.eq_nil_iff_forall_not_mem, List.map_eq_nil_iff]

/-- Each outcome that occurs stands in a list once, in increasing order, with its share of all
observations. -/
structure ListsOutcomes (observations : List (String × ℕ)) (ps : List (String × F)) : Prop where
  increasing : (ps.map Prod.fst).Pairwise (· < ·)
  mem_iff : ∀ bits, bits ∈ ps.map Prod.fst ↔ bits ∈ observations.map Prod.fst
  share_eq : ∀ p ∈ ps, p.2 = Scalar.ofNat (observed observations p.1) /
    Scalar.ofNat (observations.map Prod.snd).sum

theorem Collects.listsOutcomes (h : c.Collects observations)
    (hpos : 0 < (observations.map Prod.snd).sum) :
    ListsOutcomes observations (c.probabilities : List (String × F)) := by
  have hne : c.total ≠ 0 := h.total_eq ▸ hpos.ne'
  have hkeys := map_fst_probabilities (F := F) hne
  refine ⟨hkeys ▸ h.ordered, fun bits => hkeys ▸ h.mem_keys bits, fun p hp => ?_⟩
  rw [probabilities, if_neg hne] at hp
  obtain ⟨e, he, rfl⟩ := List.mem_map.mp hp
  rw [(h.mem_entries.mp he).2, h.total_eq]

/-- Of any two lists with the same observations the histograms are equal, and what is read off them
does not depend on the order in which their entries are visited. As long as all counts together stay
below `2 ^ 64`, so does every count on the way. -/
theorem ofList_reordered {observations reordered visited : List (String × ℕ)}
    (hsum : (observations.map Prod.snd).sum < 2 ^ 64) (hreordered : reordered.Perm observations)
    (hvisited : visited.Perm (ofList reordered).entries) :
    ofList reordered = ofList observations ∧
    (∀ earlier, earlier <+: reordered →
      (ofList earlier).total < 2 ^ 64 ∧ ∀ bits, (ofList earlier).get bits < 2 ^ 64) ∧
    (∀ bits, (ofList reordered).get bits = observed observations bits) ∧
    (ofList reordered).total = (observations.map Prod.snd).sum ∧
    (visited.map Prod.snd).sum = (ofList reordered).total ∧
    (∀ e, (ofList reordered).mostFrequent? = some e ↔ IsMostFrequent observations e) ∧
    ((ofList reordered).mostFrequent? = none ↔ observations = []) ∧
    greatest? visited = (ofList reordered).mostFrequent? ∧
    (if (observations.map Prod.snd).sum = 0 then
      ((ofList reordered).probabilities : List (String × F)) = []
    else ListsOutcomes observations ((ofList reordered).probabilities : List (String × F))) ∧
    (sortedFrequencies visited : List (String × F)) = (ofList reordered).probabilities := by
  have hc := collects_ofList observations
  have hbound : ∀ earlier, earlier <+: reordered → (ofList earlier).total < 2 ^ 64 := by
    intro earlier hearlier
    refine (total_le_of_earlier hearlier).trans_lt ?_
    rwa [ofList_perm hreordered, hc.total_eq]
  rw [ofList_perm hreordered] at hvisited ⊢
  refine ⟨rfl, fun earlier hearlier => ⟨hbound earlier hearlier, fun bits => ?_⟩, hc.get_eq,
    hc.total_eq, sum_visited hvisited, fun e => hc.mostFrequent?_eq_some_iff,
    hc.mostFrequent?_eq_none_iff, ?_, ?_, sortedFrequencies_perm hc.ordered hvisited⟩
  · exact (get_le_total earlier bits).trans_lt (hbound earlier hearlier)
  · rw [greatest?_perm hvisited, hc.ordered.mostFrequent?_eq]
  · split_ifs with hzero
    · exact if_pos (hc.total_eq.trans hzero)
    · exact hc.listsOutcomes (Nat.pos_of_ne_zero hzero)

/-- Two outcomes that are equally frequent, one of them observed in two parts. -/
theorem ofList_reordered_tie :
    let observations := [("11", 5), ("00", 3), ("01", 1), ("00", 2)]
    let reordered := [("00", 2), ("01", 1), ("11", 5), ("00", 3)]
    let visited := [("11", 5), ("00", 5), ("01", 1)]
    (observations.map Prod.snd).sum < 2 ^ 64 ∧ reordered.Perm observations ∧
    visited.Perm (ofList reordered).entries ∧ ofList reordered = ofList observations ∧
    greatest? visited = some ("00", 5) ∧
    ListsOutcomes observations (sortedFrequencies visited : List (String × Float)) := by
  have hperm : [("00", 2), ("01", 1), ("11", 5), ("00", 3)].Perm
      [("11", 5), ("00", 3), ("01", 1), ("00", 2)] := by decide
  have hvisited : [("11", 5), ("00", 5), ("01", 1)].Perm
      (ofList [("00", 2), ("01", 1), ("11", 5), ("00", 3)]).entries := by decide
  obtain ⟨heq, -, -, -, -, -, -, htop, hlists, hsorted⟩ :=
    ofList_reordered (F := Float) (by decide) hperm hvisited
  rw [if_neg (by decide), ← hsorted] at hlists
  exact ⟨by decide, hperm, hvisited, heq, htop.trans (by decide), hlists⟩

/-- Where nothing was observed, no outcome is listed, not even those that have an entry. -/
theorem not_listsOutcomes_zero :
    ([("0", 0)].map Prod.snd).sum < 2 ^ 64 ∧ "0" ∈ (ofList [("0", 0)]).entries.map Prod.fst ∧
    ¬ListsOutcomes [("0", 0)] ((ofList [("0", 0)]).probabilities : List (String × Float)) := by
  refine ⟨by decide, by decide, fun h => ?_⟩
  exact absurd ((h.mem_iff "0").mpr List.mem_cons_self) List.not_mem_nil

end

end Interchange.Counts
