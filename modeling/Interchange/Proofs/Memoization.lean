import Mathlib.Data.Set.Card
import Interchange.Proofs.Outcome
import Interchange.Synthesis.Decompose

namespace Interchange

variable {F : Type}

theorem Operator.eq_of_entries {m n : Operator F} (hdim : m.dim = n.dim)
    (h : m.entries.toList = n.entries.toList) : m = n := by
  obtain ⟨d, xs, hx⟩ := m
  obtain ⟨d', ys, hy⟩ := n
  obtain rfl : d = d' := hdim
  obtain rfl : xs = ys := Array.toList_inj.mp h
  rfl

variable [Scalar F]

theorem Amplitude.eq_of_identical {xs ys : List (Amplitude F)} (hlength : xs.length = ys.length)
    (h : ∀ e ∈ xs.zip ys, Scalar.identical e.1.re e.2.re = true ∧
      Scalar.identical e.1.im e.2.im = true) : xs = ys := by
  induction xs generalizing ys with
  | nil => exact (List.length_eq_zero_iff.mp hlength.symm).symm
  | cons x xs ih =>
    obtain ⟨y, ys, rfl⟩ := List.exists_cons_of_length_eq_add_one hlength.symm
    obtain ⟨⟨hre, him⟩, htail⟩ := List.forall_mem_cons.mp h
    have hre : x.re = y.re := (Scalar.identical_iff _ _).mp hre
    have him : x.im = y.im := (Scalar.identical_iff _ _).mp him
    have hx : x = y := by
      cases x
      cases y
      simp_all
    rw [hx, ih (Nat.succ.inj hlength) htail]

namespace Synthesis

variable [Eigensolver F]

/-- A replacement from the matrix depends on nothing but the tag and the matrix. -/
theorem fromMatrix_congr (tolerance : F) {g g' : Gate F} {m : Operator F} (htag : g.tag = g'.tag)
    (hm : g.matrix = some m) (hm' : g'.matrix = some m) :
    fromMatrix tolerance g m = fromMatrix tolerance g' m := by
  have hqubits : g.qubits = g'.qubits := by rw [Gate.qubits, htag, hm, ← hm', Gate.qubits]
  rw [fromMatrix, hqubits, htag, fromMatrix]

/-- The replacement of the gate is computed from its matrix, with success, and the key stands for
the gate: its tag and its matrix, of which no bit may differ. -/
structure Synthesized (tolerance : F) (g : Gate F) (key : Tag × Operator F) : Prop where
  no_rule : closedForm g = .ok none
  tag : g.tag = key.1
  matrix : g.matrix = some key.2
  found : ∃ sequence, fromMatrix tolerance g key.2 = .ok sequence

theorem Synthesized.key_eq {tolerance : F} {g : Gate F} {key : Tag × Operator F} {m : Operator F}
    (h : Synthesized tolerance g key) (hm : g.matrix = some m) : key = (g.tag, m) :=
  Prod.ext h.tag.symm (Option.some.inj (h.matrix.symm.trans hm))

namespace Decomposer

omit [Eigensolver F] in
theorem sameKey_iff {x y : Tag × Operator F} : sameKey x y = true ↔ x = y := by
  rw [sameKey, Bool.and_eq_true, Bool.and_eq_true, beq_iff_eq, beq_iff_eq, List.all_eq_true]
  constructor
  · rintro ⟨⟨htag, hdim⟩, h⟩
    refine Prod.ext htag (Operator.eq_of_entries hdim (Amplitude.eq_of_identical ?_ ?_))
    · rw [Array.length_toList, Array.length_toList, x.2.size_entries, y.2.size_entries, hdim]
    · exact fun e he => Bool.and_eq_true_iff.mp (h e he)
  · rintro rfl
    refine ⟨⟨rfl, rfl⟩, fun e he => ?_⟩
    rw [List.zip_eq_zipWith, List.zipWith_self, List.mem_map] at he
    obtain ⟨a, -, rfl⟩ := he
    exact Bool.and_eq_true_iff.mpr
      ⟨(Scalar.identical_iff _ _).mpr rfl, (Scalar.identical_iff _ _).mpr rfl⟩

/-- A decomposer works with a tolerance, and what it remembers under a key is what the matrix gives
for every gate of that key. -/
structure Sound (tolerance : F) (d : Decomposer F) : Prop where
  tolerance_eq : d.tolerance = tolerance
  remembered : ∀ e ∈ d.cache, ∀ g : Gate F, g.tag = e.1.1 → g.matrix = some e.1.2 →
    fromMatrix tolerance g e.1.2 = .ok e.2

/-- A sound decomposer that remembers each key of some gates once, and no other. -/
structure Remembers (tolerance : F) (gates : List (Gate F)) (d : Decomposer F) : Prop
    extends d.Sound tolerance where
  nodup : (d.cache.map (·.1)).Nodup
  mem_iff : ∀ key, key ∈ d.cache.map (·.1) ↔ ∃ g ∈ gates, Synthesized tolerance g key

theorem fresh_sound (tolerance : F) : Sound tolerance { tolerance := tolerance } :=
  ⟨rfl, fun _ he => absurd he List.not_mem_nil⟩

theorem fresh_remembers (tolerance : F) : Remembers tolerance [] { tolerance := tolerance } :=
  { fresh_sound tolerance with
    nodup := List.nodup_nil
    mem_iff := fun _ => by simp }

variable {tolerance : F} {d : Decomposer F} {gates : List (Gate F)} {g : Gate F}

omit [Eigensolver F] in
theorem lookup?_eq_some {key : Tag × Operator F} {sequence : Sequence F}
    (h : d.lookup? key = some sequence) : (key, sequence) ∈ d.cache := by
  obtain ⟨e, he, rfl⟩ := Option.map_eq_some_iff.mp h
  have hkey := List.find?_some he
  obtain rfl : e.1 = key := sameKey_iff.mp hkey
  exact List.mem_of_find?_eq_some he

omit [Eigensolver F] in
theorem lookup?_eq_none {key : Tag × Operator F} (h : d.lookup? key = none) :
    key ∉ d.cache.map (·.1) := by
  intro hmem
  obtain ⟨e, he, rfl⟩ := List.mem_map.mp hmem
  exact List.find?_eq_none.mp (Option.map_eq_none_iff.mp h) e he (sameKey_iff.mpr rfl)

/-- What one call does: it answers as if nothing were remembered, and either changes nothing, and
then what the gate's key stands for was there before, or adds that key. -/
theorem decompose_cases (h : d.Sound tolerance) (g : Gate F) :
    (d.decompose g).2 = Synthesis.decompose tolerance g ∧
      (((d.decompose g).1 = d ∧ ∀ key, Synthesized tolerance g key → key ∈ d.cache.map (·.1)) ∨
        ∃ key sequence, Synthesized tolerance g key ∧ key ∉ d.cache.map (·.1) ∧
          fromMatrix tolerance g key.2 = .ok sequence ∧
          (d.decompose g).1 = { d with cache := d.cache ++ [(key, sequence)] }) := by
  obtain ⟨rfl, hremembered⟩ := h
  unfold decompose Synthesis.decompose
  cases hrule : closedForm g with
  | error e =>
    exact ⟨rfl, .inl ⟨rfl, fun _ hkey => absurd hkey.no_rule (by simp [hrule])⟩⟩
  | ok found =>
    cases found with
    | some sequence =>
      exact ⟨rfl, .inl ⟨rfl, fun _ hkey => absurd hkey.no_rule (by simp [hrule])⟩⟩
    | none =>
      simp only [SynthesisError.lift, bind, Except.bind]
      cases hmatrix : g.matrix with
      | none => exact ⟨rfl, .inl ⟨rfl, fun _ hkey => absurd hkey.matrix (by simp [hmatrix])⟩⟩
      | some m =>
        cases hlookup : d.lookup? (g.tag, m) with
        | some sequence =>
          have hmem := lookup?_eq_some hlookup
          simp only [hlookup]
          refine ⟨(hremembered _ hmem g rfl hmatrix).symm, .inl ⟨trivial, fun key hkey => ?_⟩⟩
          rw [hkey.key_eq hmatrix]
          exact List.mem_map_of_mem hmem
        | none =>
          simp only [hlookup]
          cases hfound : fromMatrix d.tolerance g m with
          | error e =>
            refine ⟨rfl, .inl ⟨rfl, fun key hkey => ?_⟩⟩
            obtain ⟨sequence, hsequence⟩ := hkey.found
            simp [hkey.key_eq hmatrix, hfound] at hsequence
          | ok sequence =>
            exact ⟨rfl, .inr ⟨(g.tag, m), sequence, ⟨hrule, rfl, hmatrix, sequence, hfound⟩,
              lookup?_eq_none hlookup, hfound, rfl⟩⟩

theorem Sound.decompose (h : d.Sound tolerance) (g : Gate F) :
    (d.decompose g).1.Sound tolerance := by
  obtain ⟨-, ⟨hsame, -⟩ | ⟨key, sequence, hkey, -, hfound, hadded⟩⟩ := decompose_cases h g
  · rwa [hsame]
  · rw [hadded]
    refine ⟨h.tolerance_eq, fun e he g' htag hmatrix => ?_⟩
    rcases List.mem_append.mp he with he | he
    · exact h.remembered e he g' htag hmatrix
    · obtain rfl := List.mem_singleton.mp he
      rw [fromMatrix_congr tolerance (htag.trans hkey.tag.symm) hmatrix hkey.matrix]
      exact hfound

theorem Remembers.decompose (h : d.Remembers tolerance gates) (g : Gate F) :
    (d.decompose g).1.Remembers tolerance (g :: gates) := by
  have hsound := h.toSound.decompose g
  have hmem (key) : (∃ g' ∈ g :: gates, Synthesized tolerance g' key) ↔
      Synthesized tolerance g key ∨ key ∈ d.cache.map (·.1) := by
    rw [h.mem_iff, List.exists_mem_cons_iff]
  obtain ⟨-, ⟨hsame, hold⟩ | ⟨added, sequence, hadded, hnew, -, hcache⟩⟩ :=
    decompose_cases h.toSound g
  · rw [hsame] at hsound ⊢
    refine ⟨hsound, h.nodup, fun key => ?_⟩
    rw [hmem, or_iff_right_of_imp (hold key)]
  · rw [hcache] at hsound ⊢
    have hkeys : ((d.cache ++ [(added, sequence)]).map (·.1)) = d.cache.map (·.1) ++ [added] :=
      List.map_append
    refine ⟨hsound, ?_, fun key => ?_⟩
    · rw [hkeys]
      exact List.nodup_append_comm.mp (List.nodup_cons.mpr ⟨hnew, h.nodup⟩)
    · rw [hkeys, hmem, List.mem_append, List.mem_singleton, or_comm]
      refine or_congr_left ⟨fun hkey => hkey ▸ hadded, fun hkey => ?_⟩
      rw [hkey.key_eq hadded.matrix, hadded.key_eq hadded.matrix]

def answers (d : Decomposer F) : List (Gate F) →
    Decomposer F × List (Except (SynthesisError F) (Sequence F))
  | [] => (d, [])
  | g :: gates =>
    let rest := (d.decompose g).1.answers gates
    (rest.1, (d.decompose g).2 :: rest.2)

/-- A run answers every gate as if nothing were remembered, and remembers the keys of its gates on
top of those from before. -/
theorem Remembers.answers {old : List (Gate F)} (h : d.Remembers tolerance old)
    (gates : List (Gate F)) :
    (d.answers gates).2 = gates.map (Synthesis.decompose tolerance) ∧
      (d.answers gates).1.Remembers tolerance (gates.reverse ++ old) := by
  induction gates generalizing d old with
  | nil => exact ⟨rfl, h⟩
  | cons g gates ih =>
    obtain ⟨hanswers, hremembers⟩ := ih (h.decompose g)
    refine ⟨?_, ?_⟩
    · rw [Decomposer.answers, hanswers, (decompose_cases h.toSound g).1, List.map_cons]
    · rw [List.reverse_cons, List.append_assoc]
      exact hremembers

theorem Remembers.cached_eq (h : d.Remembers tolerance gates) :
    d.cached = {key | ∃ g ∈ gates, Synthesized tolerance g key}.ncard := by
  classical
  have hkeys : {key | ∃ g ∈ gates, Synthesized tolerance g key} =
      ((d.cache.map (·.1)).toFinset : Set (Tag × Operator F)) := by
    ext key
    rw [Set.mem_ofPred_eq, ← h.mem_iff, List.coe_toFinset, Set.mem_ofPred_eq]
  rw [hkeys, Set.ncard_coe_finset, List.toFinset_card_of_nodup h.nodup, List.length_map, cached]

/-- Remembering changes no answer: each gate of a run is answered as a new decomposer with the same
tolerance answers it. What is remembered are as many sequences as there are different keys among
the gates that were synthesized from their matrices. -/
theorem answers_eq_map_fresh (tolerance : F) (gates : List (Gate F)) :
    let fresh : Decomposer F := { tolerance := tolerance }
    (fresh.answers gates).2 = gates.map (fun g => (fresh.decompose g).2) ∧
      (fresh.answers gates).1.cached =
        {key | ∃ g ∈ gates, Synthesized tolerance g key}.ncard := by
  obtain ⟨hanswers, hremembers⟩ := (fresh_remembers tolerance).answers gates
  refine ⟨?_, ?_⟩
  · rw [hanswers]
    exact List.map_congr_left fun g _ => (decompose_cases (fresh_sound tolerance) g).1.symm
  · simpa using hremembers.cached_eq

end Decomposer

end Synthesis

end Interchange
