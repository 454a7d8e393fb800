import Mathlib.Data.List.Induction
import Mathlib.Data.List.Nodup
import Interchange.Proofs.TokenText
import Interchange.Qasm.Printer
import Interchange.Qasm.Scope

namespace Interchange.Qasm
open Lexeme

structure IsName (cs : List Char) : Prop where
  starts : ∃ c tail, cs = c :: tail ∧ startsWord c = true ∧ ∀ d ∈ tail, continuesWord d = true
  free : Keyword.ofText? (String.ofList cs) = none

theorem ofText?_of_underscore {cs : List Char} (h : '_' ∈ cs) :
    Keyword.ofText? (String.ofList cs) = none := by
  rw [Keyword.ofText?, List.find?_eq_none]
  intro k _ hk
  have ht : k.text.toList = cs := by
    rw [beq_iff_eq.mp hk, String.toList_ofList]
  rw [← ht] at h
  revert h
  cases k <;> decide

theorem startsWord_of_continuesWord {c : Char} (h : continuesWord c = true)
    (hd : c.isDigit = false) : startsWord c = true := by
  simpa [continuesWord, startsWord, Char.isAlphanum, hd] using h

theorem isName_underscore {cs : List Char} (h : ∀ c ∈ cs, continuesWord c = true) :
    IsName ('_' :: cs) :=
  ⟨⟨'_', cs, rfl, by decide, h⟩, ofText?_of_underscore List.mem_cons_self⟩

theorem isName_identifierFor (name : String) : IsName (identifierFor name) := by
  have hall : ∀ c ∈ name.toList.map fun c => if continuesWord c then c else '_',
      continuesWord c = true := by
    intro c hc
    obtain ⟨d, _, rfl⟩ := List.mem_map.mp hc
    split
    next h => exact h
    next => decide
  unfold identifierFor
  dsimp only
  generalize name.toList.map (fun c => if continuesWord c then c else '_') = cs at hall ⊢
  split
  next => exact isName_underscore hall
  next h =>
    simp only [Bool.or_eq_true, not_or, Bool.not_eq_true, Option.isSome_eq_false_iff,
      Option.isNone_iff_eq_none] at h
    obtain ⟨⟨hne, hd⟩, hk⟩ := h
    cases cs with
    | nil => cases hne
    | cons c tail =>
      have hc := startsWord_of_continuesWord (hall c List.mem_cons_self) hd
      exact ⟨⟨c, tail, rfl, hc, fun d hd => hall d (List.mem_cons_of_mem _ hd)⟩, hk⟩

theorem IsName.append_underscore {cs : List Char} (h : IsName cs) : IsName (cs ++ ['_']) := by
  obtain ⟨⟨c, tail, rfl, hc, htail⟩, -⟩ := h
  refine ⟨⟨c, tail ++ ['_'], rfl, hc, ?_⟩, ofText?_of_underscore (by simp)⟩
  intro d hd
  rcases List.mem_append.mp hd with hd | hd
  · exact htail d hd
  · obtain rfl := List.mem_singleton.mp hd
    decide

theorem isName_makeFresh {used : List String} {n : ℕ} {cs : List Char} (h : IsName cs) :
    IsName (makeFresh used n cs).toList := by
  induction n generalizing cs with
  | zero => simpa [makeFresh] using h
  | succ n ih =>
    rw [makeFresh]
    split
    next => exact ih h.append_underscore
    next => simpa using h

/-- Each step passes one of the used names that are no shorter, so it takes at most as many steps as
there are of them. -/
theorem makeFresh_notMem {used : List String} {n : ℕ} {cs : List Char}
    (h : (used.filter fun s => decide (cs.length ≤ s.toList.length)).length ≤ n) :
    makeFresh used n cs ∉ used := by
  induction n generalizing cs with
  | zero =>
    intro hmem
    have hnil := List.length_eq_zero_iff.mp (Nat.le_zero.mp h)
    refine List.filter_eq_nil_iff.mp hnil _ hmem ?_
    simp [makeFresh]
  | succ n ih =>
    rw [makeFresh]
    split
    next hmem =>
      -- The candidate is one of the used names that are no shorter, and it is not longer.
      have hlt : ((used.filter fun s => decide (cs.length ≤ s.toList.length)).filter
          fun s => decide (cs.length + 1 ≤ s.toList.length)).length <
          (used.filter fun s => decide (cs.length ≤ s.toList.length)).length := by
        rw [List.length_filter_lt_length_iff_exists]
        refine ⟨String.ofList cs, List.mem_filter.mpr ⟨by simpa using hmem, by simp⟩, by simp⟩
      have hsame : (used.filter fun s => decide (cs.length ≤ s.toList.length)).filter
          (fun s => decide (cs.length + 1 ≤ s.toList.length)) =
          used.filter fun s => decide ((cs ++ ['_']).length ≤ s.toList.length) := by
        rw [List.filter_filter, List.length_append]
        refine List.filter_congr fun s _ => ?_
        rw [← Bool.decide_and]
        congr 1
        simp only [List.length_singleton, eq_iff_iff]
        omega
      rw [hsame] at hlt
      exact ih (by omega)
    next hmem => simpa using hmem

theorem identifierFor_of_isName {name : String} (h : IsName name.toList) :
    identifierFor name = name.toList := by
  obtain ⟨⟨c, tail, hname, hc, htail⟩, hfree⟩ := h
  have hdigit : c.isDigit = false := by
    by_contra hd
    rw [startsWord_of_isDigit (by simpa using hd)] at hc
    cases hc
  have hkeep : name.toList.map (fun c => if continuesWord c then c else '_') = name.toList := by
    have hword : continuesWord c = true := by
      simpa [continuesWord, startsWord, Char.isAlphanum, hdigit] using hc
    rw [List.map_congr_left (g := id) fun d hd => ?_, List.map_id]
    refine if_pos ?_
    rw [hname] at hd
    rcases List.mem_cons.mp hd with rfl | hd
    · exact hword
    · exact htail d hd
  unfold identifierFor
  dsimp only
  rw [hkeep, hfree, hname]
  simp [hdigit]

/-- Whatever is replaced or put in front leaves an underscore. -/
theorem toList_of_identifierFor {name : String} (h : '_' ∉ identifierFor name) :
    identifierFor name = name.toList := by
  unfold identifierFor at h ⊢
  dsimp only at h ⊢
  split_ifs at h ⊢ with hbad
  · exact absurd List.mem_cons_self h
  · refine (List.map_congr_left (g := id) fun c hc => ?_).trans (List.map_id _)
    by_contra hne
    have hreplaced : continuesWord c ≠ true := fun hword => hne (if_pos hword)
    exact h (List.mem_map.mpr ⟨c, hc, if_neg hreplaced⟩)

theorem makeFresh_eq_append (used : List String) (n : ℕ) (cs : List Char) :
    ∃ k, makeFresh used n cs = String.ofList (cs ++ List.replicate k '_') := by
  induction n generalizing cs with
  | zero => exact ⟨0, by simp [makeFresh]⟩
  | succ n ih =>
    rw [makeFresh]
    split
    next =>
      obtain ⟨k, hk⟩ := ih (cs ++ ['_'])
      exact ⟨k + 1, by rw [hk, List.append_assoc, List.replicate_succ]; rfl⟩
    next => exact ⟨0, by simp⟩

theorem makeFresh_of_notMem {used : List String} {cs : List Char}
    (h : String.ofList cs ∉ used) (n : ℕ) : makeFresh used n cs = String.ofList cs := by
  cases n with
  | zero => rfl
  | succ n => rw [makeFresh, if_neg (by simpa using h)]

theorem nameInputs_append (inputs : List Handle) (r : Handle) :
    nameInputs (inputs ++ [r]) = nameInputs inputs ++
      [(r.id, makeFresh ((nameInputs inputs).map Prod.snd) ((nameInputs inputs).map Prod.snd).length
        (identifierFor r.name))] := by
  rw [nameInputs, List.foldl_append]
  rfl

theorem map_fst_nameInputs (inputs : List Handle) :
    (nameInputs inputs).map Prod.fst = inputs.map Handle.id := by
  induction inputs using List.reverseRecOn with
  | nil => rfl
  | append_singleton inputs r ih =>
    rw [nameInputs_append, List.map_append, List.map_append, ih]
    rfl

theorem isName_of_mem_nameInputs {inputs : List Handle} {entry : ℕ × String}
    (h : entry ∈ nameInputs inputs) : IsName entry.2.toList := by
  induction inputs using List.reverseRecOn with
  | nil => cases h
  | append_singleton inputs r ih =>
    rw [nameInputs_append] at h
    rcases List.mem_append.mp h with h | h
    · exact ih h
    · rw [List.mem_singleton.mp h]
      exact isName_makeFresh (isName_identifierFor r.name)

theorem nodup_nameInputs (inputs : List Handle) : ((nameInputs inputs).map Prod.snd).Nodup := by
  induction inputs using List.reverseRecOn with
  | nil => exact List.nodup_nil
  | append_singleton inputs r ih =>
    rw [nameInputs_append, List.map_append, List.map_singleton, List.nodup_append]
    -- as many steps are allowed as there are names in use
    refine ⟨ih, List.nodup_singleton _, ?_⟩
    rintro name hname _ hfresh rfl
    rw [List.mem_singleton.mp hfresh] at hname
    exact makeFresh_notMem (List.length_filter_le _ _) hname

/-- An identifier without underscores is used just when an input has it as its name. -/
theorem mem_nameInputs_iff {inputs : List Handle} {name : String} (hname : IsName name.toList)
    (hplain : '_' ∉ name.toList) :
    name ∈ (nameInputs inputs).map Prod.snd ↔ ∃ r ∈ inputs, r.name = name := by
  induction inputs using List.reverseRecOn with
  | nil => simp [nameInputs]
  | append_singleton inputs r ih =>
    let used := (nameInputs inputs).map Prod.snd
    have hfresh : name = makeFresh used used.length (identifierFor r.name) → r.name = name := by
      intro h
      obtain ⟨k, hk⟩ := makeFresh_eq_append used used.length (identifierFor r.name)
      rw [h, hk, String.toList_ofList, List.mem_append, not_or] at hplain
      have hzero : k = 0 := by
        by_contra hne
        exact hplain.2 (List.mem_replicate.mpr ⟨hne, rfl⟩)
      rw [h, hk, hzero, List.replicate_zero, List.append_nil, toList_of_identifierFor hplain.1,
        String.ofList_toList]
    rw [nameInputs_append, List.map_append, List.mem_append, ih, List.map_singleton,
      List.mem_singleton]
    constructor
    · rintro (⟨s, hs, rfl⟩ | h)
      · exact ⟨s, List.mem_append_left _ hs, rfl⟩
      · exact ⟨r, List.mem_append_right _ (List.mem_singleton_self r), hfresh h⟩
    · rintro ⟨s, hs, rfl⟩
      by_cases hused : s.name ∈ used
      · exact .inl (ih.mp hused)
      rcases List.mem_append.mp hs with hs | hs
      · exact .inl ⟨s, hs, rfl⟩
      · obtain rfl := List.mem_singleton.mp hs
        refine .inr ?_
        rw [identifierFor_of_isName hname, makeFresh_of_notMem (by rwa [String.ofList_toList]),
          String.ofList_toList]

theorem lookup_of_nodup {α β : Type} [BEq α] [LawfulBEq α] {l : List (α × β)} {k : α} {v : β}
    (hl : (l.map Prod.fst).Nodup) (h : (k, v) ∈ l) : l.lookup k = some v := by
  induction l with
  | nil => cases h
  | cons entry l ih =>
    obtain ⟨hentry, hl⟩ := List.nodup_cons.mp hl
    rcases List.mem_cons.mp h with rfl | h
    · exact List.lookup_cons_self
    · have hne : k ≠ entry.1 := by
        rintro rfl
        exact hentry (List.mem_map.mpr ⟨_, h, rfl⟩)
      rw [List.lookup_cons, beq_eq_false_iff_ne.mpr hne]
      exact ih hl h

/-- Each input bound to the identifier that it is declared by. -/
def declared (F : Type) (inputs : List Handle) : List (String × Param F) :=
  List.zipWith (fun r n => (n.2, .ref r)) inputs (nameInputs inputs)

/-- The identifier of an input leads back to it. -/
theorem exists_identifier {F : Type} {inputs : List Handle}
    (hids : (inputs.map Handle.id).Nodup) {r : Handle} (hr : r ∈ inputs) :
    ∃ name, (nameInputs inputs).lookup r.id = some name ∧ IsName name.toList ∧
      (declared F inputs).lookup name = some (.ref r) := by
  have hlen : (nameInputs inputs).length = inputs.length := by
    simpa using congrArg List.length (map_fst_nameInputs inputs)
  obtain ⟨i, hi, rfl⟩ := List.getElem_of_mem hr
  have hi' : i < (nameInputs inputs).length := hlen ▸ hi
  have hmem : (nameInputs inputs)[i] ∈ nameInputs inputs := List.getElem_mem hi'
  have hid : (nameInputs inputs)[i].1 = inputs[i].id := by
    have h := congrArg (fun l => l[i]?) (map_fst_nameInputs inputs)
    simpa [hi, hi'] using h
  have hkeys : (declared F inputs).map Prod.fst = (nameInputs inputs).map Prod.snd := by
    rw [declared, List.map_zipWith]
    refine List.ext_getElem (by simp [hlen]) fun j _ _ => ?_
    simp
  refine ⟨(nameInputs inputs)[i].2, lookup_of_nodup ?_ ?_, isName_of_mem_nameInputs hmem,
    lookup_of_nodup ?_ ?_⟩
  · rwa [map_fst_nameInputs]
  · rw [← hid]
    exact hmem
  · rw [hkeys]
    exact nodup_nameInputs inputs
  · have hi'' : i < (declared F inputs).length := by
      rw [declared, List.length_zipWith]
      omega
    exact List.mem_iff_getElem.mpr ⟨i, hi'', by simp [declared]⟩

end Interchange.Qasm
