import Mathlib.Data.List.Induction
import Mathlib.Data.List.Nodup
import Interchange.IonQ.Circuit

namespace Interchange

/-- Items by a key that no two of them share, in the order in which they entered. -/
structure Index {α K : Type} (key : α → K) where
  items : List α
  nodup : (items.map key).Nodup

namespace Index

variable {α K : Type} {key : α → K}

def keys (m : Index key) : List K := m.items.map key

def size (m : Index key) : ℕ := m.items.length

theorem nodup_concat (m : Index key) {a : α} (h : key a ∉ m.keys) :
    ((m.items ++ [a]).map key).Nodup := by
  rw [List.map_append, List.map_singleton, ← List.concat_eq_append]
  exact m.nodup.concat h

variable [DecidableEq K]

def find? (m : Index key) (k : K) : Option α := m.items.find? (key · == k)

def insertNew (m : Index key) (a : α) : Index key :=
  if h : key a ∈ m.keys then m else ⟨m.items ++ [a], m.nodup_concat h⟩

def ofList (key : α → K) (l : List α) : Index key := l.foldl insertNew ⟨[], List.nodup_nil⟩

theorem insertNew_of_mem {m : Index key} {a : α} (h : key a ∈ m.keys) : m.insertNew a = m :=
  dif_pos h

theorem items_insertNew {m : Index key} {a : α} (h : key a ∉ m.keys) :
    (m.insertNew a).items = m.items ++ [a] := by
  rw [insertNew, dif_neg h]

theorem ofList_concat (l : List α) (a : α) :
    ofList key (l ++ [a]) = (ofList key l).insertNew a := by
  rw [ofList, List.foldl_append]
  rfl

theorem eraseDups_concat (ks : List K) (k : K) :
    (ks ++ [k]).eraseDups = if k ∈ ks then ks.eraseDups else ks.eraseDups ++ [k] := by
  rw [List.eraseDups_append, List.removeAll]
  split_ifs with h
  · rw [List.filter_cons_of_neg (by simpa using h)]
    simp
  · rw [List.filter_cons_of_pos (by simpa using h)]
    simp [List.eraseDups_cons]

/-- What holds of the index while it is filled, once the items `l` have been read: only the first
item of a key is found, and a repeated key leaves the index smaller than the list for good. -/
structure Holds (l : List α) (m : Index key) : Prop where
  find? (k : K) : m.find? k = l.find? (key · == k)
  keys : m.keys = (l.map key).eraseDups
  size_le : m.size ≤ l.length
  size_eq_iff : m.size = l.length ↔ (l.map key).Nodup

theorem Holds.nil : Holds [] (⟨[], List.nodup_nil⟩ : Index key) where
  find? _ := rfl
  keys := rfl
  size_le := Nat.le_refl 0
  size_eq_iff := by simp [size]

theorem Holds.mem_keys {l : List α} {m : Index key} (h : Holds l m) {k : K} :
    k ∈ m.keys ↔ k ∈ l.map key := by
  rw [h.keys, List.mem_eraseDups]

/-- An item whose key was read before changes nothing: the earlier item is the one found. -/
theorem Holds.concat_of_mem {l : List α} {m : Index key} (h : Holds l m) {a : α}
    (ha : key a ∈ l.map key) : Holds (l ++ [a]) m where
  find? k := by
    rw [List.find?_append, h.find?]
    by_cases hk : key a = k
    · have hsome : (l.find? (key · == k)).isSome := by
        obtain ⟨b, hb, hba⟩ := List.mem_map.mp ha
        exact List.find?_isSome.mpr ⟨b, hb, beq_iff_eq.mpr (hba.trans hk)⟩
      rw [Option.or_of_isSome hsome]
    · simp [hk]
  keys := by
    rw [List.map_append, List.map_singleton, eraseDups_concat, if_pos ha, h.keys]
  size_le := by
    have := h.size_le
    rw [List.length_append]
    omega
  size_eq_iff := by
    -- the list outgrows the index here, and the index never catches up
    have hlt : m.size ≠ (l ++ [a]).length := by
      have := h.size_le
      rw [List.length_append, List.length_singleton]
      omega
    have hdup : ¬((l ++ [a]).map key).Nodup := by
      rw [List.map_append, List.nodup_append]
      rintro ⟨-, -, hne⟩
      exact hne _ ha _ (List.mem_singleton_self _) rfl
    exact iff_of_false hlt hdup

/-- An item with a new key enters, and the index grows by one as the list does. -/
theorem Holds.concat_of_notMem {l : List α} {m : Index key} (h : Holds l m) {a : α}
    (ha : key a ∉ l.map key) : Holds (l ++ [a]) (m.insertNew a) := by
  have hitems := items_insertNew (mt h.mem_keys.mp ha)
  have hsize : (m.insertNew a).size = m.size + 1 := by
    rw [size, hitems, List.length_append]
    rfl
  refine ⟨fun k => ?_, ?_, ?_, ?_⟩
  · rw [Index.find?, hitems, List.find?_append, List.find?_append]
    exact congrArg (Option.or · _) (h.find? k)
  · rw [Index.keys, hitems, List.map_append, List.map_append, List.map_singleton,
      eraseDups_concat, if_neg ha, ← h.keys, Index.keys]
  · rw [hsize, List.length_append]
    exact Nat.succ_le_succ h.size_le
  · rw [hsize, List.length_append, List.length_singleton, Nat.add_right_cancel_iff, h.size_eq_iff,
      List.map_append, List.map_singleton, ← List.concat_eq_append, List.nodup_concat]
    exact (and_iff_right ha).symm

theorem Holds.insertNew {l : List α} {m : Index key} (h : Holds l m) (a : α) :
    Holds (l ++ [a]) (m.insertNew a) := by
  by_cases ha : key a ∈ l.map key
  · rw [insertNew_of_mem (h.mem_keys.mpr ha)]
    exact h.concat_of_mem ha
  · exact h.concat_of_notMem ha

theorem holds_ofList (l : List α) : Holds l (ofList key l) := by
  -- from the end, since the items read so far are the start of the list
  induction l using List.reverseRecOn with
  | nil => exact .nil
  | append_singleton l a ih =>
    rw [ofList_concat]
    exact ih.insertNew a

theorem size_ofList (l : List α) : (ofList key l).size = (l.map key).eraseDups.length := by
  rw [← (holds_ofList l).keys]
  exact (List.length_map _).symm

theorem find?_ofList_eq_none_iff {l : List α} {k : K} :
    (ofList key l).find? k = none ↔ ∀ a ∈ l, key a ≠ k := by
  rw [(holds_ofList l).find?, List.find?_eq_none]
  simp

section

variable {V : Type} {value : α → V} {l : List α} {k : K} {v : V} {a : α}

/-- The value found is that of the first item of the key, where key and value make the item. -/
theorem map_find?_ofList_eq_some_iff (ha : ∀ b, b = a ↔ key b = k ∧ value b = v) :
    ((ofList key l).find? k).map value = some v ↔
      ∃ before after, l = before ++ a :: after ∧ ∀ b ∈ before, key b ≠ k := by
  obtain ⟨hkey, hvalue⟩ := (ha a).mp rfl
  simp only [(holds_ofList l).find?, Option.map_eq_some_iff, List.find?_eq_some_iff_append,
    beq_iff_eq, Bool.not_eq_true', beq_eq_false_iff_ne]
  constructor
  · rintro ⟨b, ⟨hb, hfirst⟩, hv⟩
    obtain rfl := (ha b).mpr ⟨hb, hv⟩
    exact hfirst
  · intro hfirst
    exact ⟨a, ⟨hkey, hfirst⟩, hvalue⟩

/-- Without a repeated key the first item of a key is the only one. -/
theorem map_find?_ofList_of_nodup (ha : ∀ b, b = a ↔ key b = k ∧ value b = v)
    (hl : (l.map key).Nodup) : ((ofList key l).find? k).map value = some v ↔ a ∈ l := by
  rw [map_find?_ofList_eq_some_iff ha]
  constructor
  · rintro ⟨before, after, rfl, -⟩
    exact List.mem_append_right before List.mem_cons_self
  · intro hmem
    obtain ⟨before, after, rfl⟩ := List.append_of_mem hmem
    refine ⟨before, after, rfl, fun b hb => ?_⟩
    rw [List.map_append, List.nodup_append] at hl
    rw [← ((ha a).mp rfl).1]
    exact hl.2.2 _ (List.mem_map_of_mem hb) _ List.mem_cons_self

end

end Index

namespace GateTable

variable (t : GateTable)

def byTag : Index (Prod.fst : Tag × String → Tag) := .ofList Prod.fst t.entries

def byName : Index (Prod.snd : Tag × String → String) := .ofList Prod.snd t.entries

theorem native?_eq_find?_byTag (tag : Tag) : t.native? tag = (t.byTag.find? tag).map Prod.snd := by
  rw [byTag, (Index.holds_ofList t.entries).find?, native?]
  induction t.entries with
  | nil => rfl
  | cons e es ih =>
    rw [List.lookup_cons, List.find?_cons, ih, BEq.comm]
    cases e.1 == tag <;> rfl

theorem tag?_eq_find?_byName (name : String) :
    t.tag? name = (t.byName.find? name).map Prod.fst := by
  rw [byName, (Index.holds_ofList t.entries).find?, tag?]

theorem native?_eq_some_iff (tag : Tag) (name : String) : t.native? tag = some name ↔
    ∃ before after, t.entries = before ++ (tag, name) :: after ∧ ∀ e ∈ before, e.1 ≠ tag := by
  rw [native?_eq_find?_byTag]
  exact Index.map_find?_ofList_eq_some_iff fun _ => Prod.ext_iff

theorem tag?_eq_some_iff (name : String) (tag : Tag) : t.tag? name = some tag ↔
    ∃ before after, t.entries = before ++ (tag, name) :: after ∧ ∀ e ∈ before, e.2 ≠ name := by
  rw [tag?_eq_find?_byName]
  exact Index.map_find?_ofList_eq_some_iff fun _ => Prod.ext_iff.trans and_comm

theorem native?_eq_none_iff (tag : Tag) :
    t.native? tag = none ↔ ∀ e ∈ t.entries, e.1 ≠ tag := by
  rw [native?_eq_find?_byTag, Option.map_eq_none_iff]
  exact Index.find?_ofList_eq_none_iff

theorem tag?_eq_none_iff (name : String) :
    t.tag? name = none ↔ ∀ e ∈ t.entries, e.2 ≠ name := by
  rw [tag?_eq_find?_byName, Option.map_eq_none_iff]
  exact Index.find?_ofList_eq_none_iff

/-- The test for bijectivity looks at nothing but the sizes of the two maps. -/
theorem isBijective_iff_size : t.isBijective = true ↔
    t.byTag.size = t.entries.length ∧ t.byName.size = t.entries.length := by
  rw [byTag, byName, Index.size_ofList, Index.size_ofList, isBijective, Bool.and_eq_true,
    beq_iff_eq, beq_iff_eq]

theorem isBijective_iff_nodup : t.isBijective = true ↔
    (t.entries.map Prod.fst).Nodup ∧ (t.entries.map Prod.snd).Nodup :=
  t.isBijective_iff_size.trans
    (and_congr (Index.holds_ofList t.entries).size_eq_iff
      (Index.holds_ofList t.entries).size_eq_iff)

/-- The test for bijectivity finds every repeated tag and name, and a table that passes it pairs
tags with names as its entries do, in both directions. In any table the first entry of a tag gives
its name, and the first entry of a name its tag. -/
theorem isBijective_lookups :
    (t.isBijective = true ↔ (t.entries.map Prod.fst).Nodup ∧ (t.entries.map Prod.snd).Nodup) ∧
    (t.isBijective = true → ∀ tag name,
      (t.native? tag = some name ↔ t.tag? name = some tag) ∧
      (t.tag? name = some tag ↔ (tag, name) ∈ t.entries)) ∧
    (∀ tag name, t.native? tag = some name ↔
      ∃ before after, t.entries = before ++ (tag, name) :: after ∧ ∀ e ∈ before, e.1 ≠ tag) ∧
    (∀ tag, t.native? tag = none ↔ ∀ e ∈ t.entries, e.1 ≠ tag) ∧
    (∀ name tag, t.tag? name = some tag ↔
      ∃ before after, t.entries = before ++ (tag, name) :: after ∧ ∀ e ∈ before, e.2 ≠ name) ∧
    (∀ name, t.tag? name = none ↔ ∀ e ∈ t.entries, e.2 ≠ name) := by
  refine ⟨t.isBijective_iff_nodup, fun h tag name => ?_, t.native?_eq_some_iff,
    t.native?_eq_none_iff, t.tag?_eq_some_iff, t.tag?_eq_none_iff⟩
  obtain ⟨htags, hnames⟩ := t.isBijective_iff_nodup.mp h
  have hnative : t.native? tag = some name ↔ (tag, name) ∈ t.entries := by
    rw [native?_eq_find?_byTag]
    exact Index.map_find?_ofList_of_nodup (fun _ => Prod.ext_iff) htags
  have htag : t.tag? name = some tag ↔ (tag, name) ∈ t.entries := by
    rw [tag?_eq_find?_byName]
    exact Index.map_find?_ofList_of_nodup (fun _ => Prod.ext_iff.trans and_comm) hnames
  exact ⟨hnative.trans htag.symm, htag⟩

/-- The gates of a framework form a bijection, and a name given twice is noticed and stays with its
first tag. -/
theorem isBijective_lookups_ionq :
    (IonQ.table.isBijective = true ∧ ∀ tag name,
      (IonQ.table.native? tag = some name ↔ IonQ.table.tag? name = some tag) ∧
      (IonQ.table.tag? name = some tag ↔ (tag, name) ∈ IonQ.table.entries)) ∧
    (GateTable.mk .qiskit [(.h, "h"), (.x, "h")] false false).isBijective = false ∧
    (GateTable.mk .qiskit [(.h, "h"), (.x, "h")] false false).tag? "h" = some .h := by
  have hionq : IonQ.table.isBijective = true := by decide
  refine ⟨⟨hionq, IonQ.table.isBijective_lookups.2.1 hionq⟩, by decide, ?_⟩
  exact ((isBijective_lookups _).2.2.2.2.1 "h" .h).mpr ⟨[], [(.x, "h")], rfl, by simp⟩

end GateTable

end Interchange
