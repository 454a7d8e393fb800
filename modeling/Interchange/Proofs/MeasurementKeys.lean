import Mathlib.Algebra.GroupWithZero.Nat
import Mathlib.Data.List.Induction
import Interchange.Proofs.DecodedCircuit
import Interchange.Scalar.Double

namespace Interchange.Cirq

section Blocks

variable {uses blocks : List (String × ℕ)} {key key' : String} {w w' : ℕ}

def firstUses (uses : List (String × ℕ)) : List (String × ℕ) :=
  uses.foldl (fun blocks use => if use.1 ∈ blocks.map Prod.fst then blocks else blocks ++ [use]) []

/-- How many bits lie in the blocks before the one of a key. -/
def offset (blocks : List (String × ℕ)) (key : String) : ℕ :=
  ((blocks.takeWhile fun block => block.1 != key).map Prod.snd).sum

theorem firstUses_concat (uses : List (String × ℕ)) (use : String × ℕ) :
    firstUses (uses ++ [use]) =
      if use.1 ∈ (firstUses uses).map Prod.fst then firstUses uses
      else firstUses uses ++ [use] := by
  rw [firstUses, List.foldl_append]
  rfl

/-- Blocks stay where they are as more keys are used. -/
theorem firstUses_mono (uses later : List (String × ℕ)) :
    firstUses uses <+: firstUses (uses ++ later) := by
  induction later using List.reverseRecOn with
  | nil => simp
  | append_singleton later use ih =>
    rw [← List.append_assoc, firstUses_concat]
    split_ifs
    · exact ih
    · exact ih.trans (List.prefix_append _ _)

theorem mem_firstUses (h : (key, w) ∈ uses) : key ∈ (firstUses uses).map Prod.fst := by
  obtain ⟨before, after, rfl⟩ := List.append_of_mem h
  have hkey : key ∈ (firstUses (before ++ [(key, w)])).map Prod.fst := by
    rw [firstUses_concat]
    split_ifs with hmem
    · exact hmem
    · simp
  have hmono := (firstUses_mono (before ++ [(key, w)]) after).map Prod.fst
  rw [List.append_assoc] at hmono
  exact hmono.subset hkey

theorem nodup_firstUses (uses : List (String × ℕ)) : ((firstUses uses).map Prod.fst).Nodup := by
  induction uses using List.reverseRecOn with
  | nil => exact List.nodup_nil
  | append_singleton uses use ih =>
    rw [firstUses_concat]
    split_ifs with hmem
    · exact ih
    · rw [List.map_append]
      exact List.nodup_append.mpr ⟨ih, List.nodup_singleton _, by
        rintro x hx y hy rfl
        exact hmem (List.mem_singleton.mp hy ▸ hx)⟩

@[simp]
theorem offset_cons (block : String × ℕ) (blocks : List (String × ℕ)) (key : String) :
    offset (block :: blocks) key = if block.1 = key then 0 else block.2 + offset blocks key := by
  by_cases h : block.1 = key <;> simp [offset, h]

theorem offset_append_of_mem (h : key ∈ blocks.map Prod.fst) (more : List (String × ℕ)) :
    offset (blocks ++ more) key = offset blocks key := by
  induction blocks with
  | nil => cases h
  | cons block blocks ih =>
    rw [List.cons_append, offset_cons, offset_cons]
    split_ifs with hkey
    · rfl
    · rw [List.map_cons, List.mem_cons] at h
      rw [ih (h.resolve_left (Ne.symm hkey))]

theorem offset_append_of_not_mem (h : key ∉ blocks.map Prod.fst) (more : List (String × ℕ)) :
    offset (blocks ++ more) key = (blocks.map Prod.snd).sum + offset more key := by
  induction blocks with
  | nil => simp
  | cons block blocks ih =>
    rw [List.map_cons, List.mem_cons, not_or] at h
    rw [List.cons_append, offset_cons, if_neg (Ne.symm h.1), ih h.2, List.map_cons, List.sum_cons,
      Nat.add_assoc]

/-- A block lies within all of them. -/
theorem offset_add_le_sum (h : (key, w) ∈ blocks) (hnodup : (blocks.map Prod.fst).Nodup) :
    offset blocks key + w ≤ (blocks.map Prod.snd).sum := by
  induction blocks with
  | nil => cases h
  | cons block blocks ih =>
    rw [List.map_cons, List.nodup_cons] at hnodup
    rw [offset_cons, List.map_cons, List.sum_cons]
    rcases List.mem_cons.mp h with rfl | hin
    · rw [if_pos rfl]
      omega
    · have hne : block.1 ≠ key := by
        rintro rfl
        exact hnodup.1 (List.mem_map.mpr ⟨_, hin, rfl⟩)
      have := ih hin hnodup.2
      rw [if_neg hne]
      omega

/-- Of two blocks one ends before the other begins. -/
theorem offset_add_le (hnodup : (blocks.map Prod.fst).Nodup) (hw : (key, w) ∈ blocks)
    (hw' : (key', w') ∈ blocks) (hne : key ≠ key') :
    offset blocks key + w ≤ offset blocks key' ∨ offset blocks key' + w' ≤ offset blocks key := by
  induction blocks with
  | nil => cases hw
  | cons block blocks ih =>
    rw [List.map_cons, List.nodup_cons] at hnodup
    have habsent {k : String} {n : ℕ} (hk : (k, n) ∈ blocks) : block.1 ≠ k := by
      rintro rfl
      exact hnodup.1 (List.mem_map.mpr ⟨_, hk, rfl⟩)
    rw [offset_cons, offset_cons]
    rcases List.mem_cons.mp hw with rfl | hin
    · have hin' := List.mem_of_ne_of_mem (fun heq => hne (congrArg Prod.fst heq).symm) hw'
      rw [if_pos rfl, if_neg (habsent hin')]
      omega
    rcases List.mem_cons.mp hw' with rfl | hin'
    · rw [if_pos rfl, if_neg (habsent hin)]
      omega
    · rw [if_neg (habsent hin), if_neg (habsent hin')]
      have := ih hnodup.2 hin hin'
      omega

end Blocks

variable {F : Type}

def Operation.key (o : Operation F) : String := o.gate.key.getD "m"

def Operation.namedBit? (o : Operation F) : Option ℕ :=
  if o.qubits.length = 1 then explicitBit? o.key else none

def Operation.IsMeasurement (o : Operation F) : Prop := o.gate.type = "MeasurementGate"

instance (o : Operation F) : Decidable o.IsMeasurement :=
  inferInstanceAs (Decidable (o.gate.type = "MeasurementGate"))

def measurements (os : List (Operation F)) : List (Operation F) :=
  os.filter fun o => o.IsMeasurement

def blockUses (os : List (Operation F)) : List (String × ℕ) :=
  ((measurements os).filter fun o => o.namedBit? = none).map fun o => (o.key, o.qubits.length)

namespace Document

variable (d : Document F)

/-- Blocks come after every bit that a key names. -/
def firstFreeBit : ℕ :=
  ((measurements d.operations).filterMap (·.namedBit?)).max?.elim 0 (· + 1)

/-- The blocks of the keys that name no bit, in the order of their first use and as wide as
there. -/
def blocks : List (String × ℕ) := firstUses (blockUses d.operations)

def blockStart (key : String) : ℕ := d.firstFreeBit + offset d.blocks key

/-- From the start of its key's block on there is an index for each qubit of a measurement. -/
def Fits (o : Operation F) : Prop :=
  d.blockStart o.key + o.qubits.length < Number.indexLimit

instance (o : Operation F) : Decidable (d.Fits o) := inferInstanceAs (Decidable (_ < _))

/-- The bits that a measurement writes: the one that its key names, or as many as there are qubits
from the start of the block of its key. If these do not fit it writes none. -/
def bits (o : Operation F) : List ℕ :=
  match o.namedBit? with
  | some bit => [bit]
  | none => if d.Fits o then List.range' (d.blockStart o.key) o.qubits.length else []

/-- A measurement writes the first bit of another key's block. -/
def RunsInto (o o' : Operation F) : Prop :=
  o.namedBit? = none ∧ o'.namedBit? = none ∧ d.Fits o ∧ d.Fits o' ∧ o'.qubits ≠ [] ∧
    d.blockStart o.key ≤ d.blockStart o'.key ∧
    d.blockStart o'.key < d.blockStart o.key + o.qubits.length

/-- A measurement of more qubits than its key had when it was given its block. -/
def Widens (o : Operation F) : Prop :=
  ∃ w, (o.key, w) ∈ d.blocks ∧ w < o.qubits.length

end Document

/-- The instructions of a measurement write these bits, and those of anything else no bit. -/
def Operation.Records (o : Operation F) (bits : List ℕ) (is : List (Instruction F)) : Prop :=
  if o.IsMeasurement then
    is = ((o.qubits.map (·.x)).zip bits).map fun pair => .measure pair.1 pair.2
  else ∀ i ∈ is, i.clbits = []

theorem blockUses_append (os os' : List (Operation F)) :
    blockUses (os ++ os') = blockUses os ++ blockUses os' := by
  simp [blockUses, measurements]

theorem blockUses_concat (os : List (Operation F)) (o : Operation F) :
    blockUses (os ++ [o]) =
      if o.IsMeasurement ∧ o.namedBit? = none then blockUses os ++ [(o.key, o.qubits.length)]
      else blockUses os := by
  rw [blockUses_append]
  by_cases hm : o.IsMeasurement <;> by_cases hn : o.namedBit? = none <;>
    simp [blockUses, measurements, hm, hn]

theorem mem_blockUses {os : List (Operation F)} {o : Operation F} (ho : o ∈ measurements os)
    (hn : o.namedBit? = none) : (o.key, o.qubits.length) ∈ blockUses os :=
  List.mem_map.mpr ⟨o, List.mem_filter.mpr ⟨ho, decide_eq_true hn⟩, rfl⟩

section Keys

variable {s s' : KeyBits} {start : ℕ}

/-- Blocks have been handed out from a bit on. -/
structure KeyBits.Holds (start : ℕ) (blocks : List (String × ℕ)) (s : KeyBits) : Prop where
  next : s.next = start + (blocks.map Prod.snd).sum
  next_lt : s.next < Number.indexLimit
  assigned : ∀ key, s.assigned.lookup key =
    if key ∈ blocks.map Prod.fst then some (start + offset blocks key) else none

variable {d : Document F}

theorem KeyBits.holds_of_start (h : KeyBits.start d = .ok s) : s.Holds d.firstFreeBit [] := by
  have hnamed : (d.operations.filterMap fun o =>
      if o.gate.type = "MeasurementGate" ∧ o.qubits.length = 1 then o.gate.key.bind explicitBit?
      else none) = (measurements d.operations).filterMap (·.namedBit?) := by
    rw [measurements, List.filterMap_filter]
    congr 1
    funext o
    by_cases hm : o.gate.type = "MeasurementGate" <;> by_cases hw : o.qubits.length = 1 <;>
      simp [Operation.IsMeasurement, Operation.namedBit?, Operation.key, hm, hw]
    cases o.gate.key <;> rfl
  unfold KeyBits.start at h
  dsimp only at h
  rw [hnamed] at h
  unfold Document.firstFreeBit
  split at h
  next hmax =>
    cases h
    exact ⟨by rw [hmax]; rfl, by decide, fun key => rfl⟩
  next k hmax =>
    split_ifs at h with hroom
    cases h
    exact ⟨by rw [hmax]; rfl, hroom, fun key => rfl⟩

theorem KeyBits.block_eq {first width : ℕ} (hfirst : first < Number.indexLimit)
    (hwidth : width < Number.indexLimit) :
    block first width =
      if first + width < Number.indexLimit then List.range' first width else [] := by
  unfold block
  split_ifs with hfits
  · rw [Nat.mod_eq_of_lt hfits, Nat.add_sub_cancel_left]
  · -- the end has wrapped round to an index before the first one
    rw [Nat.mod_eq_sub_mod (by omega), Nat.mod_eq_of_lt (by omega),
      show first + width - Number.indexLimit - first = 0 by omega]
    rfl

theorem KeyBits.Holds.append {blocks : List (String × ℕ)} {key : String} {width : ℕ}
    (hs : s.Holds start blocks) (hkey : key ∉ blocks.map Prod.fst)
    (hroom : s.next + width < Number.indexLimit) :
    KeyBits.Holds start (blocks ++ [(key, width)])
      ⟨(key, s.next) :: s.assigned, s.next + width⟩ where
  next := by simp [hs.next, Nat.add_assoc]
  next_lt := hroom
  assigned key' := by
    rw [List.lookup_cons]
    by_cases hsame : key' = key
    · subst hsame
      simp [offset_append_of_not_mem hkey, hs.next]
    · rw [show (key' == key) = false from beq_false_of_ne hsame]
      dsimp only
      rw [hs.assigned]
      by_cases hmem : key' ∈ blocks.map Prod.fst
      · rw [if_pos hmem, if_pos (by rw [List.map_append]; exact List.mem_append_left _ hmem),
          offset_append_of_mem hmem]
      · rw [if_neg hmem, if_neg]
        rw [List.map_append, List.mem_append, not_or]
        exact ⟨hmem, mt List.mem_singleton.mp hsame⟩

/-- A key that names no bit is given its block, a new one at the end. -/
theorem KeyBits.Holds.bits {uses : List (String × ℕ)} {key : String} {width : ℕ} {bits : List ℕ}
    (hs : s.Holds start (firstUses uses)) (hwidth : width < Number.indexLimit)
    (hnamed : (if width = 1 then explicitBit? key else none) = none)
    (h : s.bits (F := F) key width = .ok (s', bits)) :
    s'.Holds start (firstUses (uses ++ [(key, width)])) ∧
      bits = if start + offset (firstUses (uses ++ [(key, width)])) key + width < Number.indexLimit
        then List.range' (start + offset (firstUses (uses ++ [(key, width)])) key) width
        else [] := by
  unfold KeyBits.bits at h
  rw [hnamed, hs.assigned] at h
  rw [firstUses_concat]
  by_cases hkey : key ∈ (firstUses uses).map Prod.fst
  · rw [if_pos hkey] at h ⊢
    cases h
    obtain ⟨⟨_, w⟩, hw, rfl⟩ := List.mem_map.mp hkey
    have hstart := offset_add_le_sum hw (nodup_firstUses uses)
    dsimp only
    have hnext := hs.next
    have hlt := hs.next_lt
    exact ⟨hs, block_eq (by omega) hwidth⟩
  · rw [if_neg hkey] at h ⊢
    dsimp only at h
    split_ifs at h with hroom
    cases h
    have hoffset : offset (firstUses uses ++ [(key, width)]) key =
        ((firstUses uses).map Prod.snd).sum := by
      rw [offset_append_of_not_mem hkey]
      simp
    refine ⟨hs.append hkey hroom, ?_⟩
    rw [hoffset, ← hs.next]
    exact block_eq hs.next_lt hwidth

/-- The bits of a measurement are those that it has in the whole document. -/
theorem KeyBits.Holds.bits_eq {done rest : List (Operation F)} {o : Operation F} {bits : List ℕ}
    (hd : done ++ o :: rest = d.operations)
    (hs : s.Holds d.firstFreeBit (firstUses (blockUses done))) (hm : o.IsMeasurement)
    (hwidth : o.qubits.length < Number.indexLimit)
    (h : s.bits (F := F) o.key o.qubits.length = .ok (s', bits)) :
    s'.Holds d.firstFreeBit (firstUses (blockUses (done ++ [o]))) ∧ bits = d.bits o := by
  rw [blockUses_concat]
  cases hn : o.namedBit? with
  | some bit =>
    unfold KeyBits.bits at h
    rw [show (if o.qubits.length = 1 then explicitBit? o.key else none) = some bit from hn] at h
    cases h
    rw [if_neg (by simp), Document.bits, hn]
    exact ⟨hs, rfl⟩
  | none =>
    obtain ⟨hs', rfl⟩ := hs.bits hwidth hn h
    rw [if_pos ⟨hm, rfl⟩, Document.bits, hn]
    refine ⟨hs', ?_⟩
    -- keys that are used later get blocks behind this one
    have huses : blockUses d.operations =
        blockUses done ++ [(o.key, o.qubits.length)] ++ blockUses rest := by
      rw [← hd, List.append_cons, blockUses_append, blockUses_concat, if_pos ⟨hm, hn⟩]
    obtain ⟨more, hmore⟩ :=
      firstUses_mono (blockUses done ++ [(o.key, o.qubits.length)]) (blockUses rest)
    have hstart : d.blockStart o.key = d.firstFreeBit +
        offset (firstUses (blockUses done ++ [(o.key, o.qubits.length)])) o.key := by
      rw [Document.blockStart, Document.blocks, huses, ← hmore,
        offset_append_of_mem (mem_firstUses (List.mem_append_right _ List.mem_cons_self))]
    simp only [Document.Fits, hstart]

variable [Scalar F] [Numeral F]

theorem Operation.records_of_read {done rest : List (Operation F)} {o : Operation F}
    {c c' : Circuit F} (hd : done ++ o :: rest = d.operations)
    (hwidth : o.IsMeasurement → o.qubits.length < Number.indexLimit)
    (hs : s.Holds d.firstFreeBit (firstUses (blockUses done)))
    (h : o.read (c, s) = .ok (c', s')) :
    s'.Holds d.firstFreeBit (firstUses (blockUses (done ++ [o]))) ∧
      ∃ is, o.Records (d.bits o) is ∧ c.Grows is c' := by
  obtain ⟨hm, bits, hbits, hgrows⟩ | ⟨hm, rfl, is, hgrows, hclbits⟩ := grows_of_read h
  · change o.IsMeasurement at hm
    rw [Nat.mod_eq_of_lt (hwidth hm)] at hbits
    obtain ⟨hs', rfl⟩ := hs.bits_eq hd hm (hwidth hm) hbits
    refine ⟨hs', _, ?_, hgrows⟩
    rw [Records, if_pos hm]
  · change ¬o.IsMeasurement at hm
    rw [blockUses_concat, if_neg (fun hmeasure => hm hmeasure.1)]
    refine ⟨hs, is, ?_, hgrows⟩
    rwa [Records, if_neg hm]

/-- What a decoded document records, and that its blocks end before the last index. -/
theorem exists_records_of_decode {c : Circuit F}
    (hwidth : ∀ o ∈ measurements d.operations, o.qubits.length < Number.indexLimit)
    (h : decode d = .ok c) :
    d.firstFreeBit + (d.blocks.map Prod.snd).sum < Number.indexLimit ∧
    ∃ blocks, List.Forall₂ (fun o is => o.Records (d.bits o) is) d.operations blocks ∧
      c.instructions = blocks.flatten := by
  obtain ⟨width, keys, keys', hkeys, hrun⟩ := exists_keys_of_decode h
  obtain ⟨hend, blocks, hblocks, hgrows⟩ := Circuit.foldlM_grows
    (I := fun done s => s.2.Holds d.firstFreeBit (firstUses (blockUses done))) Prod.fst
    (fun done o rest s s' hd hs ho => Operation.records_of_read hd
      (fun hm => hwidth o (List.mem_filter.mpr ⟨by simp [← hd], decide_eq_true hm⟩)) hs ho)
    (KeyBits.holds_of_start hkeys) hrun
  exact ⟨hend.next ▸ hend.next_lt, blocks, hblocks, hgrows.instructions⟩

end Keys

namespace Document

variable {d : Document F} {o o' : Operation F}

theorem namedBit_lt_firstFreeBit {bit : ℕ} (ho : o ∈ measurements d.operations)
    (hbit : o.namedBit? = some bit) : bit < d.firstFreeBit := by
  have hmem : bit ∈ (measurements d.operations).filterMap (·.namedBit?) :=
    List.mem_filterMap.mpr ⟨o, ho, hbit⟩
  unfold firstFreeBit
  cases hmax : ((measurements d.operations).filterMap (·.namedBit?)).max? with
  | none =>
    rw [List.max?_eq_none_iff.mp hmax] at hmem
    cases hmem
  | some top => exact Nat.lt_succ_of_le ((List.max?_eq_some_iff.mp hmax).2 bit hmem)

theorem mem_bits_iff {bit : ℕ} : bit ∈ d.bits o ↔ o.namedBit? = some bit ∨
    o.namedBit? = none ∧ d.Fits o ∧ d.blockStart o.key ≤ bit ∧
      bit < d.blockStart o.key + o.qubits.length := by
  unfold bits
  cases o.namedBit? with
  | some k => simp [eq_comm]
  | none => by_cases hfits : d.Fits o <;> simp [hfits]

/-- What two measurements must have in common to write the same bit. -/
theorem not_disjoint_bits_iff (ho : o ∈ measurements d.operations)
    (ho' : o' ∈ measurements d.operations) :
    ¬(d.bits o).Disjoint (d.bits o') ↔
      (∃ bit, o.namedBit? = some bit ∧ o'.namedBit? = some bit) ∨
        d.RunsInto o o' ∨ d.RunsInto o' o := by
  have hshared : ¬(d.bits o).Disjoint (d.bits o') ↔ ∃ bit, bit ∈ d.bits o ∧ bit ∈ d.bits o' := by
    simp [List.disjoint_left]
  have hfree (key : String) : d.firstFreeBit ≤ d.blockStart key := Nat.le_add_right _ _
  rw [hshared]
  constructor
  · rintro ⟨bit, hbit, hbit'⟩
    rw [mem_bits_iff] at hbit hbit'
    obtain hnamed | ⟨hn, hf, hle, hlt⟩ := hbit <;> obtain hnamed' | ⟨hn', hf', hle', hlt'⟩ := hbit'
    · exact .inl ⟨bit, hnamed, hnamed'⟩
    · exact absurd (namedBit_lt_firstFreeBit ho hnamed) (by have := hfree o'.key; omega)
    · exact absurd (namedBit_lt_firstFreeBit ho' hnamed') (by have := hfree o.key; omega)
    · have hempty : o.qubits ≠ [] := List.ne_nil_of_length_pos (by omega)
      have hempty' : o'.qubits ≠ [] := List.ne_nil_of_length_pos (by omega)
      rcases Nat.le_total (d.blockStart o.key) (d.blockStart o'.key) with h | h
      · exact .inr (.inl ⟨hn, hn', hf, hf', hempty', h, by omega⟩)
      · exact .inr (.inr ⟨hn', hn, hf', hf, hempty, h, by omega⟩)
  · rintro (⟨bit, h, h'⟩ | ⟨hn, hn', hf, hf', hempty, hle, hlt⟩ |
      ⟨hn', hn, hf', hf, hempty, hle, hlt⟩)
    · exact ⟨bit, mem_bits_iff.mpr (.inl h), mem_bits_iff.mpr (.inl h')⟩
    all_goals have hpos := List.length_pos_iff.mpr hempty
    · exact ⟨d.blockStart o'.key, mem_bits_iff.mpr (.inr ⟨hn, hf, hle, hlt⟩),
        mem_bits_iff.mpr (.inr ⟨hn', hf', Nat.le_refl _, by omega⟩)⟩
    · exact ⟨d.blockStart o.key, mem_bits_iff.mpr (.inr ⟨hn, hf, Nat.le_refl _, by omega⟩),
        mem_bits_iff.mpr (.inr ⟨hn', hf', hle, hlt⟩)⟩

theorem exists_block (ho : o ∈ measurements d.operations) (hn : o.namedBit? = none) :
    ∃ w, (o.key, w) ∈ d.blocks := by
  obtain ⟨⟨_, w⟩, hw, rfl⟩ := List.mem_map.mp (mem_firstUses (mem_blockUses ho hn))
  exact ⟨w, hw⟩

/-- A measurement runs into another key's block only if one of the two is wider than the block of
its own key. -/
theorem widens_of_runsInto (ho : o ∈ measurements d.operations)
    (ho' : o' ∈ measurements d.operations) (hne : o.key ≠ o'.key) (h : d.RunsInto o o') :
    d.Widens o ∨ d.Widens o' := by
  obtain ⟨hn, hn', -, -, hempty, hle, hlt⟩ := h
  obtain ⟨w, hw⟩ := exists_block ho hn
  obtain ⟨w', hw'⟩ := exists_block ho' hn'
  have hpos := List.length_pos_iff.mpr hempty
  unfold blockStart at hle hlt
  rcases offset_add_le (nodup_firstUses _) hw hw' hne with hbefore | hafter
  · exact .inl ⟨w, hw, by unfold blocks at hle hlt; omega⟩
  · exact .inr ⟨w', hw', by unfold blocks at hle hlt; omega⟩

/-- A measurement has a bit for each qubit, or it is wider than the block of its key and has
none. -/
theorem length_bits_or_widens
    (hblocks : d.firstFreeBit + (d.blocks.map Prod.snd).sum < Number.indexLimit)
    (ho : o ∈ measurements d.operations) :
    (d.bits o).length = o.qubits.length ∨ d.bits o = [] ∧ d.Widens o := by
  unfold bits
  cases hn : o.namedBit? with
  | some bit =>
    unfold Operation.namedBit? at hn
    split_ifs at hn with hone
    exact .inl hone.symm
  | none =>
    by_cases hfits : d.Fits o
    · simp [hfits]
    · -- the block itself fits, so the measurement has more qubits
      obtain ⟨w, hw⟩ := exists_block ho hn
      have hle := offset_add_le_sum hw (nodup_firstUses _)
      have hlimit : Number.indexLimit ≤ d.blockStart o.key + o.qubits.length :=
        Nat.le_of_not_lt hfits
      unfold blockStart at hlimit
      unfold blocks at hlimit hblocks hle
      exact .inr ⟨if_neg hfits, w, hw, by omega⟩

end Document

variable [Scalar F] [Numeral F]

/-- Which bits measurements write: one for each qubit, or none if a key's block was handed out for
fewer qubits and the rest would pass the last index. Measurements of different keys share a bit if
both name it, or if one runs into the block of the other, and in no other case. Then one of the two
is wider than the block of its own key. -/
theorem decode_shares_bits_iff {d : Document F} {c : Circuit F}
    (hwidth : ∀ o ∈ measurements d.operations, o.qubits.length < Number.indexLimit)
    (h : decode d = .ok c) :
    (∃ blocks, List.Forall₂ (fun o is => o.Records (d.bits o) is) d.operations blocks ∧
      c.instructions = blocks.flatten) ∧
    (∀ o ∈ measurements d.operations,
      (d.bits o).length = o.qubits.length ∨ d.bits o = [] ∧ d.Widens o) ∧
    ∀ o ∈ measurements d.operations, ∀ o' ∈ measurements d.operations, o.key ≠ o'.key →
      (¬(d.bits o).Disjoint (d.bits o') ↔
        (∃ bit, o.namedBit? = some bit ∧ o'.namedBit? = some bit) ∨
          d.RunsInto o o' ∨ d.RunsInto o' o) ∧
      (d.RunsInto o o' → d.Widens o ∨ d.Widens o') := by
  obtain ⟨hblocks, hrecords⟩ := exists_records_of_decode hwidth h
  refine ⟨hrecords, fun o => Document.length_bits_or_widens hblocks, fun o ho o' ho' hne => ?_⟩
  exact ⟨Document.not_disjoint_bits_iff ho ho', Document.widens_of_runsInto ho ho' hne⟩

def Operation.measuring (key : String) (xs : List ℕ) : Operation Float :=
  { gate := { type := "MeasurementGate", key := some key }, qubits := xs.map fun x => { x := x } }

/-- Two spellings of one bit, and a key that is used again for fewer qubits. -/
def respelled : Document Float where
  moments := [{ operations := [.measuring "c2" [0], .measuring "result" [1, 2]] },
    { operations := [.measuring "c02" [1], .measuring "result" [2]] }]

theorem decode_shares_bits_respelled :
    decode respelled = .ok { qubits := 3, clbits := 5, instructions :=
      [.measure 0 2, .measure 1 3, .measure 2 4, .measure 1 2, .measure 2 3] } ∧
    ¬(respelled.bits (.measuring "c2" [0])).Disjoint (respelled.bits (.measuring "c02" [1])) ∧
    (respelled.bits (.measuring "c2" [0])).Disjoint
      (respelled.bits (.measuring "result" [1, 2])) := by
  have h : decode respelled = .ok { qubits := 3, clbits := 5, instructions :=
    [.measure 0 2, .measure 1 3, .measure 2 4, .measure 1 2, .measure 2 3] } := rfl
  obtain ⟨-, -, hpairs⟩ := decode_shares_bits_iff (by decide) h
  have hfirst : .measuring "c2" [0] ∈ measurements respelled.operations := .head _
  refine ⟨h, ?_, ?_⟩
  · exact (hpairs _ hfirst _ (.tail _ (.tail _ (.head _))) (by decide)).1.mpr (.inl ⟨2, rfl, rfl⟩)
  · by_contra hshared
    rcases (hpairs _ hfirst _ (.tail _ (.head _)) (by decide)).1.mp hshared with
      ⟨_, -, hnamed⟩ | ⟨hnone, -⟩ | ⟨-, hnone, -⟩
    · cases hnamed
    · cases hnone
    · cases hnone

/-- A block at the end of the indices, used again for five qubits: nothing is measured. -/
example : decode { moments := [{ operations := [.measuring "c4294967290" [0], .measuring "a" [0],
      .measuring "a" [0, 1, 2, 3, 4]] }] } =
    .ok { qubits := 5, clbits := 4294967292, instructions :=
      [.measure 0 4294967290, .measure 0 4294967291] } := rfl

/-- One key is used again for two qubits after another one had its first use. -/
def widened : Document Float where
  moments := [{ operations := [.measuring "a" [0], .measuring "b" [1]] },
    { operations := [.measuring "a" [0, 1]] }]

theorem decode_widened :
    decode widened = .ok { qubits := 2, clbits := 2, instructions :=
      [.measure 0 0, .measure 1 1, .measure 0 0, .measure 1 1] } ∧
    ∃ o ∈ measurements widened.operations, ∃ o' ∈ measurements widened.operations,
      o.key ≠ o'.key ∧ widened.bits o = [0, 1] ∧ widened.bits o' = [1] :=
  ⟨rfl, .measuring "a" [0, 1], .tail _ (.tail _ (.head _)), .measuring "b" [1],
    .tail _ (.head _), by decide, rfl, rfl⟩

end Interchange.Cirq
