import Mathlib.Data.List.Chain
import Mathlib.Order.Bounds.Basic
import Mathlib.Order.MinMax
import Interchange.Circuit.Stats
import Interchange.Proofs.Construction
import Interchange.Scalar.Double

namespace Interchange

theorem isGreatest_foldl_max (ns : List ℕ) : IsGreatest {n | n = 0 ∨ n ∈ ns} (ns.foldl max 0) := by
  suffices h : ∀ m, IsGreatest {n | n = m ∨ n ∈ ns} (ns.foldl max m) from h 0
  induction ns with
  | nil => exact fun m => ⟨.inl rfl, fun n hn => (hn.resolve_right List.not_mem_nil).le⟩
  | cons n ns ih =>
    intro m
    obtain ⟨hmem, hmax⟩ := ih (max m n)
    rw [List.foldl_cons]
    refine ⟨?_, ?_⟩
    · rcases hmem with heq | hmem
      · rcases max_choice m n with hm | hn
        · exact .inl (heq.trans hm)
        · exact .inr (List.mem_cons.mpr (.inl (heq.trans hn)))
      · exact .inr (List.mem_cons_of_mem n hmem)
    · have hfirst := hmax (.inl rfl)
      rintro x (rfl | hx)
      · exact (le_max_left x n).trans hfirst
      · rcases List.mem_cons.mp hx with rfl | hx
        · exact (le_max_right m x).trans hfirst
        · exact hmax (.inr hx)

variable {F : Type}

def Instruction.SharesQubit (i j : Instruction F) : Prop := ∃ q ∈ i.qubits, q ∈ j.qubits

/-- Instructions of a list, in its order, each of which shares a qubit with the one before. -/
structure DependencyChain (is chain : List (Instruction F)) : Prop where
  sublist : chain.Sublist is
  shares : chain.IsChain Instruction.SharesQubit

namespace DependencyChain

variable {is chain : List (Instruction F)} {i : Instruction F}

theorem nil (is : List (Instruction F)) : DependencyChain is [] :=
  ⟨List.nil_sublist is, .nil⟩

theorem concat (h : DependencyChain is chain) (hlast : ∀ j ∈ chain.getLast?, j.SharesQubit i) :
    DependencyChain (is ++ [i]) (chain ++ [i]) := by
  refine ⟨h.sublist.append_right [i], h.shares.append (.singleton i) ?_⟩
  intro j hj k hk
  obtain rfl : i = k := Option.some.inj hk
  exact hlast j hj

/-- A chain of a list that is one longer leaves the last instruction out, or ends with it. -/
theorem concat_iff : DependencyChain (is ++ [i]) chain ↔
    DependencyChain is chain ∨ ∃ before, chain = before ++ [i] ∧ DependencyChain is before ∧
      ∀ j ∈ before.getLast?, j.SharesQubit i := by
  constructor
  · rintro ⟨hsublist, hshares⟩
    obtain ⟨before, last, rfl, hbefore, hlast⟩ := List.sublist_append_iff.mp hsublist
    rcases List.sublist_singleton.mp hlast with rfl | rfl
    · rw [List.append_nil] at hshares ⊢
      exact .inl ⟨hbefore, hshares⟩
    · obtain ⟨hchain, -, hlink⟩ := List.isChain_append.mp hshares
      exact .inr ⟨before, rfl, ⟨hbefore, hchain⟩, fun j hj => hlink j hj i rfl⟩
  · rintro (h | ⟨before, rfl, h, hlast⟩)
    · exact ⟨h.sublist.trans (List.sublist_append_left is [i]), h.shares⟩
    · exact h.concat hlast

end DependencyChain

def chainLengths (is : List (Instruction F)) : Set ℕ :=
  {k | ∃ chain, DependencyChain is chain ∧ chain.length = k}

/-- The lengths of the chains that end on a qubit, the empty one included. -/
def chainLengthsOn (q : ℕ) (is : List (Instruction F)) : Set ℕ :=
  {k | ∃ chain, DependencyChain is chain ∧ (∀ i ∈ chain.getLast?, q ∈ i.qubits) ∧
    chain.length = k}

namespace Circuit

/-- The state of the pass over the instructions: every qubit's layer is the length of the longest
chain that ends on it, and the highest layer that of the longest chain of all. -/
structure Layered (is : List (Instruction F)) (state : (ℕ → ℕ) × ℕ) : Prop where
  layer (q : ℕ) : IsGreatest (chainLengthsOn q is) (state.1 q)
  highest : IsGreatest (chainLengths is) state.2

variable {is : List (Instruction F)} {state : (ℕ → ℕ) × ℕ}

theorem layered_nil : Layered ([] : List (Instruction F)) (fun _ => 0, 0) := by
  have hempty {chain : List (Instruction F)} (h : DependencyChain [] chain) : chain.length = 0 :=
    List.length_eq_zero_iff.mpr (List.sublist_nil.mp h.sublist)
  refine ⟨fun q => ⟨⟨[], .nil [], by simp, rfl⟩, ?_⟩, ⟨[], .nil [], rfl⟩, ?_⟩
  · rintro k ⟨chain, h, -, rfl⟩
    exact (hempty h).le
  · rintro k ⟨chain, h, rfl⟩
    exact (hempty h).le

namespace Layered

theorem length_le (h : Layered is state) {chain : List (Instruction F)} {i : Instruction F} {q : ℕ}
    (hchain : DependencyChain is chain) (hlast : chain.getLast? = some i) (hq : q ∈ i.qubits) :
    chain.length ≤ state.1 q := by
  refine (h.layer q).2 ⟨chain, hchain, fun j hj => ?_, rfl⟩
  obtain rfl : i = j := Option.some.inj (hlast.symm.trans hj)
  exact hq

/-- The layer of the next instruction is one more than the longest chain that it can follow. -/
theorem isGreatest_next (h : Layered is state) (i : Instruction F) :
    IsGreatest {k | ∃ chain, DependencyChain is chain ∧
        (∀ j ∈ chain.getLast?, j.SharesQubit i) ∧ chain.length + 1 = k}
      ((i.qubits.map state.1).foldl max 0 + 1) := by
  obtain ⟨hmem, hmax⟩ := isGreatest_foldl_max (i.qubits.map state.1)
  refine ⟨?_, ?_⟩
  · rcases hmem with hzero | hmem
    · exact ⟨[], .nil is, by simp, by rw [hzero, List.length_nil]⟩
    · obtain ⟨q, hq, heq⟩ := List.mem_map.mp hmem
      obtain ⟨chain, hchain, hlast, hlength⟩ := (h.layer q).1
      exact ⟨chain, hchain, fun j hj => ⟨q, hlast j hj, hq⟩, by rw [hlength, heq]⟩
  · rintro k ⟨chain, hchain, hlast, rfl⟩
    apply Nat.succ_le_succ
    cases hlink : chain.getLast? with
    | none =>
      rw [List.getLast?_eq_none_iff.mp hlink]
      exact Nat.zero_le _
    | some j =>
      obtain ⟨q, hqj, hqi⟩ := hlast j hlink
      exact (h.length_le hchain hlink hqj).trans (hmax (.inr (List.mem_map_of_mem hqi)))

theorem nextLayer (h : Layered is state) (i : Instruction F) :
    Layered (is ++ [i]) (nextLayer state i) := by
  have hnext := h.isGreatest_next i
  simp only [Circuit.nextLayer]
  generalize (i.qubits.map state.1).foldl max 0 + 1 = next at hnext
  obtain ⟨⟨before, hbefore, hlink, hlength⟩, hmax⟩ := hnext
  have hlonger : DependencyChain (is ++ [i]) (before ++ [i]) := hbefore.concat hlink
  refine ⟨fun q => ?_, ?_⟩
  · by_cases hq : q ∈ i.qubits
    · -- a chain that ends on this qubit without the instruction can be followed by it
      simp only [List.contains_iff_mem, hq, ↓reduceIte]
      refine ⟨⟨before ++ [i], hlonger, by simpa using hq, by simpa using hlength⟩, ?_⟩
      rintro k ⟨chain, hchain, hlast, rfl⟩
      rcases DependencyChain.concat_iff.mp hchain with hchain | ⟨start, rfl, hstart, hlink⟩
      · exact (Nat.le_succ _).trans (hmax ⟨chain, hchain, fun j hj => ⟨q, hlast j hj, hq⟩, rfl⟩)
      · exact hmax ⟨start, hstart, hlink, by simp⟩
    · simp only [List.contains_iff_mem, hq, ↓reduceIte]
      obtain ⟨⟨chain, hchain, hlast, hlength⟩, hbound⟩ := h.layer q
      refine ⟨⟨chain, DependencyChain.concat_iff.mpr (.inl hchain), hlast, hlength⟩, ?_⟩
      rintro k ⟨chain, hchain, hlast, rfl⟩
      rcases DependencyChain.concat_iff.mp hchain with hchain | ⟨start, rfl, -, -⟩
      · exact hbound ⟨chain, hchain, hlast, rfl⟩
      · exact absurd (hlast i (by simp)) hq
  · obtain ⟨⟨chain, hchain, hhighest⟩, hbound⟩ := h.highest
    refine ⟨?_, ?_⟩
    · rcases max_choice state.2 next with heq | heq <;> rw [heq]
      · exact ⟨chain, DependencyChain.concat_iff.mpr (.inl hchain), hhighest⟩
      · exact ⟨before ++ [i], hlonger, by simpa using hlength⟩
    · rintro k ⟨chain, hchain, rfl⟩
      rcases DependencyChain.concat_iff.mp hchain with hchain | ⟨start, rfl, hstart, hlink⟩
      · exact (hbound ⟨chain, hchain, rfl⟩).trans (le_max_left _ _)
      · exact (hmax ⟨start, hstart, hlink, by simp⟩).trans (le_max_right _ _)

end Layered

def layers (is : List (Instruction F)) : (ℕ → ℕ) × ℕ := is.foldl nextLayer (fun _ => 0, 0)

theorem layered_layers (is : List (Instruction F)) : Layered is (layers is) := by
  induction is using List.reverseRecOn with
  | nil => exact layered_nil
  | append_singleton is i ih =>
    rw [layers, List.foldl_concat]
    exact ih.nextLayer i

/-- Where every instruction acts on some qubit of the register, the register reaches the highest
layer. -/
theorem foldl_max_layers {c : Circuit F} (hw : c.WellFormed)
    (hacts : ∀ i ∈ c.instructions, 0 < i.gate.qubits) :
    ((List.range c.qubits).map (layers c.instructions).1).foldl max 0 = c.depth := by
  have h := layered_layers c.instructions
  obtain ⟨hmem, hmax⟩ := isGreatest_foldl_max
    ((List.range c.qubits).map (layers c.instructions).1)
  apply le_antisymm
  · rcases hmem with hzero | hmem
    · rw [hzero]
      exact Nat.zero_le _
    · obtain ⟨q, -, hq⟩ := List.mem_map.mp hmem
      obtain ⟨chain, hchain, -, hlength⟩ := (h.layer q).1
      exact h.highest.2 ⟨chain, hchain, hlength.trans hq⟩
  · obtain ⟨chain, hchain, hlength⟩ := h.highest.1
    change (layers c.instructions).2 ≤ _
    rw [← hlength]
    cases hlast : chain.getLast? with
    | none =>
      rw [List.getLast?_eq_none_iff.mp hlast]
      exact Nat.zero_le _
    | some i =>
      have hi : i ∈ c.instructions := hchain.sublist.subset (List.mem_of_getLast? hlast)
      have hpos : 0 < i.qubits.length := (hw i hi).length_eq ▸ hacts i hi
      obtain ⟨q, hq⟩ := List.exists_mem_of_length_pos hpos
      have hrange : q ∈ List.range c.qubits := List.mem_range.mpr ((hw i hi).lt q hq)
      exact (h.length_le hchain hlast hq).trans (hmax (.inr (List.mem_map_of_mem hrange)))

/-- The depth is the length of the longest chain, and zero only where there is no instruction. A
qubit of the register is in the highest layer, since all instructions act on some of them. -/
theorem depth_isGreatest (c : Circuit F) :
    IsGreatest (chainLengths c.instructions) c.depth ∧
      (c.depth = 0 ↔ c.instructions = []) ∧
      (c.WellFormed → (∀ i ∈ c.instructions, 0 < i.gate.qubits) →
        ((List.range c.qubits).map (layers c.instructions).1).foldl max 0 = c.depth) := by
  have hdepth : IsGreatest (chainLengths c.instructions) c.depth :=
    (layered_layers c.instructions).highest
  refine ⟨hdepth, ⟨fun hzero => ?_, fun hempty => ?_⟩, foldl_max_layers⟩
  · -- a single instruction is a chain
    by_contra hne
    obtain ⟨i, hi⟩ := List.exists_mem_of_ne_nil _ hne
    have hone := hdepth.2 ⟨[i], ⟨List.singleton_sublist.mpr hi, .singleton i⟩, rfl⟩
    rw [hzero] at hone
    exact absurd hone (Nat.not_succ_le_zero 0)
  · rw [depth, hempty]
    rfl

/-- Two chains of three instructions part after the second one. -/
def parting : Circuit Float where
  qubits := 5
  clbits := 1
  instructions := [.fixed .h [3], .fixed .cx [3, 1], .fixed .x [0], .fixed .ccx [0, 2, 1],
    .measure 3 0]

theorem depth_parting :
    parting.depth = 3 ∧ IsGreatest (chainLengths parting.instructions) 3 ∧
      parting.WellFormed ∧
      ((List.range 5).map (layers parting.instructions).1).foldl max 0 = 3 := by
  have hdepth : parting.depth = 3 := rfl
  have hacts : ∀ i ∈ parting.instructions, 0 < i.gate.qubits := by
    simp [parting, Instruction.fixed, Instruction.measure, Gate.measure, Gate.qubits, Tag.qubits?]
  have hw : parting.WellFormed := by
    intro i hi
    simp only [parting, List.mem_cons, List.not_mem_nil, or_false] at hi
    rcases hi with rfl | rfl | rfl | rfl | rfl <;> exact ⟨rfl, by decide, by decide⟩
  obtain ⟨hgreatest, -, hregister⟩ := depth_isGreatest parting
  exact ⟨hdepth, hdepth ▸ hgreatest, hw, (hregister hw hacts).trans hdepth⟩

end Circuit

end Interchange
