import Interchange.Proofs.DenseLayout
import Interchange.Proofs.LoweringCoverage

namespace Interchange.Circuit

section Transforms

variable {F : Type}

/-- Circuits as they are built: registers without instructions, to which instructions and parameters
are added. -/
inductive Built : Circuit F → Prop
  | start (qubits clbits : ℕ) : Built { qubits := qubits, clbits := clbits }
  | push {c c' : Circuit F} {i : Instruction F} (h : Built c)
      (hi : Instruction.checkOperands i.gate i.qubits = .ok ()) (hc : c.push i = .ok c') : Built c'
  | declare {c : Circuit F} (h : Built c) (registry : Registry) :
      Built { c with registry := registry }

/-- What is done to a circuit that has been built. -/
inductive Transform (F : Type)
  | compress (reverse : Bool)
  | expandIdentity
  | bind (bindings : Bindings F)
  | lower (table : GateTable) (bindings : Bindings F) (tolerance : F)
  | shape (qubits : ℕ)
  | remap (place : ℕ → ℕ)

def Transform.Gives [Scalar F] [Eigensolver F] (c c' : Circuit F) : Transform F → Prop
  | .compress reverse => c.compress reverse = .ok c'
  | .expandIdentity => c.expandIdentity = .ok c'
  | .bind b => c.bind b = .ok c'
  | .lower table b tolerance => Lowering.circuit table b tolerance c = .ok c'
  | .shape n => c.withShape n c.instructions = .ok c'
  | .remap place => (c.instructions.mapM (·.remap place) >>= c.withInstructions) = .ok c'

/-- A transform that leaves no qubit idle where none was: it drops no measurement of a qubit that is
only measured, adds no qubit, and moves no two qubits to one. -/
def Transform.Keeps (c : Circuit F) : Transform F → Prop
  | .compress _ | .expandIdentity | .bind _ => True
  | .lower table _ _ => table.implicitMeasurement = true → ∀ q < c.qubits, c.Acts q
  | .shape n => n = c.qubits
  | .remap place => Set.InjOn place (Finset.range c.qubits)

/-- Circuits that come by transforms of a kind from those to start with. -/
inductive Reached [Scalar F] [Eigensolver F] (start : Circuit F → Prop)
    (P : Circuit F → Transform F → Prop) : Circuit F → Prop
  | start {c : Circuit F} (h : start c) : Reached start P c
  | step {c c' : Circuit F} {t : Transform F} (h : Reached start P c) (ht : P c t)
      (hc : t.Gives c c') : Reached start P c'

/-- Circuits that have no layout yet, or one that was just given to them. -/
def Fresh (c : Circuit F) : Prop :=
  Built c ∨ ∃ (c₀ : Circuit F) (reverse : Bool),
    c₀.layout ≠ some reverse ∧ c₀.compress reverse = .ok c

def Covered (c : Circuit F) : Prop := ∀ q < c.qubits, ∃ i ∈ c.instructions, q ∈ i.qubits

/-- What the layout of a circuit promises. -/
structure LayoutHolds (c : Circuit F) : Prop where
  wellFormed : c.WellFormed
  covered : c.layout ≠ none → c.Covered

/-- What a transform does to a register: operands stay valid, the layout is that of before or one
that holds, and the qubits all stay in use just if the transform keeps them. -/
structure Transform.Effect (c c' : Circuit F) (t : Transform F) : Prop where
  wellFormed : c'.WellFormed
  layout : c'.layout = c.layout ∨ c'.layout ≠ none ∧ c'.Covered
  covered : c.Covered → (c'.Covered ↔ t.Keeps c)

variable {c c' : Circuit F}

theorem covered_iff_referenced (hw : c.WellFormed) :
    c.Covered ↔ c.referenced = List.range c.qubits := by
  constructor
  · intro h
    refine referenced_eq_range fun q => ⟨?_, h q⟩
    rintro ⟨i, hi, hq⟩
    exact (hw i hi).lt q hq
  · intro h q hq
    rw [← mem_referenced, h]
    exact List.mem_range.mpr hq

theorem Covered.of_forall_mem (h : c.Covered) (hqubits : c'.qubits = c.qubits)
    (hmem : ∀ i ∈ c.instructions, ∀ q ∈ i.qubits, ∃ j ∈ c'.instructions, q ∈ j.qubits) :
    c'.Covered := by
  intro q hq
  obtain ⟨i, hi, hqi⟩ := h q (hqubits ▸ hq)
  exact hmem i hi q hqi

theorem Built.wellFormed (h : Built c) : c.WellFormed ∧ c.layout = none := by
  induction h with
  | start => exact ⟨fun i hi => absurd hi List.not_mem_nil, rfl⟩
  | @push c c' i _ hi hc ih =>
    obtain ⟨hw, hlayout⟩ := ih
    obtain ⟨hrange, rfl⟩ := push_eq_ok_iff.mp hc
    refine ⟨fun j hj => ?_, hlayout⟩
    rcases List.mem_append.mp hj with hj | hj
    · exact hw j hj
    · obtain rfl := List.mem_singleton.mp hj
      obtain ⟨hlength, hnodup⟩ := Instruction.checkOperands_eq_ok_iff.mp hi
      exact ⟨hlength, hnodup, hrange⟩
  | declare _ _ ih => exact ih

theorem compress_cases {reverse : Bool} (hc : c.compress reverse = .ok c') :
    c'.layout = some reverse ∧ (c' = c ∨ c.layout ≠ some reverse ∧ c'.WellFormed ∧ c'.Covered) := by
  by_cases hlayout : c.layout = some reverse
  · rw [compress, if_pos hlayout] at hc
    obtain rfl := Except.ok.inj hc
    exact ⟨hlayout, .inl rfl⟩
  · obtain ⟨hw, rfl⟩ := (compress_eq_ok_iff hlayout).mp hc
    exact ⟨rfl, .inr ⟨hlayout, hw, (covered_iff_referenced hw).mpr (c.referenced_dense reverse)⟩⟩

theorem Fresh.layoutHolds (h : c.Fresh) : c.LayoutHolds := by
  rcases h with hbuilt | ⟨c₀, reverse, hlayout, hc⟩
  · exact ⟨hbuilt.wellFormed.1, fun h => absurd hbuilt.wellFormed.2 h⟩
  · obtain ⟨hmarked, rfl | ⟨-, hw, hcovered⟩⟩ := compress_cases hc
    · exact absurd hmarked hlayout
    · exact ⟨hw, fun _ => hcovered⟩

namespace Transform

theorem effect_compress {reverse : Bool} (hw : c.WellFormed) (hc : c.compress reverse = .ok c') :
    Effect c c' (.compress reverse) := by
  obtain ⟨hmarked, rfl | ⟨-, hw', hcovered⟩⟩ := compress_cases hc
  · exact ⟨hw, .inl rfl, fun h => iff_of_true h trivial⟩
  · exact ⟨hw', .inr ⟨by simp [hmarked], hcovered⟩, fun _ => iff_of_true hcovered trivial⟩

theorem effect_shape {n : ℕ} (hw : c.WellFormed) (hc : c.withShape n c.instructions = .ok c') :
    Effect c c' (.shape n) := by
  obtain ⟨hrange, rfl⟩ := withShape_eq_ok_iff.mp hc
  refine ⟨fun i hi => ⟨(hw i hi).length_eq, (hw i hi).nodup, hrange i hi⟩, .inl rfl,
    fun h => ⟨fun h' => ?_, fun hn q hq => h q (hn ▸ hq)⟩⟩
  -- the instructions name qubits below both widths, and all of them
  refine le_antisymm (Nat.le_of_not_lt fun hlt => ?_) (Nat.le_of_not_lt fun hlt => ?_)
  · obtain ⟨i, hi, hq⟩ := h' c.qubits hlt
    exact lt_irrefl _ ((hw i hi).lt _ hq)
  · obtain ⟨i, hi, hq⟩ := h n hlt
    exact lt_irrefl _ (hrange i hi _ hq)

theorem effect_remap {place : ℕ → ℕ} (hw : c.WellFormed)
    (hc : (c.instructions.mapM (·.remap place) >>= c.withInstructions) = .ok c') :
    Effect c c' (.remap place) := by
  obtain ⟨moved, hmoved, hc⟩ := bind_eq_ok_iff.mp hc
  obtain ⟨hoperands, rfl⟩ := (mapM_eq_ok_map fun _ _ => Instruction.remap_eq_ok_iff).mp hmoved
  obtain ⟨hrange, rfl⟩ := withInstructions_eq_ok_iff.mp hc
  refine ⟨fun j hj => ?_, .inl rfl, fun h => ?_⟩
  · have hlt := hrange j hj
    obtain ⟨i, hi, rfl⟩ := List.mem_map.mp hj
    exact ⟨(hoperands i hi).1, (hoperands i hi).2, hlt⟩
  · have hmaps : Set.MapsTo place (Finset.range c.qubits) (Finset.range c.qubits) := by
      intro q hq
      obtain ⟨i, hi, hqi⟩ := h q (Finset.mem_range.mp hq)
      exact Finset.mem_range.mpr (hrange _ (List.mem_map_of_mem hi) _ (List.mem_map_of_mem hqi))
    -- on a register, to reach every qubit is to move no two to one
    constructor
    · intro h'
      refine Finset.injOn_of_surjOn_of_card_le _ hmaps (fun q hq => ?_) le_rfl
      obtain ⟨j, hj, hqj⟩ := h' q (Finset.mem_range.mp hq)
      obtain ⟨i, hi, rfl⟩ := List.mem_map.mp hj
      obtain ⟨p, hp, rfl⟩ := List.mem_map.mp hqj
      exact ⟨p, Finset.mem_range.mpr ((hw i hi).lt p hp), rfl⟩
    · intro hinj q hq
      have hsurj := Finset.surjOn_of_injOn_of_card_le _ hmaps hinj le_rfl
      obtain ⟨p, hp, rfl⟩ := hsurj (Finset.mem_range.mpr hq)
      obtain ⟨i, hi, hpi⟩ := h p (Finset.mem_range.mp hp)
      exact ⟨_, List.mem_map_of_mem hi, List.mem_map_of_mem hpi⟩

/-- A layout goes on to hold if the transforms of circuits that have one keep their qubits. -/
theorem Effect.layoutHolds {t : Transform F} (he : t.Effect c c') (h : c.LayoutHolds)
    (hkeeps : c.layout ≠ none → t.Keeps c) : c'.LayoutHolds := by
  refine ⟨he.wellFormed, fun hmarked => ?_⟩
  rcases he.layout with hlayout | ⟨-, hcovered⟩
  · rw [hlayout] at hmarked
    exact (he.covered (h.covered hmarked)).mpr (hkeeps hmarked)
  · exact hcovered

variable [Scalar F]

theorem effect_expandIdentity (hw : c.WellFormed) (hc : c.expandIdentity = .ok c') :
    Effect c c' .expandIdentity := by
  obtain ⟨gate, -, hc⟩ := bind_eq_ok_iff.mp hc
  split at hc
  · cases hc
  · obtain ⟨padding, hpadding, hc⟩ := bind_eq_ok_iff.mp hc
    obtain ⟨hrange, rfl⟩ := withInstructions_eq_ok_iff.mp hc
    refine ⟨fun j hj => ?_, .inl rfl, fun h => iff_of_true (h.of_forall_mem rfl ?_) trivial⟩
    · rcases List.mem_append.mp hj with hold | hnew
      · exact hw j hold
      · obtain ⟨p, -, hp⟩ := exists_of_forall₂_right (mapM_eq_ok_iff.mp hpadding) hnew
        obtain ⟨hoperands, rfl⟩ := Instruction.new_eq_ok_iff.mp hp
        exact ⟨hoperands.1, hoperands.2, hrange _ hj⟩
    · exact fun i hi q hq => ⟨i, List.mem_append_left _ hi, hq⟩

theorem effect_bind {b : Bindings F} (hc : c.bind b = .ok c') : Effect c c' (.bind b) := by
  have hw := wellFormed_of_bind hc
  obtain ⟨is, his, hc⟩ := bind_eq_ok_iff.mp hc
  obtain ⟨-, rfl⟩ := withInstructions_eq_ok_iff.mp hc
  refine ⟨hw, .inl rfl, fun h => iff_of_true (h.of_forall_mem rfl fun i hi q hq => ?_) trivial⟩
  obtain ⟨j, hj, hij⟩ := exists_of_forall₂_left (mapM_eq_ok_iff.mp his) hi
  obtain ⟨g, -, hij⟩ := bind_eq_ok_iff.mp hij
  obtain ⟨-, rfl⟩ := Instruction.withGate_eq_ok_iff.mp hij
  exact ⟨_, hj, hq⟩

theorem effect_lower [Eigensolver F] {table : GateTable} {b : Bindings F} {tolerance : F}
    (hw : c.WellFormed)
    (hc : Lowering.circuit table b tolerance c = .ok c') :
    Effect c c' (.lower table b tolerance) := by
  have hmem := Lowering.exists_mem_qubits_circuit_iff hw hc
  have hw' := Lowering.circuit_wellFormed hw hc
  obtain ⟨outs, -, -, rfl⟩ := Lowering.circuit_eq_ok_iff.mp hc
  refine ⟨hw', .inl rfl, fun h => ⟨fun h' himplicit q hq => ?_, fun hkeeps q hq => ?_⟩⟩
  · obtain ⟨i, hi, hqi, hmeasure⟩ := (hmem q).mp (h' q hq)
    refine ⟨i, hi, ?_, hqi⟩
    simpa [himplicit] using hmeasure
  · rw [hmem q]
    cases himplicit : table.implicitMeasurement with
    | false =>
      obtain ⟨i, hi, hqi⟩ := h q hq
      exact ⟨i, hi, hqi, fun _ => rfl⟩
    | true =>
      -- a gate acts on the qubit, and only measurements are dropped
      obtain ⟨i, hi, hgate, hqi⟩ := hkeeps himplicit q hq
      exact ⟨i, hi, hqi, fun hm => by simp [hgate] at hm⟩

theorem Gives.effect [Eigensolver F] {t : Transform F} (hw : c.WellFormed) (hc : t.Gives c c') :
    t.Effect c c' := by
  cases t with
  | compress => exact effect_compress hw hc
  | expandIdentity => exact effect_expandIdentity hw hc
  | bind => exact effect_bind hc
  | lower => exact effect_lower hw hc
  | shape => exact effect_shape hw hc
  | remap => exact effect_remap hw hc

end Transform

variable [Scalar F]

theorem Reached.layoutHolds [Eigensolver F]
    (h : Reached Fresh (fun c t => c.layout ≠ none → t.Keeps c) c) : c.LayoutHolds := by
  induction h with
  | start h => exact h.layoutHolds
  | step _ hkeeps hc ih => exact (hc.effect ih.wellFormed).layoutHolds ih hkeeps

/-- A compressed circuit uses all its qubits if, since the circuit got its layout, no transform took
one out of use. The next transform leaves them in use just if it keeps them. -/
theorem compress_covers [Eigensolver F] {reverse : Bool}
    (h : c.layout = some reverse → Reached Fresh (fun c t => c.layout ≠ none → t.Keeps c) c)
    (hc : c.compress reverse = .ok c') :
    c'.referenced = List.range c'.qubits ∧
      ∀ (t : Transform F) (c'' : Circuit F), t.Gives c' c'' →
        (c''.referenced = List.range c''.qubits ↔ t.Keeps c') := by
  obtain ⟨hw, hcovered⟩ : c'.WellFormed ∧ c'.Covered := by
    obtain ⟨hmarked, rfl | ⟨-, hfresh⟩⟩ := compress_cases hc
    · have hholds := (h hmarked).layoutHolds
      exact ⟨hholds.wellFormed, hholds.covered (by simp [hmarked])⟩
    · exact hfresh
  refine ⟨(covered_iff_referenced hw).mp hcovered, fun t c'' ht => ?_⟩
  have heffect := ht.effect hw
  rw [← covered_iff_referenced heffect.wellFormed]
  exact heffect.covered hcovered

end Transforms

noncomputable section

/-- A pair of qubits that are apart, one of them measured. -/
def apart : Circuit ℝ where
  qubits := 5
  clbits := 1
  instructions := [.fixed .h [1], .fixed .cx [1, 4], .measure 4 0]

theorem built_apart : Built apart := by
  have hfirst := Built.push (F := ℝ) (i := .fixed .h [1]) (.start 5 1) rfl rfl
  have hsecond := Built.push (i := .fixed .cx [1, 4]) hfirst rfl rfl
  exact .push (i := .measure 4 0) hsecond rfl rfl

/-- The same qubits, brought together in reverse and then exchanged. -/
def exchanged : Circuit ℝ where
  qubits := 2
  clbits := 1
  instructions := [.fixed .h [0], .fixed .cx [0, 1], .measure 1 0]
  layout := some true

attribute [local instance] Eigensolver.mixed

theorem compress_exchanged :
    Reached Fresh (fun c t => c.layout ≠ none → t.Keeps c) exchanged ∧
      exchanged.compress true = .ok exchanged ∧
      exchanged.referenced = List.range exchanged.qubits ∧
      ∀ c', exchanged.withShape 3 exchanged.instructions = .ok c' →
        c'.referenced ≠ List.range c'.qubits := by
  have hc : exchanged.compress true = .ok exchanged := rfl
  have hreached : Reached Fresh (fun c t => c.layout ≠ none → t.Keeps c) exchanged := by
    refine .step (.step (.start (.inl built_apart)) (t := .compress true) (fun h => ?_) rfl)
      (t := .remap (1 - ·)) (fun _ => ?_) rfl
    · exact absurd rfl h
    · show Set.InjOn (1 - ·) (Finset.range 2)
      intro p hp q hq hpq
      simp only [Finset.coe_range, Set.mem_Iio] at hp hq
      dsimp only at hpq
      omega
  obtain ⟨hcovers, hnext⟩ := compress_covers (fun _ => hreached) hc
  refine ⟨hreached, hc, hcovers, fun c' hshape => ?_⟩
  rw [Ne, hnext (.shape 3) c' hshape]
  exact (by decide : (3 : ℕ) ≠ 2)

/-- A register can be widened after compression, and is then taken to be dense as it is. -/
theorem compress_widened :
    ∃ (c c' : Circuit ℝ) (reverse : Bool), Reached Built (fun _ _ => True) c ∧
      c.compress reverse = .ok c' ∧ c'.referenced ≠ List.range c'.qubits := by
  refine ⟨{ qubits := 2, clbits := 0, instructions := [.fixed .h [0]], layout := some false }, _,
    false, ?_, rfl, by decide⟩
  have hbuilt := Built.push (F := ℝ) (i := .fixed .h [0]) (.start 1 0) rfl rfl
  have hcompressed := Reached.step (P := fun _ _ => True) (.start hbuilt) (t := .compress false)
    trivial rfl
  exact .step hcompressed (t := .shape 2) trivial rfl

end

end Interchange.Circuit
