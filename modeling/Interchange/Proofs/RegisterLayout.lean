import Mathlib.Data.List.Nodup
import Mathlib.Data.List.Pairwise
import Mathlib.Order.MinMax
import Mathlib.Order.Nat
import Interchange.Proofs.DecodedCircuit
import Interchange.Proofs.InputNames
import Interchange.Scalar.Double

namespace Interchange.Qasm

def Register.indices (reg : Register) : List ℕ := List.range' reg.start reg.size

theorem Register.mem_indices {reg : Register} {q : ℕ} :
    q ∈ reg.indices ↔ reg.start ≤ q ∧ q < reg.start + reg.size := List.mem_range'_1

def Statement.qubits? : Statement → Option (String × ℕ)
  | .qubits name size => some (name, size)
  | _ => none

def Statement.bits? : Statement → Option (String × ℕ)
  | .bits name size => some (name, size)
  | _ => none

/-- Registers under different names that follow one another as they are declared, from index zero up
to a width that can be numbered. -/
structure LaidOut (declared : List (String × ℕ)) (registers : List (String × Register))
    (width : ℕ) : Prop where
  declared_eq : registers.map (fun e => (e.1, e.2.size)) = declared
  nodup : (registers.map Prod.fst).Nodup
  tiles : registers.flatMap (·.2.indices) = List.range width
  disjoint : registers.Pairwise fun a b => a.2.indices.Disjoint b.2.indices
  end_le : ∀ e ∈ registers, e.2.start + e.2.size ≤ width
  width_lt : width < Number.indexLimit

/-- A reference stands for all indices of a register, or for one of them. -/
def Reference.Selects (r : Reference) (reg : Register) (qs : List ℕ) : Prop :=
  match r.index with
  | some i => i < reg.size ∧ qs = [reg.start + i]
  | none => qs = reg.indices

theorem Reference.Selects.subset {r : Reference} {reg : Register} {qs : List ℕ}
    (h : r.Selects reg qs) : ∀ q ∈ qs, q ∈ reg.indices := by
  unfold Selects at h
  split at h
  next i _ =>
    obtain ⟨hi, rfl⟩ := h
    exact List.forall_mem_singleton.mpr (Register.mem_indices.mpr (by omega))
  next =>
    obtain rfl := h
    exact fun _ => id

theorem elements_eq_ok_iff {F : Type} {registers : List (String × Register)} {r : Reference}
    {qs : List ℕ} :
    elements (F := F) registers r = .ok qs ↔
      ∃ reg, registers.lookup r.register = some reg ∧ r.Selects reg qs := by
  have hslice (reg : Register) : reg.slice (F := F) r = .ok qs ↔ r.Selects reg qs := by
    unfold Register.slice Reference.Selects
    cases r.index with
    | none => exact ⟨fun h => (Except.ok.inj h).symm, fun h => congrArg Except.ok h.symm⟩
    | some i =>
      dsimp only
      split_ifs with hi
      · exact ⟨fun h => ⟨hi, (Except.ok.inj h).symm⟩, fun h => congrArg Except.ok h.2.symm⟩
      · exact ⟨by rintro ⟨⟩, fun h => absurd h.1 hi⟩
  unfold elements
  cases registers.lookup r.register with
  | none => simp
  | some reg => simpa using hslice reg

namespace LaidOut

variable {declared : List (String × ℕ)} {registers : List (String × Register)} {width : ℕ}

theorem empty : LaidOut [] [] 0 := by
  refine ⟨rfl, List.nodup_nil, rfl, .nil, fun _ he => absurd he List.not_mem_nil, by decide⟩

theorem snoc (h : LaidOut declared registers width) {name : String} {size : ℕ}
    (hname : name ∉ registers.map Prod.fst) (hfits : width + size < Number.indexLimit) :
    LaidOut (declared ++ [(name, size)]) (registers ++ [(name, ⟨width, size⟩)])
      (width + size) := by
  have htiles : (registers ++ [(name, Register.mk width size)]).flatMap (fun e => e.2.indices) =
      List.range (width + size) := by
    rw [List.flatMap_append, List.flatMap_singleton, h.tiles, List.range_eq_range',
      List.range_eq_range', ← List.range'_append_1, Nat.zero_add]
    rfl
  refine ⟨?_, ?_, htiles, ?_, ?_, hfits⟩
  · rw [List.map_append, h.declared_eq]
    rfl
  · rw [List.map_append, List.map_singleton]
    exact h.nodup.append (List.nodup_singleton name) (List.disjoint_singleton.mpr hname)
  · have hnodup := htiles ▸ List.nodup_range (n := width + size)
    exact (List.nodup_flatMap.mp hnodup).2
  · refine List.forall_mem_append.mpr ⟨fun e he => ?_, List.forall_mem_singleton.mpr le_rfl⟩
    exact (h.end_le e he).trans (Nat.le_add_right width size)

theorem eq_of_mem (h : LaidOut declared registers width) {a b : String × Register}
    (ha : a ∈ registers) (hb : b ∈ registers) {q : ℕ} (hqa : q ∈ a.2.indices)
    (hqb : q ∈ b.2.indices) : a = b := by
  by_contra hne
  have : Std.Symm fun a b : String × Register => a.2.indices.Disjoint b.2.indices :=
    ⟨fun _ _ hdisjoint _ hqa hqb => hdisjoint hqb hqa⟩
  exact h.disjoint.forall ha hb hne hqa hqb

end LaidOut

/-- What references stand for: indices of their own register, all below the width, and for different
elements different ones. The sums that delimit them can be numbered. -/
structure Resolves (F : Type) (registers : List (String × Register)) (width : ℕ) : Prop where
  own : ∀ r qs, elements (F := F) registers r = .ok qs →
    ∃ reg, (r.register, reg) ∈ registers ∧ r.Selects reg qs
  lt_width : ∀ r qs, elements (F := F) registers r = .ok qs → ∀ q ∈ qs, q < width
  injective : ∀ r r' qs qs', elements (F := F) registers r = .ok qs →
    elements (F := F) registers r' = .ok qs' → ∀ q ∈ qs, q ∈ qs' →
      r.register = r'.register ∧ ∀ i j, r.index = some i → r'.index = some j → i = j
  end_lt : ∀ name reg, registers.lookup name = some reg →
    reg.start + reg.size < Number.indexLimit ∧
      ∀ i < reg.size, reg.start + i + 1 < Number.indexLimit

theorem mem_of_lookup {α β : Type} [BEq α] [LawfulBEq α] {l : List (α × β)} {k : α} {v : β}
    (h : l.lookup k = some v) : (k, v) ∈ l := by
  obtain ⟨before, after, rfl, -⟩ := List.lookup_eq_some_iff.mp h
  exact List.mem_append_right before List.mem_cons_self

theorem LaidOut.resolves (F : Type) {declared : List (String × ℕ)}
    {registers : List (String × Register)} {width : ℕ} (h : LaidOut declared registers width) :
    Resolves F registers width := by
  have hown (r : Reference) (qs : List ℕ) (hr : elements (F := F) registers r = .ok qs) :
      ∃ reg, (r.register, reg) ∈ registers ∧ r.Selects reg qs := by
    obtain ⟨reg, hreg, hselects⟩ := elements_eq_ok_iff.mp hr
    exact ⟨reg, mem_of_lookup hreg, hselects⟩
  refine ⟨hown, fun r qs hr q hq => ?_, fun r r' qs qs' hr hr' q hq hq' => ?_,
    fun name reg hreg => ?_⟩
  · obtain ⟨reg, hreg, hselects⟩ := hown r qs hr
    have hlt := (Register.mem_indices.mp (hselects.subset q hq)).2
    exact hlt.trans_le (h.end_le _ hreg)
  · obtain ⟨reg, hreg, hselects⟩ := hown r qs hr
    obtain ⟨reg', hreg', hselects'⟩ := hown r' qs' hr'
    obtain ⟨hname, rfl⟩ := Prod.mk.inj
      (h.eq_of_mem hreg hreg' (hselects.subset q hq) (hselects'.subset q hq'))
    refine ⟨hname, fun i j hi hj => ?_⟩
    rw [Reference.Selects, hi] at hselects
    rw [Reference.Selects, hj] at hselects'
    rw [hselects.2, List.mem_singleton] at hq
    rw [hselects'.2, List.mem_singleton] at hq'
    omega
  · have hend := (h.end_le _ (mem_of_lookup hreg)).trans_lt h.width_lt
    exact ⟨hend, fun i hi => by dsimp only at hend; omega⟩

variable {F : Type}

namespace Environment

/-- What a statement of the first pass does: it lays out a register or nothing. -/
theorem declare_cases {env env' : Environment F} {s : Statement} (h : env.declare s = .ok env') :
    (∃ name size, s = .qubits name size ∧ env.isFresh name = true ∧
      env.width + size < Number.indexLimit ∧
      env' = { env with
        qubits := env.qubits ++ [(name, ⟨env.width, size⟩)], width := env.width + size }) ∨
    (∃ name size, s = .bits name size ∧ env.isFresh name = true ∧
      env.bitWidth + size < Number.indexLimit ∧
      env' = { env with
        bits := env.bits ++ [(name, ⟨env.bitWidth, size⟩)], bitWidth := env.bitWidth + size }) ∨
    (s.qubits? = none ∧ s.bits? = none ∧ env' = env) := by
  have hgrow {offset size n : ℕ} {name : String} (h : grow (F := F) offset size name = .ok n) :
      offset + size < Number.indexLimit ∧ n = offset + size := by
    unfold grow at h
    split_ifs at h with hfits
    exact ⟨hfits, (Except.ok.inj h).symm⟩
  have hfresh {name : String} {u : Unit} (h : env.checkFresh name = .ok u) :
      env.isFresh name = true := by
    unfold checkFresh at h
    split_ifs at h with hfresh
    exact hfresh
  cases s with
  | qubits name size =>
    obtain ⟨_, hcheck, h⟩ := bind_eq_ok_iff.mp h
    obtain ⟨n, hn, h⟩ := bind_eq_ok_iff.mp h
    obtain ⟨hfits, rfl⟩ := hgrow hn
    exact .inl ⟨name, size, rfl, hfresh hcheck, hfits, (Except.ok.inj h).symm⟩
  | bits name size =>
    obtain ⟨_, hcheck, h⟩ := bind_eq_ok_iff.mp h
    obtain ⟨n, hn, h⟩ := bind_eq_ok_iff.mp h
    obtain ⟨hfits, rfl⟩ := hgrow hn
    exact .inr (.inl ⟨name, size, rfl, hfresh hcheck, hfits, (Except.ok.inj h).symm⟩)
  | _ => exact .inr (.inr ⟨rfl, rfl, (Except.ok.inj h).symm⟩)

/-- The registers of both kinds are laid out as the statements declare them, and they share no
name. -/
structure Partitioned (statements : List Statement) (env : Environment F) : Prop where
  qubits : LaidOut (statements.filterMap Statement.qubits?) env.qubits env.width
  bits : LaidOut (statements.filterMap Statement.bits?) env.bits env.bitWidth
  names : (env.qubits.map Prod.fst).Disjoint (env.bits.map Prod.fst)

theorem notMem_of_isFresh {env : Environment F} {name : String} (h : env.isFresh name = true) :
    name ∉ env.qubits.map Prod.fst ∧ name ∉ env.bits.map Prod.fst := by
  have hnone {l : List (String × Register)} (h : (l.lookup name).isNone = true) :
      name ∉ l.map Prod.fst := by
    rintro hmem
    obtain ⟨e, he, rfl⟩ := List.mem_map.mp hmem
    simpa using List.lookup_eq_none_iff.mp (Option.isNone_iff_eq_none.mp h) e he
  simp only [isFresh, Bool.and_eq_true] at h
  exact ⟨hnone h.1.1, hnone h.1.2⟩

theorem Partitioned.declare {statements : List Statement} {env env' : Environment F}
    (h : env.Partitioned statements) {s : Statement} (hs : env.declare s = .ok env') :
    env'.Partitioned (statements ++ [s]) := by
  rcases declare_cases hs with ⟨name, size, rfl, hfresh, hfits, rfl⟩ |
    ⟨name, size, rfl, hfresh, hfits, rfl⟩ | ⟨hq, hb, rfl⟩
  · obtain ⟨hqubits, hbits⟩ := notMem_of_isFresh hfresh
    refine ⟨?_, ?_, ?_⟩
    · rw [List.filterMap_append]
      exact h.qubits.snoc hqubits hfits
    · rw [List.filterMap_append]
      exact (List.append_nil _).symm ▸ h.bits
    · rw [List.map_append, List.disjoint_append_left]
      exact ⟨h.names, List.singleton_disjoint.mpr hbits⟩
  · obtain ⟨hqubits, hbits⟩ := notMem_of_isFresh hfresh
    refine ⟨?_, ?_, ?_⟩
    · rw [List.filterMap_append]
      exact (List.append_nil _).symm ▸ h.qubits
    · rw [List.filterMap_append]
      exact h.bits.snoc hbits hfits
    · rw [List.map_append, List.disjoint_append_right]
      exact ⟨h.names, List.disjoint_singleton.mpr hqubits⟩
  · have hsame {α : Type} {f : Statement → Option α} (hf : f s = none) :
        (statements ++ [s]).filterMap f = statements.filterMap f := by
      rw [List.filterMap_append, List.filterMap_cons_none hf]
      exact List.append_nil _
    exact ⟨hsame hq ▸ h.qubits, hsame hb ▸ h.bits, h.names⟩

/-- The first pass lays out the registers that a program declares. -/
theorem partitioned_ofStatements (statements : List Statement) :
    Returns (ofStatements (F := F) statements) (Partitioned statements) := by
  induction statements using List.reverseRecOn with
  | nil => exact .ok ⟨.empty, .empty, List.disjoint_nil_left _⟩
  | append_singleton statements s ih =>
    rw [ofStatements, List.foldlM_append]
    refine ih.bind fun env henv => ?_
    rw [List.foldlM_cons]
    have hstep : Returns (env.declare s) (Partitioned (statements ++ [s])) :=
      fun env' h => henv.declare h
    exact hstep.bind fun env' h => .ok h

/-- What the second pass keeps: the registers, the qubits, and classical bits that are the declared
ones or also those of bare measurements. -/
structure Keeps (env : Environment F) (state : Environment F × Circuit F) : Prop where
  qubits : state.1.qubits = env.qubits
  bits : state.1.bits = env.bits
  width : state.2.qubits = env.width
  le_clbits : env.bitWidth ≤ state.2.clbits
  clbits_le : state.2.clbits ≤ max env.bitWidth env.width

end Environment

theorem clbits_of_push {c c' : Circuit F} {i : Instruction F} {n : ℕ} (h : c.push i = .ok c')
    (hc : c.clbits ≤ n) (hi : ∀ b ∈ i.clbits, b < n) : c.clbits ≤ c'.clbits ∧ c'.clbits ≤ n := by
  obtain ⟨-, rfl⟩ := Circuit.push_eq_ok_iff.mp h
  dsimp only [Circuit.pushed]
  split
  next b hb =>
    have hle := List.find?_some hb
    exact ⟨(of_decide_eq_true hle).trans (Nat.le_succ b), hi b (List.mem_of_find?_eq_some hb)⟩
  next => exact ⟨le_rfl, hc⟩

namespace Environment.Keeps

variable {env : Environment F} {state : Environment F × Circuit F}

theorem push (h : env.Keeps state) {i : Instruction F}
    (hi : ∀ b ∈ i.clbits, b < max env.bitWidth env.width) :
    Returns (state.2.push i) fun c => env.Keeps (state.1, c) := by
  intro c hc
  obtain ⟨hle, hbound⟩ := clbits_of_push hc h.clbits_le hi
  obtain ⟨-, rfl⟩ := Circuit.push_eq_ok_iff.mp hc
  exact ⟨h.qubits, h.bits, h.width, h.le_clbits.trans hle, hbound⟩

end Environment.Keeps

theorem LaidOut.elements_lt {declared : List (String × ℕ)} {registers : List (String × Register)}
    {width : ℕ} (h : LaidOut declared registers width) {refs : List Reference}
    {qss : List (List ℕ)} (hrefs : refs.mapM (elements (F := F) registers) = .ok qss) :
    ∀ q ∈ qss.flatten, q < width := by
  intro q hq
  obtain ⟨r, -, qs, hr, hq⟩ := exists_of_mem_flatten hrefs hq
  exact (h.resolves F).lt_width r qs hr q hq

/-- A reference that names no formal qubit names elements of a register. -/
theorem qubitsOf_of_lookup {env : Environment F} {scope : Scope F} {r : Reference}
    (h : r.index = none → scope.qubits.lookup r.register = none) :
    qubitsOf env scope r = elements env.qubits r := by
  unfold qubitsOf
  cases hr : r.index with
  | some i => rfl
  | none => rw [h hr]

theorem qubitsOf_empty (env : Environment F) : qubitsOf env {} = elements env.qubits :=
  funext fun _ => qubitsOf_of_lookup fun _ => rfl

namespace Environment.Keeps

variable {statements : List Statement} {env : Environment F} {state : Environment F × Circuit F}

theorem applyMeasure (hlaid : env.Partitioned statements) (h : env.Keeps state)
    (qubits bits : List Reference) :
    Returns (Qasm.applyMeasure state.1 qubits bits state.2) fun c => env.Keeps (state.1, c) := by
  intro c hc
  obtain ⟨qss, hqss, hc⟩ := bind_eq_ok_iff.mp hc
  obtain ⟨css, hcss, hc⟩ := bind_eq_ok_iff.mp hc
  rw [qubitsOf_empty, h.qubits] at hqss
  rw [h.bits] at hcss
  -- a bare measurement writes bits that are numbered like its qubits
  have hbits : ∀ b ∈ if bits.isEmpty then qss.flatten else css.flatten,
      b < max env.bitWidth env.width := by
    split_ifs
    · exact fun b hb => lt_max_of_lt_right (hlaid.qubits.elements_lt hqss b hb)
    · exact fun b hb => lt_max_of_lt_left (hlaid.bits.elements_lt hcss b hb)
  dsimp only at hc
  generalize (if bits.isEmpty then qss.flatten else css.flatten) = cs at hc hbits
  split_ifs at hc
  refine Returns.foldlM (P := fun c => env.Keeps (state.1, c)) (fun c hc pair hpair c' hc' => ?_) h
    c hc
  refine Keeps.push hc (fun b hb => ?_) c' (liftCircuit_eq_ok_iff.mp hc')
  obtain rfl := List.mem_singleton.mp hb
  exact hbits pair.2 (List.of_mem_zip hpair).2

variable [Scalar F]

theorem applyCall (h : env.Keeps state) (call : GateCall) :
    Returns (Qasm.applyCall state.1 maxInlineDepth {} state.2 call) fun c =>
      env.Keeps (state.1, c) := by
  refine returns_applyCall (fun tag _ c hc params qs c' hc' => ?_) _ _ _ call h
  obtain ⟨g, -, hc'⟩ := Circuit.apply_eq_ok_iff.mp hc'
  obtain ⟨i, hi, hpush⟩ := Circuit.pushGate_eq_ok_iff.mp hc'
  obtain ⟨-, rfl⟩ := Instruction.new_eq_ok_iff.mp hi
  exact Keeps.push hc (fun _ hb => absurd hb List.not_mem_nil) c' hpush

theorem applyStatement (hlaid : env.Partitioned statements) (h : env.Keeps state) (s : Statement) :
    Returns (Qasm.applyStatement state s) env.Keeps := by
  cases s with
  | includeFile | qubits | bits | barrier | opaqueGate => exact .ok h
  | input name =>
    exact .andThen fun _ => .ok ⟨h.qubits, h.bits, h.width, h.le_clbits, h.clbits_le⟩
  | definition gate =>
    unfold Qasm.applyStatement
    dsimp only
    split_ifs
    · exact .ok h
    · exact .error _ _
    · exact .ok ⟨h.qubits, h.bits, h.width, h.le_clbits, h.clbits_le⟩
  | gate call => exact (h.applyCall call).bind fun c hc => .ok hc
  | measure qubits bits => exact (h.applyMeasure hlaid qubits bits).bind fun c hc => .ok hc
  | reset => exact .error _ _

theorem of_run (hlaid : env.Partitioned statements) {before : List Statement}
    (h : before.foldlM Qasm.applyStatement
      (env, { qubits := env.width, clbits := env.bitWidth }) = .ok state) : env.Keeps state :=
  Returns.foldlM (fun _ hstate s _ => Keeps.applyStatement hlaid hstate s)
    ⟨rfl, rfl, rfl, le_rfl, le_max_left _ _⟩ state h

end Environment.Keeps

variable [Scalar F]

/-- The layout of the registers is a partition, and no index goes past what can be numbered. For
every program whose registers are laid out, those of each kind tile the indices below the width in
the order of their declarations; a reference that resolves stands for elements of its own register,
different elements having different indices; and at every point of the second pass the registers are
the same, a reference that names no formal qubit resolves among them in every scope, a bare
measurement writes bits below the width, and the classical bits stay below both widths. -/
theorem Environment.layout_partitions {p : Program} {env : Environment F}
    (h : ofStatements p.statements = .ok env) :
    env.Partitioned p.statements ∧
    (Resolves F env.qubits env.width ∧ Resolves F env.bits env.bitWidth) ∧
    ∀ before, before <+: p.statements → ∀ state, before.foldlM applyStatement
        (env, ({ qubits := env.width, clbits := env.bitWidth } : Circuit F)) = .ok state →
      env.Keeps state ∧ state.2.clbits < Number.indexLimit ∧
      (∀ scope r, (r.index = none → scope.qubits.lookup r.register = none) →
        qubitsOf state.1 scope r = elements env.qubits r) ∧
      ∀ (refs : List Reference) (qss : List (List ℕ)), refs.mapM (qubitsOf state.1 {}) = .ok qss →
        ∀ q ∈ qss.flatten, q + 1 ≤ env.width := by
  have hlaid := partitioned_ofStatements p.statements env h
  refine ⟨hlaid, ⟨hlaid.qubits.resolves F, hlaid.bits.resolves F⟩, fun before _ state hrun => ?_⟩
  have hkeeps := Keeps.of_run hlaid hrun
  refine ⟨hkeeps, ?_, fun scope r hr => ?_, fun refs qss hrefs => ?_⟩
  · exact hkeeps.clbits_le.trans_lt (max_lt hlaid.bits.width_lt hlaid.qubits.width_lt)
  · rw [← hkeeps.qubits]
    exact qubitsOf_of_lookup hr
  · rw [qubitsOf_empty, hkeeps.qubits] at hrefs
    exact hlaid.qubits.elements_lt hrefs

/-- Registers of both kinds that are declared in turn, and a measurement without bits. -/
def interleaved : Program where
  version := "3.0"
  statements := [.qubits "a" 2, .bits "c" 1, .qubits "b" 3, .measure [⟨"b", none⟩] []]

def interleavedLayout : Environment Float where
  qubits := [("a", ⟨0, 2⟩), ("b", ⟨2, 3⟩)]
  bits := [("c", ⟨0, 1⟩)]
  width := 5
  bitWidth := 1

/-- Qubits two to four are measured, so the one declared bit becomes five. -/
theorem layout_partitions_interleaved :
    Environment.ofStatements interleaved.statements = .ok interleavedLayout ∧
    interleavedLayout.Partitioned interleaved.statements ∧
    ∃ state, interleaved.statements.foldlM applyStatement
        (interleavedLayout, { qubits := 5, clbits := 1 }) = .ok state ∧
      state.2.clbits = 5 ∧ interleavedLayout.Keeps state := by
  have hlayout : Environment.ofStatements interleaved.statements = .ok interleavedLayout := rfl
  obtain ⟨hpartitioned, -, hruns⟩ := Environment.layout_partitions hlayout
  exact ⟨hlayout, hpartitioned, _, rfl, rfl, (hruns _ List.prefix_rfl _ rfl).1⟩

end Interchange.Qasm
