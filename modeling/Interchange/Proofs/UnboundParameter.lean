import Interchange.Proofs.CircuitHistory
import Interchange.Proofs.LoweredParameters
import Interchange.Proofs.ReportedMatrix

namespace Interchange

variable {F : Type} [Scalar F] {reports : Prop}

namespace Gate

/-- Gates as they are obtained from the constructors. Whether a matrix may be reported for a gate
with free parameters is left open. -/
inductive Obtained (reports : Prop) : Gate F → Prop
  | new {tag : Tag} {params : List (Param F)} {g : Gate F} (h : new tag params = .ok g) :
    Obtained reports g
  | ofMatrix {m : Operator F} {g : Gate F} (h : ofMatrix m = .ok g) : Obtained reports g
  | withMatrix {g g' : Gate F} {m : Operator F} (hg : Obtained reports g)
    (hfree : g.isParameterized = true → reports) (h : g.withMatrix m = .ok g') :
    Obtained reports g'

variable {g g' : Gate F}

theorem Obtained.substitute (hg : g.Obtained reports) {b : Bindings F}
    (h : g.substitute b = .ok g') : g'.Obtained reports := by
  unfold Gate.substitute at h
  split_ifs at h
  · exact .new h
  · exact Except.ok.inj h ▸ hg

namespace Obtained

theorem of_matrix_eq_none (h : g.Obtained reports) (hm : g.matrix = none) :
    g.tag = .measure ∨ g.isParameterized = true := by
  cases h with
  | new h =>
    by_contra! hne
    obtain ⟨m, hm'⟩ := exists_matrix_of_new h (tag_of_new h ▸ hne.1) (by simpa using hne.2)
    exact Option.some_ne_none m (hm'.symm.trans hm)
  | ofMatrix h =>
    rw [eq_of_ofMatrix h] at hm
    cases hm
  | withMatrix _ _ h =>
    rw [eq_of_withMatrix h] at hm
    cases hm

theorem params_of_measure (h : g.Obtained reports) (hm : g.tag = .measure) : g.params = [] := by
  induction h with
  | new h =>
    have hlength := (isBuilt_of_new h).length_params
    rw [hm] at hlength
    exact List.length_eq_zero_iff.mp hlength
  | ofMatrix h => rw [eq_of_ofMatrix h]
  | withMatrix _ _ h ih =>
    rw [eq_of_withMatrix h] at hm ⊢
    exact ih hm

theorem matrix_of_isParameterized (h : g.Obtained reports) (hreports : ¬reports)
    (hp : g.isParameterized = true) : g.matrix = none := by
  cases h with
  | new h =>
    by_contra hm
    obtain ⟨m, hm⟩ := Option.ne_none_iff_exists'.mp hm
    exact Bool.false_ne_true ((isParameterized_of_new h hm).symm.trans hp)
  | ofMatrix h =>
    rw [eq_of_ofMatrix h] at hp
    cases hp
  | withMatrix _ hfree h =>
    rw [eq_of_withMatrix h] at hp
    exact absurd (hfree hp) hreports

end Obtained

omit [Scalar F] in
theorem head?_refs_eq_none_iff : g.refs.head? = none ↔ g.isParameterized = false := by
  rw [← Option.map_eq_none_iff (f := Handle.name), head?_refs, List.head?_eq_none_iff,
    ← Bool.not_eq_true, isParameterized_iff, not_not]

end Gate

/-- A gate with free parameters for which no matrix was reported. -/
def Instruction.isUnbound (i : Instruction F) : Bool :=
  i.gate.isParameterized && i.gate.matrix.isNone

namespace Oracle

variable {i : Instruction F} {is : List (Instruction F)} {n : ℕ}

theorem exists_step (hi : i.gate.Obtained reports) (hbound : i.isUnbound = false)
    (u : Operator F) : ∃ v, step n u i = .ok v := by
  unfold step matrixOf
  split_ifs with hmeasure
  · exact ⟨u, rfl⟩
  cases hm : i.gate.matrix with
  | some m => exact ⟨_, rfl⟩
  | none =>
    rcases hi.of_matrix_eq_none hm with htag | hp
    · exact absurd (beq_iff_eq.mpr htag) hmeasure
    · simp [Instruction.isUnbound, hm, hp] at hbound

theorem step_of_isUnbound (hi : i.gate.Obtained reports) (hunbound : i.isUnbound = true)
    (u : Operator F) : ∃ x, i.gate.refs.head? = some x ∧
      step n u i = .error (.circuit (.unboundParameter x.name)) := by
  obtain ⟨hp, hm⟩ := Bool.and_eq_true_iff.mp hunbound
  obtain ⟨x, hx⟩ := Option.ne_none_iff_exists'.mp fun hnone =>
    Bool.false_ne_true ((Gate.head?_refs_eq_none_iff.mp hnone).symm.trans hp)
  have hmeasure : ¬i.isMeasure = true := by
    intro htag
    rw [Gate.isParameterized, hi.params_of_measure (beq_iff_eq.mp htag)] at hp
    cases hp
  obtain ⟨refs, hrefs⟩ := List.head?_eq_some_iff.mp hx
  refine ⟨x, hx, ?_⟩
  rw [step, if_neg hmeasure, matrixOf, Option.isNone_iff_eq_none.mp hm, hrefs]
  rfl

theorem exists_run (h : ∀ i ∈ is, i.gate.Obtained reports)
    (hbound : ∀ i ∈ is, i.isUnbound = false) (u : Operator F) :
    ∃ v, is.foldlM (step n) u = .ok v := by
  induction is generalizing u with
  | nil => exact ⟨u, rfl⟩
  | cons i is ih =>
    obtain ⟨hi, his⟩ := List.forall_mem_cons.mp h
    obtain ⟨hbi, hbis⟩ := List.forall_mem_cons.mp hbound
    obtain ⟨v, hv⟩ := exists_step hi hbi u
    rw [List.foldlM_cons, hv]
    exact ih his hbis v

/-- A run ends at the first unbound gate, and names the first parameter of that gate. -/
theorem run_of_isUnbound (h : ∀ i ∈ is, i.gate.Obtained reports)
    (hfind : is.find? Instruction.isUnbound = some i) (u : Operator F) :
    ∃ x, i.gate.refs.head? = some x ∧
      is.foldlM (step n) u = .error (.circuit (.unboundParameter x.name)) := by
  obtain ⟨hunbound, before, after, rfl, hbefore⟩ := List.find?_eq_some_iff_append.mp hfind
  obtain ⟨hleft, hi, -⟩ := List.forall_mem_append.mp h |>.imp_right List.forall_mem_cons.mp
  obtain ⟨v, hv⟩ := exists_run (n := n) hleft (fun j hj => by simpa using hbefore j hj) u
  obtain ⟨x, hx, hstep⟩ := step_of_isUnbound (n := n) hi hunbound v
  refine ⟨x, hx, ?_⟩
  rw [List.foldlM_append]
  exact bind_eq_error_iff.mpr (.inr ⟨v, hv, bind_eq_error_iff.mpr (.inl hstep)⟩)

end Oracle

namespace Handle

def enlist (seen : List Handle) (r : Handle) : List Handle :=
  if seen.any (·.id == r.id) then seen else seen ++ [r]

theorem mem_enlist_of_mem {seen : List Handle} {x : Handle} (hx : x ∈ seen) (r : Handle) :
    x ∈ enlist seen r := by
  unfold enlist
  split_ifs
  · exact hx
  · exact List.mem_append_left [r] hx

theorem exists_mem_enlist (seen : List Handle) (r : Handle) : ∃ y ∈ enlist seen r, y.id = r.id := by
  unfold enlist
  split_ifs with hany
  · simpa using hany
  · exact ⟨r, by simp, rfl⟩

theorem mem_foldl_of_mem {seen : List Handle} {x : Handle} (hx : x ∈ seen) (xs : List Handle) :
    x ∈ xs.foldl enlist seen :=
  List.foldlRecOn (motive := (x ∈ ·)) xs enlist hx fun _ hseen r _ => mem_enlist_of_mem hseen r

theorem exists_mem_foldl {xs : List Handle} {x : Handle} (hx : x ∈ xs) (seen : List Handle) :
    ∃ y ∈ xs.foldl enlist seen, y.id = x.id := by
  induction xs generalizing seen with
  | nil => cases hx
  | cons r xs ih =>
    rcases List.mem_cons.mp hx with rfl | hx
    · obtain ⟨y, hy, hid⟩ := exists_mem_enlist seen x
      exact ⟨y, mem_foldl_of_mem hy xs, hid⟩
    · exact ih hx (enlist seen r)

theorem forall_mem_enlist {R : Handle → Prop} {seen : List Handle} (hseen : ∀ x ∈ seen, R x)
    {r : Handle} (hr : R r) : ∀ x ∈ enlist seen r, R x := by
  unfold enlist
  split_ifs
  · exact hseen
  · exact List.forall_mem_append.mpr ⟨hseen, List.forall_mem_singleton.mpr hr⟩

theorem mem_of_mem_foldl {xs : List Handle} {x : Handle} (hx : x ∈ xs.foldl enlist []) :
    x ∈ xs :=
  List.foldlRecOn (motive := fun seen => ∀ x ∈ seen, x ∈ xs) xs enlist
    (fun _ hx => absurd hx List.not_mem_nil) (fun _ hseen _ hr => forall_mem_enlist hseen hr) x hx

end Handle

omit [Scalar F] in
theorem Param.RefsAll.forall_mem_collect {R : Handle → Prop} {p : Param F} (h : p.RefsAll R)
    {seen : List Handle} (hseen : ∀ x ∈ seen, R x) : ∀ x ∈ p.collect seen, R x := by
  induction p generalizing seen with
  | const | pi => exact hseen
  | ref r => exact Handle.forall_mem_enlist hseen h
  | neg e ih => exact ih h hseen
  | add a b iha ihb | sub a b iha ihb | mul a b iha ihb | div a b iha ihb =>
    exact ihb h.2 (iha h.1 hseen)

namespace Circuit

variable {c : Circuit F}

/-- The free parameters of the gates are registered in the circuit. -/
def OwnsParameters (c : Circuit F) : Prop :=
  ∀ i ∈ c.instructions, ∀ x ∈ i.gate.refs, c.registry.contains x = true

def Unreported (c : Circuit F) : Prop :=
  ∀ i ∈ c.instructions, i.gate.isParameterized = true → i.gate.matrix = none

def Obtained (reports : Prop) (c : Circuit F) : Prop :=
  ∀ i ∈ c.instructions, i.gate.Obtained reports

namespace Obtained

theorem push (h : c.Obtained reports) {i : Instruction F} (hi : i.gate.Obtained reports) :
    Returns (c.push i) (Obtained reports) := by
  intro c' hc'
  obtain ⟨-, rfl⟩ := push_eq_ok_iff.mp hc'
  exact List.forall_mem_append.mpr ⟨h, List.forall_mem_singleton.mpr hi⟩

theorem pushGate (h : c.Obtained reports) {g : Gate F} (hg : g.Obtained reports)
    (qubits : List ℕ) : Returns (c.pushGate g qubits) (Obtained reports) := by
  intro c' hc'
  obtain ⟨i, hi, hc'⟩ := pushGate_eq_ok_iff.mp hc'
  obtain ⟨-, rfl⟩ := Instruction.new_eq_ok_iff.mp hi
  exact h.push hg c' hc'

theorem apply (h : c.Obtained reports) (tag : Tag) (params : List (Param F)) (qubits : List ℕ) :
    Returns (c.apply tag params qubits) (Obtained reports) := by
  intro c' hc'
  obtain ⟨g, hg, hc'⟩ := apply_eq_ok_iff.mp hc'
  exact h.pushGate (.new hg) qubits c' hc'

theorem measure (h : c.Obtained reports) (qubit clbit : ℕ) :
    Returns (c.measure qubit clbit) (Obtained reports) := h.push (.new Gate.new_measure)

theorem measures (h : c.Obtained reports) (f : Framework) (pairs : List (ℕ × ℕ)) :
    Returns (pairs.foldlM (fun c pair => ConvertError.lift f (c.measure pair.1 pair.2)) c)
      (Obtained reports) :=
  .foldlM (fun _ hc pair _ => (hc.measure pair.1 pair.2).convert) h

theorem bind (h : c.Obtained reports) (b : Bindings F) :
    Returns (c.bind b) (Obtained reports) := by
  intro c' hc'
  obtain ⟨is, his, hc'⟩ := bind_eq_ok_iff.mp hc'
  obtain ⟨-, rfl⟩ := withShape_eq_ok_iff.mp hc'
  intro j hj
  obtain ⟨i, hi, hij⟩ := exists_of_forall₂_right (mapM_eq_ok_iff.mp his) hj
  obtain ⟨g, hg, hij⟩ := bind_eq_ok_iff.mp hij
  obtain ⟨-, rfl⟩ := Instruction.withGate_eq_ok_iff.mp hij
  exact (h i hi).substitute hg

end Obtained

def Build.gates : Build F → List (Gate F)
  | .push i _ => [i.gate]
  | .gate g _ => [g]
  | _ => []

theorem Build.Makes.obtained {op : Build F} {i : Instruction F}
    (hop : ∀ g ∈ op.gates, g.Obtained reports) (hi : op.Makes i) : i.gate.Obtained reports := by
  cases op with
  | param | read => exact hi.elim
  | push j =>
    obtain rfl := hi
    exact List.forall_mem_singleton.mp hop
  | gate g qubits =>
    obtain ⟨-, rfl⟩ := Instruction.new_eq_ok_iff.mp hi
    exact List.forall_mem_singleton.mp hop
  | apply tag params qubits =>
    obtain ⟨g, hg, hi⟩ := bind_eq_ok_iff.mp hi
    obtain ⟨-, rfl⟩ := Instruction.new_eq_ok_iff.mp hi
    exact .new hg
  | measure qubit clbit =>
    obtain rfl := hi
    exact .new Gate.new_measure

theorem Obtained.perform (h : c.Obtained reports) {op : Build F}
    (hop : ∀ g ∈ op.gates, g.Obtained reports) : (op.work.perform c).2.Obtained reports := by
  rcases op.perform_cases c with ⟨answer, registry, hsame⟩ | ⟨i, c', hi, hc, hperform⟩
  · rw [hsame]
    exact h
  · rw [hperform]
    exact h.push (hi.obtained hop) c' hc

theorem Obtained.runAll (h : c.Obtained reports) {ops : List (Build F)}
    (hops : ∀ op ∈ ops, ∀ g ∈ op.gates, g.Obtained reports) :
    (Build.runAll ops c).Obtained reports :=
  List.foldlRecOn (motive := Obtained reports) ops _ h fun _ hc op hop => hc.perform (hops op hop)

theorem Obtained.empty (n k : ℕ) (registry : Registry) :
    Obtained reports ({ qubits := n, clbits := k, registry := registry } : Circuit F) :=
  fun _ hi => absurd hi List.not_mem_nil

theorem Obtained.of_grows {c' : Circuit F} {js : List (Instruction F)} (h : c.Obtained reports)
    (hjs : ∀ j ∈ js, j.gate.Obtained reports) (hc : c.Grows js c') : c'.Obtained reports := by
  rw [Obtained, hc.instructions]
  exact List.forall_mem_append.mpr ⟨h, hjs⟩

end Circuit

theorem Gate.exists_isSymbolic_of_new {tag : Tag} {params : List (Param F)} {g : Gate F}
    (h : new tag params = .ok g) (hp : g.isParameterized = true) :
    ∃ p ∈ params, p.isSymbolic = true := by
  obtain ⟨-, -, -, rfl⟩ := new_eq_ok_iff.mp h
  obtain ⟨q, hq, hsymbolic⟩ := List.any_eq_true.mp hp
  obtain ⟨p, hp, rfl⟩ := List.mem_map.mp hq
  exact ⟨p, hp, p.isSymbolic_simplify ▸ hsymbolic⟩

theorem Angle.exists_expression_of_readAll {c c' : Circuit F} {angles : List (Angle F)}
    {ps : List (Param F)} (h : readAll c angles = .ok (c', ps)) {p : Param F} (hp : p ∈ ps)
    (hs : p.isSymbolic = true) : ∃ text, .expression text ∈ angles := by
  induction angles generalizing c ps with
  | nil =>
    obtain rfl := congrArg Prod.snd (Except.ok.inj h)
    cases hp
  | cons a angles ih =>
    obtain ⟨q, hq, h⟩ := bind_eq_ok_iff.mp h
    obtain ⟨⟨c₂, qs⟩, hrest, h⟩ := bind_eq_ok_iff.mp h
    obtain ⟨rfl, rfl⟩ := Prod.mk.inj (Except.ok.inj h)
    rcases List.mem_cons.mp hp with rfl | hp
    · cases a with
      | value x =>
        obtain rfl := Except.ok.inj hq
        cases hs
      | expression text => exact ⟨text, List.mem_cons_self⟩
    · obtain ⟨text, htext⟩ := ih hrest hp
      exact ⟨text, List.mem_cons_of_mem a htext⟩

variable {c c₁ : Circuit F} {g : Gate F}

namespace Qiskit

/-- An operation that reports a matrix beside an angle that is given as an expression. -/
def Operation.Reports (o : Operation F) : Prop :=
  o.matrix ≠ none ∧ ∃ text, .expression text ∈ o.params

theorem Operation.obtained_of_readGate {o : Operation F} (ho : o.Reports → reports)
    (h : o.readGate c = .ok (c₁, g)) : g.Obtained reports := by
  obtain ⟨given, hgiven, h⟩ := bind_eq_ok_iff.mp h
  dsimp only at h
  split at h
  next tag _ =>
    obtain ⟨⟨c₂, params⟩, hread, h⟩ := bind_eq_ok_iff.mp h
    obtain ⟨g₁, hg₁, h⟩ := bind_eq_ok_iff.mp h
    rw [ConvertError.lift_eq_ok_iff] at hread hg₁
    split at h
    next m =>
      obtain ⟨g₂, hg₂, h⟩ := bind_eq_ok_iff.mp h
      rw [ConvertError.lift_eq_ok_iff] at hg₂
      obtain rfl := congrArg Prod.snd (Except.ok.inj h)
      refine .withMatrix (.new hg₁) (fun hp => ho ⟨fun hnone => ?_, ?_⟩) hg₂
      · rw [readMatrix?, hnone] at hgiven
        cases hgiven
      · obtain ⟨p, hp, hs⟩ := Gate.exists_isSymbolic_of_new hg₁ hp
        exact Angle.exists_expression_of_readAll hread hp hs
    next =>
      obtain rfl := congrArg Prod.snd (Except.ok.inj h)
      exact .new hg₁
  next m _ =>
    obtain ⟨g₁, hg₁, h⟩ := bind_eq_ok_iff.mp h
    rw [ConvertError.lift_eq_ok_iff] at hg₁
    obtain rfl := congrArg Prod.snd (Except.ok.inj h)
    exact .ofMatrix hg₁
  next => split_ifs at h

theorem Operation.obtained_read {o : Operation F} (ho : o.Reports → reports)
    (h : c.Obtained reports) : Returns (o.read c) (Circuit.Obtained reports) := by
  intro c' hc'
  unfold read at hc'
  split_ifs at hc' with hdirective hmeasure
  · obtain rfl := Except.ok.inj hc'
    exact h
  · unfold readMeasure at hc'
    split_ifs at hc'
    exact h.measures _ _ c' hc'
  · obtain ⟨⟨c₁, g⟩, hg, hc'⟩ := bind_eq_ok_iff.mp hc'
    have hsame : c₁.Obtained reports :=
      h.of_grows (fun _ hj => absurd hj List.not_mem_nil) (grows_of_readGate hmeasure hg).1
    exact hsame.pushGate (obtained_of_readGate ho hg) _ c' (ConvertError.lift_eq_ok_iff.mp hc')

theorem obtained_decode {d : Document F} (hd : (∃ o ∈ d.operations, o.Reports) → reports) :
    Returns (decode d) (Circuit.Obtained reports) :=
  .foldlM (fun _ hc o ho => o.obtained_read (fun hreports => hd ⟨o, ho, hreports⟩) hc)
    (.empty _ _ _)

end Qiskit

namespace Braket

theorem Operation.obtained_of_readGate {o : Operation F} (h : o.readGate c = .ok (c₁, g)) :
    g.Obtained reports := by
  unfold readGate at h
  split at h
  next => cases h
  next =>
    split at h
    next => cases h
    next rows _ =>
      obtain ⟨m, -, h⟩ := bind_eq_ok_iff.mp h
      obtain ⟨g₁, hg₁, h⟩ := bind_eq_ok_iff.mp h
      rw [ConvertError.lift_eq_ok_iff] at hg₁
      obtain rfl := congrArg Prod.snd (Except.ok.inj h)
      exact .ofMatrix hg₁
  next tag _ _ =>
    obtain ⟨⟨c₂, params⟩, -, h⟩ := bind_eq_ok_iff.mp h
    obtain ⟨g₁, hg₁, h⟩ := bind_eq_ok_iff.mp h
    rw [ConvertError.lift_eq_ok_iff] at hg₁
    obtain rfl := congrArg Prod.snd (Except.ok.inj h)
    exact .new hg₁

theorem obtained_decode (p : Program F) : Returns (decode p) (Circuit.Obtained reports) := by
  intro c hc
  obtain ⟨width, hrun⟩ := exists_run_of_decode hc
  refine Returns.foldlM (P := Circuit.Obtained reports) (fun c hc o _ c' hc' => ?_)
    (.empty width 0 {}) c hrun
  obtain ⟨c₁, g, hg, hgrows⟩ := Operation.exists_gate_of_read hc'
  exact hc.of_grows (List.forall_mem_singleton.mpr (Operation.obtained_of_readGate hg)) hgrows

end Braket

theorem IonQ.obtained_decode (d : Document F) :
    Returns (decode d) (Circuit.Obtained reports) := by
  intro c hc
  refine Returns.foldlM (P := Circuit.Obtained reports) (fun c hc o _ c' hc' => ?_)
    (.empty d.qubits 0 {}) c (run_of_decode hc)
  obtain ⟨tag, params, g, -, -, hg, hgrows⟩ := Operation.exists_gate_of_read hc'
  exact hc.of_grows (List.forall_mem_singleton.mpr (.new hg)) hgrows

namespace Cirq

variable [Numeral F]

theorem Operation.obtained_read (o : Operation F) (keys : KeyBits) (h : c.Obtained reports) :
    Returns (o.read (c, keys)) fun s => s.1.Obtained reports := by
  unfold read
  dsimp only
  split
  · exact .andThen fun bits => (h.measures _ _).bind fun c' hc' => .ok hc'
  · refine (Returns.foldlM (fun _ hc q _ => ?_) h).bind fun c' hc' => .ok hc'
    exact (hc.apply .id [] [q]).convert
  · split
    · exact .error _ _
    refine .andThen fun m => ?_
    have hmatrix : Returns (Gate.ofMatrix m) (Gate.Obtained reports) := fun _ => .ofMatrix
    exact hmatrix.convert.bind fun g hg =>
      (h.pushGate hg _).convert.bind fun c' hc' => .ok hc'
  · rintro ⟨c', keys'⟩ hc'
    obtain ⟨_, _, _, g, -, hg, hgrows⟩ := exists_gate_of_apply hc'
    exact h.of_grows (List.forall_mem_singleton.mpr (.new hg)) hgrows

theorem obtained_decode (d : Document F) : Returns (decode d) (Circuit.Obtained reports) := by
  intro c hc
  obtain ⟨width, keys, keys', hrun⟩ := exists_run_of_decode hc
  exact Returns.foldlM (P := fun s => s.1.Obtained reports)
    (fun s hs o _ => o.obtained_read s.2 hs) (.empty width 0 {}) _ hrun

end Cirq

namespace Qasm

theorem obtained_applyStatement {state : Environment F × Circuit F}
    (h : state.2.Obtained reports) (s : Statement) :
    Returns (applyStatement state s) fun state' => state'.2.Obtained reports := by
  cases s with
  | includeFile | qubits | bits | barrier | opaqueGate => exact .ok h
  | input name => exact .andThen fun _ => .ok h
  | definition gate =>
    unfold applyStatement
    dsimp only
    split_ifs
    · exact .ok h
    · exact .error _ _
    · exact .ok h
  | gate call =>
    exact (returns_applyCall (fun tag _ c hc params qs => hc.apply tag params qs) _ _ _ call
      h).bind fun c hc => .ok hc
  | measure qubits bits =>
    refine Returns.bind (P := Circuit.Obtained reports) ?_ fun c hc => .ok hc
    refine .andThen fun _ => .andThen fun _ => ?_
    dsimp only
    split_ifs
    all_goals first
      | exact .error _ _
      | exact .foldlM (fun c hc pair _ => (hc.measure pair.1 pair.2).liftCircuit) h
  | reset => exact .error _ _

theorem obtained_decode (version : Version) (source : String) :
    Returns (decode (F := F) version source) (Circuit.Obtained reports) := by
  intro c hc
  obtain ⟨program, -, hc⟩ := bind_eq_ok_iff.mp hc
  split_ifs at hc
  rw [liftConvert_eq_ok_iff] at hc
  obtain ⟨env, -, hc⟩ := bind_eq_ok_iff.mp hc
  obtain ⟨state, hrun, hc⟩ := bind_eq_ok_iff.mp hc
  obtain rfl := Except.ok.inj hc
  exact Returns.foldlM (P := fun state => state.2.Obtained reports)
    (fun _ hs s _ => obtained_applyStatement hs s) (.empty _ _ _) state hrun

end Qasm

/-- A native form that reports a matrix for a gate with free parameters. -/
def Native.Reports : Native F → Prop
  | .qiskit d => ∃ o ∈ d.operations, o.Reports
  | _ => False

theorem Native.obtained_toCircuit [Numeral F] {n : Native F} (hn : n.Reports → reports) :
    Returns n.toCircuit (Circuit.Obtained reports) := by
  intro c hc
  unfold toCircuit at hc
  rw [TranspileError.lift_eq_ok_iff] at hc
  cases n with
  | qiskit d => exact Qiskit.obtained_decode hn c hc
  | cirq d => exact Cirq.obtained_decode d c hc
  | braket p => exact Braket.obtained_decode p c hc
  | ionq d => exact IonQ.obtained_decode d c hc
  | qasm version source => exact Qasm.obtained_decode version source c hc

namespace Circuit

/-- Circuits as they are produced: decoded, built from gates that were obtained, or bound. -/
inductive Produced [Numeral F] (reports : Prop) : Circuit F → Prop
  | decoded {n : Native F} {c : Circuit F} (hn : n.Reports → reports) (h : n.toCircuit = .ok c) :
    Produced reports c
  | built (n k : ℕ) {ops : List (Build F)} (h : ∀ op ∈ ops, ∀ g ∈ op.gates, g.Obtained reports) :
    Produced reports (Build.runAll ops { qubits := n, clbits := k })
  | bound {c c' : Circuit F} {b : Bindings F} (hc : Produced reports c) (h : c.bind b = .ok c') :
    Produced reports c'

theorem Produced.obtained [Numeral F] (h : c.Produced reports) : c.Obtained reports := by
  induction h with
  | decoded hn h => exact Native.obtained_toCircuit hn _ h
  | built n k h => exact (Obtained.empty n k {}).runAll h
  | bound _ h ih => exact ih.bind _ _ h

theorem ownsParameters_of_toCircuit [Numeral F] {n : Native F} (h : n.toCircuit = .ok c) :
    c.OwnsParameters := by
  intro i hi x hx
  obtain ⟨p, hp, hx⟩ := List.mem_flatMap.mp hx
  have hknown := (Native.registered_of_toCircuit h).known p (List.mem_flatMap.mpr ⟨i, hi, hp⟩)
  exact (hknown.forall_mem_collect (fun _ hx => absurd hx List.not_mem_nil) x hx).1

variable {i : Instruction F} {x : Handle}

omit [Scalar F] in
theorem OwnsParameters.mem_freeParameters (h : c.OwnsParameters) (hi : i ∈ c.instructions)
    (hx : x ∈ i.gate.refs) : x ∈ c.freeParameters := by
  have hmem : x ∈ c.instructions.flatMap (·.gate.refs) := List.mem_flatMap.mpr ⟨i, hi, hx⟩
  obtain ⟨y, hy, hid⟩ := Handle.exists_mem_foldl hmem []
  obtain ⟨j, hj, hyj⟩ := List.mem_flatMap.mp (Handle.mem_of_mem_foldl hy)
  -- a registry has one name for each number
  have hnamey : c.registry.names[y.id]? = some y.name := beq_iff_eq.mp (h j hj y hyj)
  have hnamex : c.registry.names[x.id]? = some x.name := beq_iff_eq.mp (h i hi x hx)
  rw [hid, hnamex] at hnamey
  have hxy : y = x := congrArg₂ Handle.mk hid (Option.some.inj hnamey).symm
  exact hxy ▸ hy

omit [Scalar F] in
theorem mem_freeParameters_of_head (h : (c.instructions.flatMap (·.gate.refs)).head? = some x) :
    x ∈ c.freeParameters := by
  obtain ⟨xs, hxs⟩ := List.head?_eq_some_iff.mp h
  rw [freeParameters, hxs]
  exact Handle.mem_foldl_of_mem (List.mem_singleton_self x) xs

omit [Scalar F] in
/-- The first parameter of the first unbound gate is the first of the circuit, unless a matrix was
reported for an earlier gate. -/
theorem Unreported.mem_freeParameters (h : c.Unreported)
    (hfind : c.instructions.find? Instruction.isUnbound = some i)
    (hx : i.gate.refs.head? = some x) : x ∈ c.freeParameters := by
  obtain ⟨-, before, after, hinstructions, hbefore⟩ := List.find?_eq_some_iff_append.mp hfind
  have hnil : before.flatMap (·.gate.refs) = [] := by
    refine List.flatMap_eq_nil_iff.mpr fun j hj => ?_
    have hmem : j ∈ c.instructions := hinstructions ▸ List.mem_append_left _ hj
    rw [← List.head?_eq_none_iff, Gate.head?_refs_eq_none_iff, ← Bool.not_eq_true]
    intro hp
    simpa [Instruction.isUnbound, hp, h j hmem hp] using hbefore j hj
  refine mem_freeParameters_of_head ?_
  rw [hinstructions, List.flatMap_append, hnil, List.nil_append, List.flatMap_cons,
    List.head?_append, hx]
  rfl

omit [Scalar F] in
theorem Unreported.exists_isUnbound (h : c.Unreported) (hp : c.isParameterized = true) :
    ∃ i, c.instructions.find? Instruction.isUnbound = some i := by
  obtain ⟨i, hi, hp⟩ := List.any_eq_true.mp hp
  refine Option.isSome_iff_exists.mp (List.find?_isSome.mpr ⟨i, hi, ?_⟩)
  rw [Instruction.isUnbound, hp, h i hi hp]
  rfl

end Circuit

/-- The refusal of circuits with free parameters: none of them has a unitary, and within the limit
the answer names one of the parameters. -/
structure Oracle.Refuses (o : Oracle F) (c : Circuit F) : Prop where
  not_parameterized : ∀ u, o.unitaryOf c = .ok u → c.isParameterized = false
  unbound : c.qubits ≤ min o.maxQubits maxDenseQubits → c.isParameterized = true →
    ∃ x ∈ c.freeParameters, o.unitaryOf c = .error (.circuit (.unboundParameter x.name))

namespace Oracle

variable {o : Oracle F}

theorem unitaryOf_of_le (h : c.qubits ≤ min o.maxQubits maxDenseQubits) :
    o.unitaryOf c = c.instructions.foldlM (step c.qubits) (.identity (Nat.pow 2 c.qubits)) :=
  if_neg (Nat.not_lt.mpr h)

theorem le_of_unitaryOf {u : Operator F} (h : o.unitaryOf c = .ok u) :
    c.qubits ≤ min o.maxQubits maxDenseQubits := by
  by_contra hlt
  rw [unitaryOf, if_pos (Nat.lt_of_not_le hlt)] at h
  cases h

theorem unitaryOf_of_isUnbound (h : c.Obtained reports)
    (hle : c.qubits ≤ min o.maxQubits maxDenseQubits) {i : Instruction F}
    (hfind : c.instructions.find? Instruction.isUnbound = some i) :
    ∃ x, i.gate.refs.head? = some x ∧
      o.unitaryOf c = .error (.circuit (.unboundParameter x.name)) := by
  rw [unitaryOf_of_le hle]
  exact run_of_isUnbound h hfind _

theorem exists_unitaryOf_iff_bound (h : c.Obtained reports) :
    (∃ u, o.unitaryOf c = .ok u) ↔ c.qubits ≤ min o.maxQubits maxDenseQubits ∧
      ∀ i ∈ c.instructions, i.isUnbound = false := by
  constructor
  · rintro ⟨u, hu⟩
    have hle := le_of_unitaryOf hu
    refine ⟨hle, ?_⟩
    cases hfind : c.instructions.find? Instruction.isUnbound with
    | none => simpa using List.find?_eq_none.mp hfind
    | some i =>
      obtain ⟨x, -, herror⟩ := unitaryOf_of_isUnbound h hle hfind
      cases hu.symm.trans herror
  · rintro ⟨hle, hbound⟩
    rw [unitaryOf_of_le hle]
    exact exists_run h hbound _

theorem refuses_of_unreported (h : c.Obtained reports) (hc : c.Unreported) : o.Refuses c := by
  refine ⟨fun u hu => ?_, fun hle hp => ?_⟩
  · rw [← Bool.not_eq_true]
    intro hp
    obtain ⟨i, hfind⟩ := hc.exists_isUnbound hp
    obtain ⟨x, -, herror⟩ := unitaryOf_of_isUnbound h (le_of_unitaryOf hu) hfind
    cases hu.symm.trans herror
  · obtain ⟨i, hfind⟩ := hc.exists_isUnbound hp
    obtain ⟨x, hx, herror⟩ := unitaryOf_of_isUnbound h hle hfind
    exact ⟨x, hc.mem_freeParameters hfind hx, herror⟩

/-- When circuits with free parameters are refused. Every circuit that is produced has a unitary if
and only if it is within the limit and each gate with free parameters was reported with a matrix;
otherwise the answer names the first parameter of the first gate that was not. So circuits with free
parameters are refused where no such gate has a matrix, and this is the case of all that come from
frameworks that report none and from builders that are given none. -/
theorem unitaryOf_of_produced [Numeral F] (o : Oracle F) (h : c.Produced reports) :
    ((∃ u, o.unitaryOf c = .ok u) ↔ c.qubits ≤ min o.maxQubits maxDenseQubits ∧
      ∀ i ∈ c.instructions, i.isUnbound = false) ∧
    (c.qubits ≤ min o.maxQubits maxDenseQubits →
      ∀ i, c.instructions.find? Instruction.isUnbound = some i → ∃ x,
        i.gate.refs.head? = some x ∧
        o.unitaryOf c = .error (.circuit (.unboundParameter x.name)) ∧
        (c.OwnsParameters → x ∈ c.freeParameters)) ∧
    (∀ n : Native F, n.toCircuit = .ok c → c.OwnsParameters) ∧
    (c.Unreported → o.Refuses c) ∧ (¬reports → c.Unreported) := by
  have hobtained := h.obtained
  refine ⟨exists_unitaryOf_iff_bound hobtained, fun hle i hfind => ?_,
    fun n => Circuit.ownsParameters_of_toCircuit, refuses_of_unreported hobtained,
    fun hreports i hi => (hobtained i hi).matrix_of_isParameterized hreports⟩
  obtain ⟨x, hx, herror⟩ := unitaryOf_of_isUnbound hobtained hle hfind
  exact ⟨x, hx, herror, fun howns =>
    howns.mem_freeParameters (List.mem_of_find?_eq_some hfind) (List.mem_of_head? hx)⟩

def freeTurn : Gate F := ⟨.rx, [.ref ⟨0, "theta"⟩], none⟩

/-- A turn by a free angle that is reported with the matrix of the identity. -/
def reportedTurn : Gate F := { freeTurn with matrix := some (.identity 2) }

theorem obtained_freeTurn : (freeTurn : Gate F).Obtained reports :=
  .new (show Gate.new .rx [.ref ⟨0, "theta"⟩] = .ok freeTurn from rfl)

theorem obtained_reportedTurn : (reportedTurn : Gate Float).Obtained True :=
  .withMatrix obtained_freeTurn (fun _ => trivial)
    (show freeTurn.withMatrix (.identity 2) = .ok reportedTurn from rfl)

/-- Gates in a single angle on a single qubit, as a builder takes them. -/
def turning (gates : List (Gate F)) : Circuit F :=
  Circuit.Build.runAll (.param "theta" :: gates.map (.gate · [0])) { qubits := 1, clbits := 0 }

/-- The second of two turns has no matrix, so the circuit is refused in spite of the first. -/
theorem unitaryOf_partlyReported :
    (turning [reportedTurn, freeTurn] : Circuit Float).Produced True ∧
    (turning [reportedTurn, freeTurn] : Circuit Float).freeParameters = [⟨0, "theta"⟩] ∧
    (Oracle.new 12 (0 : Float)).unitaryOf (turning [reportedTurn, freeTurn]) =
      .error (.circuit (.unboundParameter "theta")) := by
  have hproduced : (turning [reportedTurn, freeTurn] : Circuit Float).Produced True := by
    refine .built 1 0 (List.forall_mem_cons.mpr ⟨fun _ hg => absurd hg List.not_mem_nil,
      List.forall_mem_map.mpr (List.forall_mem_cons.mpr ⟨?_, List.forall_mem_singleton.mpr ?_⟩)⟩)
    · exact List.forall_mem_singleton.mpr obtained_reportedTurn
    · exact List.forall_mem_singleton.mpr obtained_freeTurn
  obtain ⟨-, hunbound, -⟩ := unitaryOf_of_produced (.new 12 0) hproduced
  obtain ⟨x, hx, herror, -⟩ := hunbound (by decide) ⟨freeTurn, [0], []⟩ rfl
  obtain rfl : (⟨0, "theta"⟩ : Handle) = x := Option.some.inj hx
  exact ⟨hproduced, rfl, herror⟩

/-- A document and a builder that report a matrix for a gate with a free parameter give a circuit
that has a unitary. -/
theorem not_refuses_reported :
    Qiskit.decode (Qiskit.operating Qiskit.idleTurn []) = .ok (turning [reportedTurn]) ∧
    (turning [reportedTurn] : Circuit ℝ).isParameterized = true ∧
    (∃ u, (Oracle.new 12 (0 : ℝ)).unitaryOf (turning [reportedTurn]) = .ok u) ∧
    ¬(Oracle.new 12 (0 : ℝ)).Refuses (turning [reportedTurn]) := by
  have hread : Qiskit.idleTurn.readGate { qubits := 1, clbits := 0 } =
      .ok ({ qubits := 1, clbits := 0, registry := ⟨["theta"]⟩ }, reportedTurn) :=
    bind_eq_ok_iff.mpr ⟨some (.identity 2), rfl, bind_eq_ok_iff.mpr
      ⟨_, ConvertError.lift_eq_ok_iff.mpr (Qiskit.readAll_theta rfl), rfl⟩⟩
  have hunitary : ∃ u, (Oracle.new 12 (0 : ℝ)).unitaryOf (turning [reportedTurn]) = .ok u :=
    ⟨_, rfl⟩
  refine ⟨bind_eq_ok_iff.mpr ⟨_, bind_eq_ok_iff.mpr ⟨_, hread, rfl⟩, rfl⟩, rfl, hunitary,
    fun hrefuses => ?_⟩
  obtain ⟨u, hu⟩ := hunitary
  exact absurd (hrefuses.not_parameterized u hu) (by decide)

end Oracle

end Interchange
