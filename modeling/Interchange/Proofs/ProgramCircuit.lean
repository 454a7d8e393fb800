import Mathlib.Data.List.Find
import Interchange.Proofs.Construction
import Interchange.Qasm.Circuit

namespace Interchange.Qasm

variable {F : Type}

/-- The declarations of a quantum and a classical register; empty ones are left out. -/
def declarations (qubits clbits : ℕ) : List Statement :=
  (if qubits = 0 then [] else [.qubits "q" qubits]) ++
    (if clbits = 0 then [] else [.bits "c" clbits])

def layout (F : Type) (qubits clbits : ℕ) : Environment F where
  qubits := if qubits = 0 then [] else [("q", ⟨0, qubits⟩)]
  bits := if clbits = 0 then [] else [("c", ⟨0, clbits⟩)]
  width := qubits
  bitWidth := clbits

theorem ofStatements_declarations {qubits clbits : ℕ} (hq : qubits < Number.indexLimit)
    (hc : clbits < Number.indexLimit) (path : String) {body : List Statement}
    (hbody : ∀ s ∈ body, ∀ env : Environment F, env.declare s = .ok env) :
    Environment.ofStatements (.includeFile path :: (declarations qubits clbits ++ body)) =
      .ok (layout F qubits clbits) := by
  have hfold : ∀ env : Environment F, body.foldlM Environment.declare env = .ok env := by
    intro env
    induction body with
    | nil => rfl
    | cons s body ih =>
      rw [List.foldlM_cons, hbody s List.mem_cons_self]
      exact ih fun t ht => hbody t (List.mem_cons_of_mem _ ht)
  have hdecl : (declarations qubits clbits).foldlM Environment.declare ({} : Environment F) =
      .ok (layout F qubits clbits) := by
    by_cases hq0 : qubits = 0 <;> by_cases hc0 : clbits = 0 <;>
      simp [declarations, layout, Environment.declare, Environment.checkFresh, Environment.isFresh,
        Environment.grow, hq0, hc0, hq, hc, pure, Except.pure, bind, Except.bind]
  rw [Environment.ofStatements, List.foldlM_cons]
  change List.foldlM Environment.declare {} (declarations qubits clbits ++ body) = _
  rw [List.foldlM_append, hdecl]
  exact hfold _

theorem elements_of_lt {register : String} {n i : ℕ} (hi : i < n) :
    elements (F := F) (if n = 0 then [] else [(register, ⟨0, n⟩)]) ⟨register, some i⟩ =
      .ok [i] := by
  rw [if_neg (by omega), elements, List.lookup_cons_self]
  dsimp only [Register.slice]
  rw [if_pos hi, Nat.zero_add]

theorem qubitsOf_layout {qubits clbits q : ℕ} (hq : q < qubits) :
    qubitsOf (layout F qubits clbits) {} ⟨"q", some q⟩ = .ok [q] :=
  elements_of_lt hq

theorem broadcast_singletons (gate : String) (qs : List ℕ) :
    broadcast (F := F) gate (qs.map fun q => [q]) = .ok [qs] := by
  have hsizes : ((qs.map fun q => [q]).map List.length).filter (· != 1) = [] := by
    simp
  rw [broadcast, hsizes]
  simp [Function.comp_def]

/-- A statement that applies gates or measures. -/
inductive Acts : Statement → Prop
  | gate (call : GateCall) : Acts (.gate call)
  | measure (qubits bits : List Reference) : Acts (.measure qubits bits)

def registerNames (qubits clbits : ℕ) : List String :=
  (if qubits = 0 then [] else ["q"]) ++ (if clbits = 0 then [] else ["c"])

def Statement.input? : Statement → Option String
  | .input name => some name
  | _ => none

def Statement.register? : Statement → Option String
  | .qubits name _ | .bits name _ => some name
  | _ => none

def Program.inputs (p : Program) : List String := p.statements.filterMap Statement.input?

def Program.registers (p : Program) : List String := p.statements.filterMap Statement.register?

def programStatements (path : String) (names : List String) (qubits clbits : ℕ)
    (acts : List Statement) : List Statement :=
  .includeFile path :: (names.map Statement.input ++ (declarations qubits clbits ++ acts))

section

variable {qubits clbits : ℕ} {names : List String} {acts : List Statement}

theorem isFresh_layout (name : String) :
    (layout F qubits clbits).isFresh name = decide (name ∉ registerNames qubits clbits) := by
  have hlookup : ∀ (n : ℕ) (register : String), ((if n = 0 then [] else
      [(register, (⟨0, n⟩ : Register))]).lookup name).isNone =
        decide (name ∉ if n = 0 then [] else [register]) := by
    intro n register
    split
    · rfl
    · by_cases h : name = register
      · simp [h]
      · simp [List.lookup_cons, beq_false_of_ne h, h]
  unfold Environment.isFresh layout registerNames
  dsimp only
  rw [hlookup, hlookup]
  simp

theorem filterMap_programStatements {f : Statement → Option String} {path : String}
    (hinclude : f (.includeFile path) = none) (hacts : ∀ s ∈ acts, f s = none) :
    (programStatements path names qubits clbits acts).filterMap f =
      (names.map Statement.input).filterMap f ++ (declarations qubits clbits).filterMap f := by
  rw [programStatements, List.filterMap_cons_none hinclude, List.filterMap_append,
    List.filterMap_append, List.filterMap_eq_nil_iff.mpr hacts, List.append_nil]

theorem inputs_programStatements (number path : String) (hacts : ∀ s ∈ acts, Acts s) :
    Program.inputs ⟨number, programStatements path names qubits clbits acts⟩ = names := by
  have hinputs : (names.map Statement.input).filterMap Statement.input? = names := by
    rw [List.filterMap_map]
    exact List.filterMap_some
  have hregisters : (declarations qubits clbits).filterMap Statement.input? = [] := by
    unfold declarations
    split_ifs <;> rfl
  rw [Program.inputs, filterMap_programStatements rfl fun s hs => by cases hacts s hs <;> rfl,
    hinputs, hregisters, List.append_nil]

theorem registers_programStatements (number path : String) (hacts : ∀ s ∈ acts, Acts s) :
    Program.registers ⟨number, programStatements path names qubits clbits acts⟩ =
      registerNames qubits clbits := by
  have hinputs : (names.map Statement.input).filterMap Statement.register? = [] :=
    List.filterMap_eq_nil_iff.mpr (List.forall_mem_map.mpr fun _ _ => rfl)
  have hregisters : (declarations qubits clbits).filterMap Statement.register? =
      registerNames qubits clbits := by
    unfold declarations registerNames
    split_ifs <;> rfl
  rw [Program.registers, filterMap_programStatements rfl fun s hs => by cases hacts s hs <;> rfl,
    hinputs, hregisters, List.nil_append]

/-- Only registers are laid out before the statements run. -/
theorem ofStatements_inputs (hq : qubits < Number.indexLimit) (hc : clbits < Number.indexLimit)
    (path : String) (hacts : ∀ s ∈ acts, Acts s) :
    Environment.ofStatements (programStatements path names qubits clbits acts) =
      .ok (layout F qubits clbits) := by
  have hinputs : ∀ env : Environment F,
      (names.map Statement.input).foldlM Environment.declare env = .ok env := by
    intro env
    induction names with
    | nil => rfl
    | cons name names ih =>
      rw [List.map_cons, List.foldlM_cons]
      exact ih
  have hplain : Environment.ofStatements
      (.includeFile path :: (declarations qubits clbits ++ acts)) = .ok (layout F qubits clbits) :=
    ofStatements_declarations hq hc path fun s hs env => by cases hacts s hs <;> rfl
  rw [Environment.ofStatements, List.foldlM_cons] at hplain
  rw [Environment.ofStatements, programStatements, List.foldlM_cons]
  change List.foldlM Environment.declare {} _ = _
  rw [List.foldlM_append, hinputs]
  exact hplain

end

def Error.NoDuplicate (e : Error F) : Prop := ∀ name, e ≠ .duplicateDeclaration name

theorem noDuplicate_elements (registers : List (String × Register)) (r : Reference) :
    Raises (elements registers r) (Error.NoDuplicate (F := F)) := by
  unfold elements Register.slice
  repeat' split
  all_goals first
    | exact .ok _ _
    | exact .error (by rintro _ ⟨⟩)

theorem noDuplicate_qubitsOf (env : Environment F) (scope : Scope F) (r : Reference) :
    Raises (qubitsOf env scope r) Error.NoDuplicate := by
  unfold qubitsOf
  split
  · exact .ok _ _
  · exact noDuplicate_elements _ _

theorem noDuplicate_broadcast (gate : String) (args : List (List ℕ)) :
    Raises (broadcast gate args) (Error.NoDuplicate (F := F)) := by
  unfold broadcast
  dsimp only
  split_ifs
  all_goals first
    | exact .ok _ _
    | exact .error (by rintro _ ⟨⟩)

theorem noDuplicate_liftCircuit {α : Type} (x : Except (CircuitError F) α) :
    Raises (liftCircuit x) Error.NoDuplicate := by
  cases x with
  | ok a => exact .ok _ _
  | error e => exact .error (by rintro _ ⟨⟩)

theorem noDuplicate_checkParamCount (gate : String) (params : List (Param F)) (n : ℕ) :
    Raises (checkParamCount gate params n) Error.NoDuplicate := by
  unfold checkParamCount
  split
  · exact .ok _ _
  · exact .error (by rintro _ ⟨⟩)

theorem noDuplicate_checkQubitCount (gate : String) (args : List (List ℕ)) (n : ℕ) :
    Raises (checkQubitCount gate args n) (Error.NoDuplicate (F := F)) := by
  unfold checkQubitCount
  split
  · exact .ok _ _
  · exact .error (by rintro _ ⟨⟩)

theorem noDuplicate_applyMeasure (env : Environment F) (qubits bits : List Reference)
    (c : Circuit F) : Raises (applyMeasure env qubits bits c) Error.NoDuplicate := by
  refine (Raises.mapM fun _ _ => noDuplicate_qubitsOf _ _ _).bind fun _ _ =>
    (Raises.mapM fun _ _ => noDuplicate_elements _ _).bind fun _ _ => ?_
  dsimp only
  split_ifs
  all_goals first
    | exact .error (by rintro _ ⟨⟩)
    | exact .foldlM (fun _ _ _ => noDuplicate_liftCircuit _) _

variable [Scalar F]

/-- In every circuit of the sizes, the statement appends the instruction. -/
def Appends (qubits clbits : ℕ) (s : Statement) (i : Instruction F) : Prop :=
  ∀ c : Circuit F, c.qubits = qubits → c.clbits = clbits →
    applyStatement (layout F qubits clbits, c) s =
      .ok (layout F qubits clbits, { c with instructions := c.instructions ++ [i] })

theorem appends_measure {qubits clbits q b : ℕ} (hq : q < qubits) (hb : b < clbits) :
    Appends (F := F) qubits clbits (.measure [⟨"q", some q⟩] [⟨"c", some b⟩])
      (.measure q b) := by
  rintro c rfl rfl
  have hpush : c.measure q b = .ok { c with instructions := c.instructions ++ [.measure q b] } :=
    Circuit.push_of_lt (by simpa [Instruction.measure] using hq)
      (by simpa [Instruction.measure] using hb)
  have hbit : elements (F := F) (layout F c.qubits c.clbits).bits ⟨"c", some b⟩ = .ok [b] :=
    elements_of_lt hb
  simp [applyStatement, applyMeasure, qubitsOf_layout hq, hbit, hpush, liftCircuit, bind,
    Except.bind, pure, Except.pure]

theorem appends_gate {qubits clbits : ℕ} {name : String} {tag : Tag} {es : List Expression}
    {ps : List (Param F)} {g : Gate F} {qs : List ℕ} (hu : name ≠ "u2")
    (htag : standardGate? name = some tag)
    (hes : Expression.toParams (layout F qubits clbits) {} es = .ok ps)
    (hg : Gate.new tag ps = .ok g) (hqs : QubitList qubits g.qubits qs)
    (hcount : qs.length = tag.qubits?.getD 0) :
    Appends qubits clbits (.gate ⟨name, es, qs.map fun q => ⟨"q", some q⟩⟩) ⟨g, qs, []⟩ := by
  rintro c rfl rfl
  have hargs : (qs.map fun q => (⟨"q", some q⟩ : Reference)).mapM
      (qubitsOf (layout F c.qubits c.clbits) {}) = .ok (qs.map fun q => [q]) := by
    rw [mapM_eq_ok_iff, List.forall₂_map_left_iff, List.forall₂_map_right_iff, List.forall₂_same]
    exact fun q hq => qubitsOf_layout (hqs.lt q hq)
  have happly : c.apply tag ps qs =
      .ok { c with instructions := c.instructions ++ [⟨g, qs, []⟩] } :=
    Circuit.apply_of_new hg hqs
  -- single qubits are broadcast to one row, so the gate is appended once
  have hstandard : applyStandard tag name ps (qs.map fun q => [q]) c =
      .ok { c with instructions := c.instructions ++ [⟨g, qs, []⟩] } := by
    have hparams := (Gate.new_eq_ok_iff.mp hg).2.1
    rw [applyStandard, checkParamCount, if_pos hparams, checkQubitCount, List.length_map,
      if_pos hcount, broadcast_singletons]
    change (liftCircuit (c.apply tag ps qs) >>= _) = _
    rw [happly]
    rfl
  have hcall : applyCall (layout F c.qubits c.clbits) maxInlineDepth {} c
      ⟨name, es, qs.map fun q => ⟨"q", some q⟩⟩ =
        .ok { c with instructions := c.instructions ++ [⟨g, qs, []⟩] } := by
    rw [applyCall.eq_def]
    dsimp only
    rw [hes]
    change ((qs.map fun q => (⟨"q", some q⟩ : Reference)).mapM
      (qubitsOf (layout F c.qubits c.clbits) {}) >>= _) = _
    rw [hargs]
    change (if name = "u2" then _ else _) = _
    rw [if_neg hu, htag]
    exact hstandard
  rw [applyStatement, hcall]
  rfl

theorem foldlM_appends {qubits clbits : ℕ} {statements : List Statement}
    {is : List (Instruction F)} (h : List.Forall₂ (Appends qubits clbits) statements is)
    {c : Circuit F} (hq : c.qubits = qubits) (hc : c.clbits = clbits) :
    statements.foldlM applyStatement (layout F qubits clbits, c) =
      .ok (layout F qubits clbits, { c with instructions := c.instructions ++ is }) := by
  induction h generalizing c with
  | nil => simp [pure, Except.pure]
  | @cons s i statements is hs _ ih =>
    rw [List.foldlM_cons, hs c hq hc]
    have h := ih (c := { c with instructions := c.instructions ++ [i] }) hq hc
    rw [List.append_assoc] at h
    exact h

theorem toCircuit_of_appends {qubits clbits : ℕ} (hq : qubits < Number.indexLimit)
    (hc : clbits < Number.indexLimit) (version path : String) {body : List Statement}
    {is : List (Instruction F)} (hbody : ∀ s ∈ body, ∀ env : Environment F, env.declare s = .ok env)
    (h : List.Forall₂ (Appends qubits clbits) body is) :
    Program.toCircuit (F := F)
        ⟨version, .includeFile path :: (declarations qubits clbits ++ body)⟩ =
      .ok { qubits := qubits, clbits := clbits, instructions := is } := by
  have hskip : ∀ state : Environment F × Circuit F,
      (declarations qubits clbits).foldlM applyStatement state = .ok state := by
    intro state
    rw [declarations]
    split_ifs <;> rfl
  let start : Circuit F := { qubits := qubits, clbits := clbits }
  have hrun := foldlM_appends h (c := start) rfl rfl
  rw [Program.toCircuit, ofStatements_declarations hq hc path hbody]
  change (List.foldlM applyStatement (layout F qubits clbits, start)
    (declarations qubits clbits ++ body) >>= _) = _
  rw [List.foldlM_append, hskip]
  change (List.foldlM applyStatement _ body >>= _) = _
  rw [hrun]
  rfl

mutual

theorem noDuplicate_toParam (env : Environment F) (scope : Scope F) (e : Expression) :
    Raises (e.toParam env scope) Error.NoDuplicate := by
  cases e with
  | int | float | pi | tau | euler =>
    rw [Expression.toParam]
    exact .ok _ _
  | identifier name =>
    rw [Expression.toParam]
    split
    · exact .ok _ _
    · exact .ok _ _
    · exact .error (by rintro _ ⟨⟩)
  | neg e =>
    rw [Expression.toParam]
    exact (noDuplicate_toParam env scope e).bind fun _ _ => .ok _ _
  | paren e =>
    rw [Expression.toParam]
    exact noDuplicate_toParam env scope e
  | binary l op r =>
    rw [Expression.toParam]
    refine (noDuplicate_toParam env scope l).bind fun _ _ =>
      (noDuplicate_toParam env scope r).bind fun _ _ => ?_
    split
    · exact .ok _ _
    · exact .ok _ _
    · exact .ok _ _
    · exact .ok _ _
    · split
      · exact .ok _ _
      · exact .error (by rintro _ ⟨⟩)
  | call function args =>
    rw [Expression.toParam]
    refine (noDuplicate_toParams env scope args).bind fun _ _ => ?_
    split
    · split
      · exact .ok _ _
      · exact .error (by rintro _ ⟨⟩)
    · exact .error (by rintro _ ⟨⟩)

theorem noDuplicate_toParams (env : Environment F) (scope : Scope F) (es : List Expression) :
    Raises (Expression.toParams env scope es) Error.NoDuplicate := by
  cases es with
  | nil =>
    rw [Expression.toParams]
    exact .ok _ _
  | cons e es =>
    rw [Expression.toParams]
    exact (noDuplicate_toParam env scope e).bind fun _ _ =>
      (noDuplicate_toParams env scope es).bind fun _ _ => .ok _ _

end

theorem noDuplicate_applyStandard (tag : Tag) (name : String) (params : List (Param F))
    (args : List (List ℕ)) (c : Circuit F) :
    Raises (applyStandard tag name params args c) Error.NoDuplicate :=
  (noDuplicate_checkParamCount _ _ _).bind fun _ _ =>
    (noDuplicate_checkQubitCount _ _ _).bind fun _ _ =>
      (noDuplicate_broadcast _ _).bind fun _ _ =>
        .foldlM (fun _ _ _ => noDuplicate_liftCircuit _) _

theorem noDuplicate_applyCall (env : Environment F) (levels : ℕ) (scope : Scope F)
    (c : Circuit F) (call : GateCall) :
    Raises (applyCall env levels scope c call) Error.NoDuplicate := by
  induction levels using Nat.strong_induction_on generalizing scope c call with
  | _ levels ih =>
    rw [applyCall.eq_def]
    refine (noDuplicate_toParams _ _ _).bind fun params _ =>
      (Raises.mapM fun _ _ => noDuplicate_qubitsOf _ _ _).bind fun args _ => ?_
    split_ifs
    · exact (noDuplicate_checkParamCount _ _ _).bind fun _ _ => noDuplicate_applyStandard _ _ _ _ _
    split
    · exact noDuplicate_applyStandard _ _ _ _ _
    split
    · exact .error (by rintro _ ⟨⟩)
    split
    · exact .error (by rintro _ ⟨⟩)
    · refine (noDuplicate_checkParamCount _ _ _).bind fun _ _ =>
        (noDuplicate_checkQubitCount _ _ _).bind fun _ _ =>
          (noDuplicate_broadcast _ _).bind fun _ _ => .foldlM (fun _ _ _ => ?_) _
      exact .foldlM (fun _ _ _ => ih _ (Nat.lt_succ_self _) _ _ _) _

theorem noDuplicate_applyStatement {s : Statement} (h : Acts s)
    (state : Environment F × Circuit F) : Raises (applyStatement state s) Error.NoDuplicate := by
  cases h with
  | gate call => exact (noDuplicate_applyCall _ _ _ _ _).bind fun _ _ => .ok _ _
  | measure qubits bits => exact (noDuplicate_applyMeasure _ _ _ _).bind fun _ _ => .ok _ _

section

variable {qubits clbits : ℕ} {names : List String} {acts : List Statement}

/-- Inputs are declared one after the other, up to the first whose name is taken. -/
theorem foldlM_inputs_eq_error_iff (hnames : names.Nodup) (state : Environment F × Circuit F)
    {e : Error F} : (names.map Statement.input).foldlM applyStatement state = .error e ↔
      ∃ name, names.find? (fun name => !state.1.isFresh name) = some name ∧
        e = .duplicateDeclaration name := by
  induction names generalizing state with
  | nil =>
    constructor
    · rintro ⟨⟩
    · rintro ⟨_, ⟨⟩, -⟩
  | cons name names ih =>
    obtain ⟨hname, hnames⟩ := List.nodup_cons.mp hnames
    rw [List.map_cons, List.foldlM_cons]
    cases hfresh : state.1.isFresh name with
    | false =>
      have hstep : applyStatement state (.input name) = .error (.duplicateDeclaration name) := by
        simp [applyStatement, Environment.checkFresh, hfresh, bind, Except.bind]
      rw [List.find?_cons_of_pos (by simp [hfresh]), hstep]
      constructor
      · rintro ⟨⟩
        exact ⟨name, rfl, rfl⟩
      · rintro ⟨_, ⟨⟩, rfl⟩
        rfl
    | true =>
      obtain ⟨p, c, hstep⟩ : ∃ p c, applyStatement state (.input name) =
          .ok ({ state.1 with inputs := state.1.inputs ++ [(name, p)] }, c) := by
        simp [applyStatement, Environment.checkFresh, hfresh, bind, Except.bind, pure, Except.pure]
      rw [List.find?_cons_of_neg (by simp [hfresh]), hstep]
      refine (ih hnames _).trans ?_
      -- the names are different: declaring this one leaves the others as they were
      rw [List.find?_congr fun other hother => ?_]
      have hne : (other == name) = false := beq_false_of_ne (ne_of_mem_of_not_mem hother hname)
      simp [Environment.isFresh, List.lookup_append, List.lookup_cons, hne]

/-- A program of inputs, registers and a body is refused for a name that is declared twice just when
an input is named like a register. The first such input is the one in the error. -/
theorem toCircuit_eq_duplicate_iff (hq : qubits < Number.indexLimit)
    (hc : clbits < Number.indexLimit) (number path : String) (hnames : names.Nodup)
    (hacts : ∀ s ∈ acts, Acts s) {name : String} :
    Program.toCircuit (F := F) ⟨number, programStatements path names qubits clbits acts⟩ =
        .error (.duplicateDeclaration name) ↔
      names.find? (fun name => decide (name ∈ registerNames qubits clbits)) = some name := by
  let start : Environment F × Circuit F :=
    (layout F qubits clbits, { qubits := qubits, clbits := clbits })
  have hbody : ∀ state : Environment F × Circuit F,
      Raises ((declarations qubits clbits ++ acts).foldlM applyStatement state)
        Error.NoDuplicate := by
    refine fun state => .foldlM (List.forall_mem_append.mpr ⟨fun s hs _ => ?_, fun s hs =>
      noDuplicate_applyStatement (hacts s hs)⟩) state
    unfold declarations at hs
    split_ifs at hs
    all_goals
      simp only [List.mem_append, List.mem_singleton, List.not_mem_nil, or_false, false_or] at hs
    · exact hs ▸ .ok _ _
    · exact hs ▸ .ok _ _
    · rcases hs with rfl | rfl
      · exact .ok _ _
      · exact .ok _ _
  have hfind : names.find? (fun name => !start.1.isFresh name) =
      names.find? fun name => decide (name ∈ registerNames qubits clbits) := by
    refine List.find?_congr fun name _ => ?_
    rw [isFresh_layout]
    simp
  rw [← hfind, Program.toCircuit, ofStatements_inputs hq hc path hacts]
  change ((names.map Statement.input ++ (declarations qubits clbits ++ acts)).foldlM applyStatement
    start >>= _) = _ ↔ _
  rw [List.foldlM_append, bind_assoc, bind_eq_error_iff, foldlM_inputs_eq_error_iff hnames]
  constructor
  · rintro (⟨_, hname, ⟨⟩⟩ | ⟨state, -, h⟩)
    · exact hname
    · rcases bind_eq_error_iff.mp h with h | ⟨_, -, ⟨⟩⟩
      exact absurd rfl (hbody state _ h name)
  · exact fun h => .inl ⟨name, h, rfl⟩

end

end Interchange.Qasm
