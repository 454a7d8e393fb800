import Interchange.Proofs.RegisterLayout

namespace Interchange.Qasm

mutual

/-- An expression whose formal parameters are replaced by actual ones in parentheses. -/
def Expression.replace (actuals : List (String × Expression)) : Expression → Expression
  | .identifier name => match actuals.lookup name with
    | some e => .paren e
    | none => .identifier name
  | .neg e => .neg (e.replace actuals)
  | .binary left op right => .binary (left.replace actuals) op (right.replace actuals)
  | .call function args => .call function (Expression.replaceAll actuals args)
  | .paren e => .paren (e.replace actuals)
  | .int value => .int value
  | .float value => .float value
  | .pi => .pi
  | .tau => .tau
  | .euler => .euler

def Expression.replaceAll (actuals : List (String × Expression)) :
    List Expression → List Expression
  | [] => []
  | e :: es => e.replace actuals :: Expression.replaceAll actuals es

end

/-- A formal qubit replaced by an actual one. Only names without an index are formal qubits. -/
def Reference.replace (actuals : List (String × Reference)) (r : Reference) : Reference :=
  match r.index, actuals.lookup r.register with
  | none, some actual => actual
  | _, _ => r

def GateCall.replace (params : List (String × Expression)) (qubits : List (String × Reference))
    (call : GateCall) : GateCall where
  name := call.name
  params := Expression.replaceAll params call.params
  qubits := call.qubits.map (Reference.replace qubits)

/-- The calls of a definition with actual parameters and qubits in place of the formal ones. -/
def GateDefinition.expand (d : GateDefinition) (params : List Expression)
    (qubits : List Reference) : List GateCall :=
  d.body.map (GateCall.replace (d.params.zip params) (d.qubits.zip qubits))

def Environment.reference {F : Type} (env : Environment F) (q : ℕ) : Reference :=
  match env.qubits.find? (q ∈ ·.2.indices) with
  | some e => ⟨e.1, some (q - e.2.start)⟩
  | none => ⟨"", none⟩

section

variable {α β γ : Type} [BEq α]

theorem rel_lookup_zip {R : β → γ → Prop} {bs : List β} {cs : List γ} (h : List.Forall₂ R bs cs)
    (keys : List α) (k : α) :
    Option.Rel R ((keys.zip bs).lookup k) ((keys.zip cs).lookup k) := by
  induction h generalizing keys with
  | nil =>
    rw [List.zip_nil_right, List.zip_nil_right]
    exact .none
  | cons hbc _ ih =>
    cases keys with
    | nil => exact .none
    | cons key keys =>
      rw [List.zip_cons_cons, List.zip_cons_cons, List.lookup_cons, List.lookup_cons]
      cases k == key with
      | true => exact .some hbc
      | false => exact ih keys

theorem lookup_reverse [LawfulBEq α] {l : List (α × β)} (hl : (l.map Prod.fst).Nodup) (k : α) :
    l.reverse.lookup k = l.lookup k := by
  cases h : l.lookup k with
  | none =>
    rw [List.lookup_eq_none_iff] at h ⊢
    exact fun e he => h e (List.mem_reverse.mp he)
  | some v =>
    refine lookup_of_nodup ?_ (List.mem_reverse.mpr (mem_of_lookup h))
    rw [List.map_reverse]
    exact List.nodup_reverse.mpr hl

end

theorem LaidOut.elements_reference {F : Type} {declared : List (String × ℕ)} {env : Environment F}
    {width : ℕ} (h : LaidOut declared env.qubits width) {q : ℕ} (hq : q < width) :
    elements (F := F) env.qubits (env.reference q) = .ok [q] := by
  have hmem : q ∈ env.qubits.flatMap (·.2.indices) := by
    rw [h.tiles]
    exact List.mem_range.mpr hq
  obtain ⟨e, he, hqe⟩ := List.mem_flatMap.mp hmem
  obtain ⟨e', hfind⟩ : ∃ e', env.qubits.find? (q ∈ ·.2.indices) = some e' :=
    Option.isSome_iff_exists.mp (List.find?_isSome.mpr ⟨e, he, decide_eq_true hqe⟩)
  have hq' := List.find?_some hfind
  obtain ⟨hle, hlt⟩ := Register.mem_indices.mp (of_decide_eq_true hq')
  rw [Environment.reference, hfind]
  have hlookup := lookup_of_nodup h.nodup (List.mem_of_find?_eq_some hfind)
  exact elements_eq_ok_iff.mpr ⟨e'.2, hlookup, by omega, by rw [Nat.add_sub_cancel' hle]⟩

variable {F : Type} [Scalar F] {env : Environment F} {scope : Scope F}

section

variable {actuals : List (String × Expression)}

mutual

/-- Replaced parameters stand for what the formal ones stand for in scope. -/
theorem toParam_replace
    (h : ∀ name, Option.Rel (fun e p => e.toParam env {} = .ok p) (actuals.lookup name)
      (scope.params.lookup name)) (e : Expression) :
    (e.replace actuals).toParam env {} = e.toParam env scope := by
  cases e with
  | int | float | pi | tau | euler =>
    rw [Expression.replace, Expression.toParam, Expression.toParam]
  | identifier name =>
    rw [Expression.replace, Expression.toParam.eq_def env scope]
    have hname := h name
    revert hname
    dsimp only
    generalize actuals.lookup name = actual
    generalize scope.params.lookup name = value
    rintro (he | _)
    · rw [Expression.toParam, he]
    · rw [Expression.toParam]
      rfl
  | neg e => rw [Expression.replace, Expression.toParam, Expression.toParam, toParam_replace h e]
  | paren e => rw [Expression.replace, Expression.toParam, Expression.toParam, toParam_replace h e]
  | binary left op right =>
    rw [Expression.replace, Expression.toParam, Expression.toParam, toParam_replace h left,
      toParam_replace h right]
  | call function args =>
    rw [Expression.replace, Expression.toParam, Expression.toParam, toParams_replaceAll h args]

theorem toParams_replaceAll
    (h : ∀ name, Option.Rel (fun e p => e.toParam env {} = .ok p) (actuals.lookup name)
      (scope.params.lookup name)) (es : List Expression) :
    Expression.toParams env {} (Expression.replaceAll actuals es) =
      Expression.toParams env scope es := by
  cases es with
  | nil => rw [Expression.replaceAll, Expression.toParams, Expression.toParams]
  | cons e es =>
    rw [Expression.replaceAll, Expression.toParams, Expression.toParams, toParam_replace h e,
      toParams_replaceAll h es]

end

end

/-- What replacing formal parameters and qubits asks for: each actual one stands for the value of
the formal one in scope. -/
structure Actual (env : Environment F) (scope : Scope F) (params : List (String × Expression))
    (qubits : List (String × Reference)) : Prop where
  params : ∀ name, Option.Rel (fun e p => e.toParam env {} = .ok p) (params.lookup name)
    (scope.params.lookup name)
  qubits : ∀ name, Option.Rel (fun r q => elements (F := F) env.qubits r = .ok [q])
    (qubits.lookup name) (scope.qubits.lookup name)

section

variable {params : List (String × Expression)} {qubits : List (String × Reference)}

theorem Actual.qubitsOf_replace (h : Actual env scope params qubits) (r : Reference) :
    qubitsOf env {} (r.replace qubits) = qubitsOf env scope r := by
  rw [qubitsOf_empty]
  unfold Reference.replace qubitsOf
  cases r.index with
  | some i => rfl
  | none =>
    have hname := h.qubits r.register
    revert hname
    generalize qubits.lookup r.register = actual
    generalize scope.qubits.lookup r.register = value
    rintro (hq | _)
    · exact hq
    · rfl

/-- A call sees its scope only through the values of its parameters and operands. -/
theorem applyCall_replace (h : Actual env scope params qubits) (levels : ℕ) (c : Circuit F)
    (call : GateCall) :
    applyCall env levels {} c (call.replace params qubits) = applyCall env levels scope c call := by
  have hparams := toParams_replaceAll h.params call.params
  have hargs : (call.qubits.map (Reference.replace qubits)).mapM (qubitsOf env {}) =
      call.qubits.mapM (qubitsOf env scope) := by
    rw [List.mapM_map]
    exact congrArg (call.qubits.mapM ·) (funext h.qubitsOf_replace)
  rw [applyCall.eq_def, applyCall.eq_def env levels scope]
  dsimp only [GateCall.replace]
  rw [hparams, hargs]

end

theorem toParams_eq_ok_iff {es : List Expression} {ps : List (Param F)} :
    Expression.toParams env scope es = .ok ps ↔
      List.Forall₂ (fun e p => e.toParam env scope = .ok p) es ps := by
  rw [← mapM_eq_ok_iff]
  suffices h : Expression.toParams env scope es = es.mapM (Expression.toParam env scope) by rw [h]
  induction es with
  | nil =>
    rw [Expression.toParams, List.mapM_nil]
    rfl
  | cons e es ih => rw [Expression.toParams, List.mapM_cons, ih]

omit [Scalar F] in
theorem forall₂_mem_of_broadcast {gate : String} {args rows : List (List ℕ)}
    (h : broadcast (F := F) gate args = .ok rows) {row : List ℕ} (hrow : row ∈ rows) :
    List.Forall₂ (· ∈ ·) row args := by
  unfold broadcast at h
  dsimp only at h
  generalize (if ((args.map List.length).filter (· != 1)).isEmpty then 1
    else ((args.map List.length).filter (· != 1)).foldl max 0) = width at h
  split_ifs at h with hsizes
  obtain rfl := Except.ok.inj h
  obtain ⟨i, hi, rfl⟩ := List.mem_map.mp hrow
  rw [List.forall₂_map_left_iff, List.forall₂_same]
  intro a ha
  split
  next q => exact List.mem_singleton_self q
  next hsingle =>
    -- an argument that is not a single qubit has as many elements as there are rows
    have hlength : a.length = width := by
      by_contra hne
      refine hsizes (List.any_eq_true.mpr ⟨a.length, ?_, by simpa using hne⟩)
      refine List.mem_filter.mpr ⟨List.mem_map_of_mem ha, bne_iff_ne.mpr fun hone => ?_⟩
      obtain ⟨q, rfl⟩ := List.length_eq_one_iff.mp hone
      exact hsingle q rfl
    have hlt : i < a.length := hlength ▸ List.mem_range.mp hi
    rw [List.getD_eq_getElem?_getD, List.getElem?_eq_getElem hlt]
    exact List.getElem_mem hlt

section

variable {call : GateCall} {d : GateDefinition} {levels : ℕ} {c c' : Circuit F}

/-- A call of a gate that is not standard runs the body of its definition for each row of operands,
with one level less to open. -/
theorem applyCall_eq_ok_iff (hu2 : call.name ≠ "u2") (hstandard : standardGate? call.name = none) :
    applyCall env levels scope c call = .ok c' ↔ ∃ d m params args rows,
      env.gates.lookup call.name = some d ∧ levels = m + 1 ∧
      Expression.toParams env scope call.params = .ok params ∧
      call.qubits.mapM (qubitsOf env scope) = .ok args ∧
      params.length = d.params.length ∧ args.length = d.qubits.length ∧
      broadcast (F := F) call.name args = .ok rows ∧
      rows.foldlM (fun c qubits => d.body.foldlM (applyCall env m (.ofCall d params qubits)) c)
        c = .ok c' := by
  have hcount {p : Prop} [Decidable p] {e : Error F} {u : Unit} :
      (if p then .ok () else .error e : Except (Error F) Unit) = .ok u ↔ p := by
    split_ifs with hp
    · exact ⟨fun _ => hp, fun _ => rfl⟩
    · exact ⟨by rintro ⟨⟩, fun h => absurd h hp⟩
  rw [applyCall.eq_def]
  simp only [bind_eq_ok_iff, if_neg hu2, hstandard]
  constructor
  · rintro ⟨params, hparams, args, hargs, h⟩
    split at h
    next => cases h
    next d hd =>
      split at h
      next => cases h
      next m =>
        simp only [bind_eq_ok_iff, checkParamCount, checkQubitCount, hcount] at h
        obtain ⟨_, hp, _, hq, rows, hrows, hrun⟩ := h
        exact ⟨d, m, params, args, rows, hd, rfl, hparams, hargs, hp, hq, hrows, hrun⟩
  · rintro ⟨d, m, params, args, rows, hd, rfl, hparams, hargs, hp, hq, hrows, hrun⟩
    refine ⟨params, hparams, args, hargs, ?_⟩
    simp only [hd, bind_eq_ok_iff, checkParamCount, checkQubitCount, hcount]
    exact ⟨(), hp, (), hq, rows, hrows, hrun⟩

theorem applyCall_of_standard (h : call.name = "u2" ∨ standardGate? call.name ≠ none) (m n : ℕ) :
    applyCall env m scope c call = applyCall env n scope c call := by
  rw [applyCall.eq_def, applyCall.eq_def env n]
  by_cases hu2 : call.name = "u2"
  · simp only [if_pos hu2]
  · obtain ⟨tag, htag⟩ := Option.ne_none_iff_exists'.mp (h.resolve_left hu2)
    simp only [htag]

/-- More levels of definitions to open keep a call that succeeds. -/
theorem applyCall_succ (h : applyCall env levels scope c call = .ok c') :
    applyCall env (levels + 1) scope c call = .ok c' := by
  induction levels using Nat.strongRecOn generalizing scope c c' call with
  | _ levels ih =>
    by_cases hstandard : call.name = "u2" ∨ standardGate? call.name ≠ none
    · rwa [applyCall_of_standard hstandard (levels + 1) levels]
    obtain ⟨hu2, hnone⟩ := not_or.mp hstandard
    rw [not_not] at hnone
    obtain ⟨d, m, params, args, rows, hd, rfl, hparams, hargs, hp, hq, hrows, hrun⟩ :=
      (applyCall_eq_ok_iff hu2 hnone).mp h
    refine (applyCall_eq_ok_iff hu2 hnone).mpr
      ⟨d, m + 1, params, args, rows, hd, rfl, hparams, hargs, hp, hq, hrows, ?_⟩
    refine foldlM_of_steps (fun row _ c c' hrow => ?_) hrun
    exact foldlM_of_steps (fun call _ c c' hcall => ih m (Nat.lt_succ_self m) hcall) hrow

end

/-- The formal parameters and qubits of a call have its expressions and one row of operands for
actual ones. -/
theorem actual_ofCall {d : GateDefinition} {es : List Expression} {params : List (Param F)}
    {row : List ℕ} (hparams : d.params.Nodup) (hqubits : d.qubits.Nodup)
    (hes : Expression.toParams env {} es = .ok params) (hp : params.length = d.params.length)
    (hq : row.length = d.qubits.length)
    (hrow : ∀ q ∈ row, elements (F := F) env.qubits (env.reference q) = .ok [q]) :
    Actual env (.ofCall d params row) (d.params.zip es)
      (d.qubits.zip (row.map env.reference)) := by
  refine ⟨fun name => ?_, fun name => ?_⟩
  · rw [Scope.ofCall, lookup_reverse (by rwa [List.map_fst_zip hp.ge])]
    exact rel_lookup_zip (toParams_eq_ok_iff.mp hes) d.params name
  · rw [Scope.ofCall, lookup_reverse (by rwa [List.map_fst_zip hq.ge])]
    refine rel_lookup_zip ?_ d.qubits name
    rw [List.forall₂_map_left_iff, List.forall₂_same]
    exact hrow

theorem foldlM_flatMap_applyCall {rows : List (List ℕ)} {expand : List ℕ → List GateCall}
    (levels : ℕ) (c : Circuit F) :
    (rows.flatMap expand).foldlM (applyCall env levels scope) c =
      rows.foldlM (fun c row => (expand row).foldlM (applyCall env levels scope) c) c := by
  induction rows generalizing c with
  | nil => rfl
  | cons row rows ih =>
    rw [List.flatMap_cons, List.foldlM_append, List.foldlM_cons]
    exact congrArg _ (funext ih)

/-- Calls outside a definition see no formal parameters and qubits and may open all levels. -/
theorem foldlM_applyStatement_gate {calls : List GateCall} {c c' : Circuit F}
    (h : calls.foldlM (applyCall env maxInlineDepth {}) c = .ok c') :
    (calls.map Statement.gate).foldlM applyStatement (env, c) = .ok (env, c') := by
  induction calls generalizing c with
  | nil => exact congrArg (fun c => Except.ok (env, c)) (Except.ok.inj h)
  | cons call calls ih =>
    obtain ⟨c₁, hcall, h⟩ := bind_eq_ok_iff.mp h
    refine bind_eq_ok_iff.mpr ⟨(env, c₁), ?_, ih h⟩
    exact bind_eq_ok_iff.mpr ⟨c₁, hcall, rfl⟩

/-- Opening a gate definition is macro expansion. Whenever a call of a defined gate with distinct
formals succeeds, it appends what the calls of its body append as statements of the program: for
each row of operands in turn, with the call's own expressions in parentheses for the formal
parameters, and a reference to the operand for each formal qubit. -/
theorem applyStatement_gate_eq_expand (before after : List Statement) {call : GateCall}
    {start env : Environment F} {c : Circuit F}
    (hstart : Environment.ofStatements (before ++ .gate call :: after) = .ok start)
    (hbefore : before.foldlM applyStatement
      (start, { qubits := start.width, clbits := start.bitWidth }) = .ok (env, c))
    (hu2 : call.name ≠ "u2") (hstandard : standardGate? call.name = none) {d : GateDefinition}
    (hd : env.gates.lookup call.name = some d) (hparams : d.params.Nodup) (hqubits : d.qubits.Nodup)
    {state : Environment F × Circuit F}
    (hstatement : applyStatement (env, c) (.gate call) = .ok state) :
    ∃ args rows added,
      call.qubits.mapM (elements (F := F) env.qubits) = .ok args ∧
      broadcast (F := F) call.name args = .ok rows ∧
      (∀ row ∈ rows, ∀ q ∈ row, elements (F := F) env.qubits (env.reference q) = .ok [q]) ∧
      state.2.instructions = c.instructions ++ added ∧
      ((rows.flatMap fun row => d.expand call.params (row.map env.reference)).map
        Statement.gate).foldlM applyStatement (env, c) = .ok state := by
  obtain ⟨c', hcall, hstate⟩ := bind_eq_ok_iff.mp hstatement
  obtain rfl := Except.ok.inj hstate
  obtain ⟨_, m, params, args, rows, hd', hm, hes, hargs, hp, hq, hrows, hrun⟩ :=
    (applyCall_eq_ok_iff hu2 hstandard).mp hcall
  obtain rfl := Option.some.inj (hd.symm.trans hd')
  rw [qubitsOf_empty] at hargs
  have hlaid := Environment.partitioned_ofStatements _ start hstart
  have hkeeps := Environment.Keeps.of_run hlaid hbefore
  have hreference (row : List ℕ) (hrow : row ∈ rows) (q : ℕ) (hqrow : q ∈ row) :
      elements (F := F) env.qubits (env.reference q) = .ok [q] := by
    obtain ⟨arg, harg, hqarg⟩ := exists_of_forall₂_left (forall₂_mem_of_broadcast hrows hrow) hqrow
    rw [hkeeps.qubits] at hargs
    refine LaidOut.elements_reference (hkeeps.qubits ▸ hlaid.qubits) ?_
    exact hlaid.qubits.elements_lt hargs q (List.mem_flatten_of_mem harg hqarg)
  obtain ⟨added, hadded⟩ := extends_of_applyCall hcall
  refine ⟨args, rows, added, hargs, hrows, hreference, hadded.instructions,
    foldlM_applyStatement_gate ?_⟩
  rw [foldlM_flatMap_applyCall]
  refine foldlM_of_steps (fun row hrow c c' hbody => ?_) hrun
  have hactual := actual_ofCall hparams hqubits hes hp
    ((forall₂_mem_of_broadcast hrows hrow).length_eq.trans hq) (hreference row hrow)
  rw [GateDefinition.expand, List.foldlM_map]
  refine foldlM_of_steps (fun call _ c c' hcall => ?_) hbody
  rw [applyCall_replace hactual, hm]
  exact applyCall_succ hcall

def turn : GateDefinition := ⟨"turn", ["x"], ["a"], [⟨"rx", [.identifier "x"], [⟨"a", none⟩]⟩]⟩

/-- A gate whose body opens another one and names a register. -/
def twist : GateDefinition where
  name := "twist"
  params := ["t"]
  qubits := ["a", "b"]
  body := [⟨"turn", [.identifier "t"], [⟨"b", none⟩]⟩, ⟨"cx", [], [⟨"a", none⟩, ⟨"b", none⟩]⟩,
    ⟨"h", [], [⟨"q", some 0⟩]⟩]

def twistCall : GateCall := ⟨"twist", [.identifier "theta"], [⟨"r", none⟩, ⟨"q", none⟩]⟩

def twistDeclarations : List Statement :=
  [.qubits "q" 2, .qubits "r" 1, .input "theta", .definition turn, .definition twist]

def twistEnvironment : Environment Float where
  qubits := [("q", ⟨0, 2⟩), ("r", ⟨2, 1⟩)]
  inputs := [("theta", .ref ⟨0, "theta"⟩)]
  gates := [("turn", turn), ("twist", twist)]
  width := 3

def twistCircuit : Circuit Float := { qubits := 3, clbits := 0, registry := ⟨["theta"]⟩ }

def twistExpansion : List Statement := [0, 1].flatMap fun i =>
  [.gate ⟨"turn", [.paren (.identifier "theta")], [⟨"q", some i⟩]⟩,
    .gate ⟨"cx", [], [⟨"r", some 0⟩, ⟨"q", some i⟩]⟩, .gate ⟨"h", [], [⟨"q", some 0⟩]⟩]

theorem applyStatement_gate_eq_expand_twist : ∃ state,
    applyStatement (twistEnvironment, twistCircuit) (.gate twistCall) = .ok state ∧
    twistExpansion.foldlM applyStatement (twistEnvironment, twistCircuit) = .ok state ∧
    state.2.instructions.map (fun i => (i.gate.tag, i.qubits)) =
      [(.rx, [0]), (.cx, [2, 0]), (.h, [0]), (.rx, [1]), (.cx, [2, 1]), (.h, [0])] := by
  have hrun : (applyStatement (twistEnvironment, twistCircuit) (.gate twistCall)).toOption.map
      (fun state => state.2.instructions.map fun i => (i.gate.tag, i.qubits)) =
      some [(.rx, [0]), (.cx, [2, 0]), (.h, [0]), (.rx, [1]), (.cx, [2, 1]), (.h, [0])] := by
    decide +kernel
  cases hcall : applyStatement (twistEnvironment, twistCircuit) (.gate twistCall) with
  | error e =>
    rw [hcall] at hrun
    cases hrun
  | ok state =>
    rw [hcall] at hrun
    obtain ⟨args, rows, -, hargs, hrows, -, -, hexpand⟩ := applyStatement_gate_eq_expand
      twistDeclarations [] rfl rfl (by decide) (by decide) rfl (by decide) (by decide) hcall
    obtain rfl : [[2], [0, 1]] = args := Except.ok.inj hargs
    obtain rfl : [[2, 0], [2, 1]] = rows := Except.ok.inj hrows
    exact ⟨state, rfl, hexpand, Option.some.inj hrun⟩

end Interchange.Qasm
