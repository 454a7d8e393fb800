import Interchange.Proofs.Outcome
import Interchange.Qasm.Parser.Statement

namespace Interchange.Qasm

variable {F : Type}

/-- The errors that reading statements can end in. -/
inductive Error.Syntactic : Error F → Prop
  | unexpectedToken (line : ℕ) (expected found : String) :
    Syntactic (.unexpectedToken line expected found)
  | unexpectedEnd (expected : String) : Syntactic (.unexpectedEnd expected)
  | integerTooLarge (value line : ℕ) : Syntactic (.integerTooLarge value line)
  | unsupported (statement : Unsupported) : Syntactic (.unsupported statement)

/-- Reading tokens leaves the last ones, or ends in a syntactic error. -/
def Advances {α : Type} (ts : List Placed) (rest : α → List Placed) (x : Except (Error F) α) :
    Prop :=
  Returns x (fun a => rest a <:+ ts) ∧ Raises x Error.Syntactic

namespace Advances

variable {α β : Type} {t : Placed} {ts us : List Placed} {rest : α → List Placed}
  {rest' : β → List Placed}

theorem ok {a : α} (h : rest a <:+ ts) : Advances (F := F) ts rest (.ok a) := ⟨.ok h, .ok _ _⟩

theorem error {e : Error F} (h : e.Syntactic) : Advances ts rest (.error e) :=
  ⟨.error _ _, .error h⟩

theorem bind {x : Except (Error F) α} {f : α → Except (Error F) β} (hx : Advances ts rest x)
    (hf : ∀ a, Advances (rest a) rest' (f a)) : Advances ts rest' (x >>= f) := by
  refine ⟨hx.1.bind fun a ha b hb => ?_, hx.2.bind fun a _ => (hf a).2⟩
  exact ((hf a).1 b hb).trans ha

theorem behind {x : Except (Error F) α} (h : Advances ts rest x) : Advances (t :: ts) rest x :=
  ⟨fun a ha => (h.1 a ha).trans (List.suffix_cons t ts), h.2⟩

end Advances

namespace Parser

variable {α β : Type}

section Expression

theorem advances_close (ts : List Placed) : Advances ts Parsed.rest (close (F := F) ts) := by
  unfold close
  split
  · exact .error (.unexpectedEnd _)
  · split_ifs
    · exact .ok (List.suffix_cons _ _)
    · exact .error (.unexpectedToken _ _ _)

mutual

theorem advances_binary (least : ℕ) (ts : List Placed) :
    Advances ts Parsed.rest (binary (F := F) least ts) := by
  rw [binary]
  refine (advances_unary ts).bind fun first => ?_
  have := first.rest_lt
  exact (advances_climb least first.value first.rest).bind fun _ => .ok List.suffix_rfl
termination_by (ts.length, 4)

theorem advances_climb (least : ℕ) (left : Expression) (ts : List Placed) :
    Advances ts Parsed.rest (climb (F := F) least left ts) := by
  cases ts with
  | nil =>
    rw [climb]
    exact .ok List.suffix_rfl
  | cons t rest =>
    rw [climb]
    split
    · exact .ok List.suffix_rfl
    · split_ifs
      · exact .ok List.suffix_rfl
      · refine (advances_binary _ rest).behind.bind fun right => ?_
        have := right.rest_lt
        exact (advances_climb least _ right.rest).bind fun _ => .ok List.suffix_rfl
termination_by (ts.length, 0)

theorem advances_unary (ts : List Placed) : Advances ts Parsed.rest (unary (F := F) ts) := by
  rw [unary.eq_def]
  split
  · exact (advances_unary _).behind.bind fun _ => .ok List.suffix_rfl
  · exact (advances_unary _).behind.bind fun _ => .ok List.suffix_rfl
  · exact advances_primary ts
termination_by (ts.length, 3)

theorem advances_primary (ts : List Placed) : Advances ts Parsed.rest (primary (F := F) ts) := by
  cases ts with
  | nil =>
    rw [primary]
    exact .error (.unexpectedEnd _)
  | cons t rest =>
    rw [primary]
    split
    · exact .ok (List.suffix_cons _ _)
    · exact .ok (List.suffix_cons _ _)
    · exact .ok (List.suffix_cons _ _)
    · exact .ok (List.suffix_cons _ _)
    · exact .ok (List.suffix_cons _ _)
    · split
      · exact (advances_arguments _).behind.behind.bind fun _ => (advances_close _).bind fun _ =>
          .ok List.suffix_rfl
      · exact .ok (List.suffix_cons _ _)
    · exact (advances_binary 0 rest).behind.bind fun _ => (advances_close _).bind fun _ =>
        .ok List.suffix_rfl
    · exact .error (.unexpectedToken _ _ _)
termination_by (ts.length, 2)

theorem advances_arguments (ts : List Placed) :
    Advances ts Parsed.rest (arguments (F := F) ts) := by
  rw [arguments.eq_def]
  split
  · exact .ok List.suffix_rfl
  · refine (advances_binary 0 ts).bind fun first => ?_
    have := first.rest_lt
    exact (advances_moreArguments first.rest).bind fun _ => .ok List.suffix_rfl
termination_by (ts.length, 5)

theorem advances_moreArguments (ts : List Placed) :
    Advances ts Parsed.rest (moreArguments (F := F) ts) := by
  rw [moreArguments.eq_def]
  split
  · refine (advances_binary 0 _).behind.bind fun first => ?_
    have := first.rest_lt
    exact (advances_moreArguments first.rest).bind fun _ => .ok List.suffix_rfl
  · exact .ok List.suffix_rfl
termination_by (ts.length, 0)
decreasing_by all_goals (subst_vars; decreasing_tactic)

end

end Expression

theorem seq_eq_ok {p : Parser F α} {f : α → Parser F β} {ts : List Placed} {b : β}
    {after : { rest : List Placed // rest.length ≤ ts.length }}
    (h : (p >>= f) ts = .ok (b, after)) :
    ∃ a rest rest', p ts = .ok (a, rest) ∧ f a rest.val = .ok (b, rest') ∧
      rest'.val = after.val := by
  obtain ⟨⟨a, rest⟩, hp, h⟩ := bind_eq_ok_iff.mp h
  obtain ⟨⟨b', rest'⟩, hf, h⟩ := bind_eq_ok_iff.mp h
  cases h
  exact ⟨a, rest, rest', hp, hf, rfl⟩

/-- A parser that leaves the last tokens, or ends in a syntactic error. -/
def Regular (p : Parser F α) : Prop := ∀ ts, Advances ts (·.2.val) (p ts)

namespace Regular

theorem pure (a : α) : Regular (pure a : Parser F α) := fun _ => .ok List.suffix_rfl

theorem bind {p : Parser F α} {f : α → Parser F β} (hp : Regular p) (hf : ∀ a, Regular (f a)) :
    Regular (p >>= f) := by
  intro ts
  exact (hp ts).bind fun first => (hf first.1 first.2.val).bind fun _ => .ok List.suffix_rfl

theorem ite {c : Prop} [Decidable c] {p q : Parser F α} (hp : Regular p) (hq : Regular q) :
    Regular (if c then p else q) := by
  split_ifs
  · exact hp
  · exact hq

theorem fail {e : Error F} (h : e.Syntactic) : Regular (fail e : Parser F α) := fun _ => .error h

theorem unexpected (expected : String) (found : Placed) :
    Regular (unexpected expected found : Parser F α) := fail (.unexpectedToken _ _ _)

theorem next (awaited : String) : Regular (next awaited : Parser F Placed) := by
  rintro (_ | ⟨t, ts⟩)
  · exact .error (.unexpectedEnd _)
  · exact .ok (List.suffix_cons _ _)

theorem peek? : Regular (peek? : Parser F (Option Token)) := fun _ => .ok List.suffix_rfl

theorem expect (token : Token) : Regular (expect token : Parser F Unit) :=
  (next _).bind fun _ => .ite (.pure _) (.unexpected _ _)

theorem symbol (s : Symbol) : Regular (symbol s : Parser F Unit) := expect _

theorem keyword (k : Keyword) : Regular (keyword k : Parser F Unit) := expect _

theorem accept (s : Symbol) : Regular (accept s : Parser F Bool) := by
  rintro (_ | ⟨t, ts⟩)
  · exact .ok List.suffix_rfl
  · rw [Parser.accept]
    split_ifs
    · exact .ok (List.suffix_cons _ _)
    · exact .ok List.suffix_rfl

theorem identifier : Regular (identifier : Parser F String) := by
  refine (next _).bind fun found => ?_
  split
  · exact .pure _
  · exact .unexpected _ _

theorem index : Regular (index : Parser F ℕ) := by
  refine (next _).bind fun found => ?_
  split
  · exact .ite (.pure _) (.fail (.integerTooLarge _ _))
  · exact .unexpected _ _

theorem commaTail {item : Parser F α} (h : Regular item) : Regular (commaTail item) := by
  intro ts
  fun_induction Parser.commaTail item ts with
  | case1 => exact .ok List.suffix_rfl
  | case2 t ts hcomma e he => exact .error ((h ts).2 e he)
  | case3 t ts hcomma a rest hitem e he ih => exact .error (ih.2 e he)
  | case4 t ts hcomma a rest hitem all rest' hall ih =>
    exact .ok ((((ih.1 _ hall).trans ((h ts).1 _ hitem))).trans (List.suffix_cons _ _))
  | case5 => exact .ok List.suffix_rfl

theorem commaList {item : Parser F α} (h : Regular item) : Regular (commaList item) :=
  h.bind fun _ => h.commaTail.bind fun _ => .pure _

theorem skipStatement : Regular (skipStatement : Parser F Unit) := by
  intro ts
  fun_induction Parser.skipStatement ts with
  | case1 => exact .error (.unexpectedEnd _)
  | case2 => exact .ok (List.suffix_cons _ _)
  | case3 t ts hsemicolon e he ih => exact .error (ih.2 e he)
  | case4 t ts hsemicolon a rest hrest ih =>
    exact .ok ((ih.1 _ hrest).trans (List.suffix_cons _ _))

theorem expressionList : Regular (expressionList : Parser F (List Expression)) :=
  fun ts => (advances_arguments ts).bind fun _ => .ok List.suffix_rfl

theorem reference : Regular (reference : Parser F Reference) :=
  identifier.bind fun _ => (accept _).bind fun _ =>
    .ite (index.bind fun _ => (symbol _).bind fun _ => .pure _) (.pure _)

theorem references : Regular (references : Parser F (List Reference)) := reference.commaList

theorem terminated (a : α) : Regular (terminated a : Parser F α) :=
  (symbol _).bind fun _ => .pure _

-- What follows an optional part stands in both branches.
theorem gateCall (name : String) : Regular (gateCall name : Parser F GateCall) := by
  refine (accept _).bind fun _ =>
    .ite (expressionList.bind fun _ => (symbol _).bind fun _ => (pure _).bind fun _ => ?_)
      ((pure _).bind fun _ => ?_)
  all_goals exact references.bind fun _ => terminated _

theorem includeStatement : Regular (includeStatement : Parser F Statement) := by
  refine (next _).bind fun found => ?_
  split
  · exact terminated _
  · exact .unexpected _ _

theorem namedRegister (quantum : Bool) : Regular (namedRegister quantum : Parser F Statement) :=
  identifier.bind fun _ => (symbol _).bind fun _ => index.bind fun _ =>
    (symbol _).bind fun _ => terminated _

theorem typedRegister (quantum : Bool) : Regular (typedRegister quantum : Parser F Statement) := by
  refine (accept _).bind fun _ =>
    .ite (index.bind fun _ => (symbol _).bind fun _ => (pure _).bind fun _ => ?_)
      ((pure _).bind fun _ => ?_)
  all_goals exact identifier.bind fun _ => terminated _

theorem inputStatement : Regular (inputStatement : Parser F Statement) := by
  refine (next _).bind fun found => .ite ((accept _).bind fun _ => ?_) (.unexpected _ _)
  refine .ite (index.bind fun _ => (symbol _).bind fun _ => ?_) ?_
  all_goals exact identifier.bind fun _ => terminated _

theorem measureStatement : Regular (measureStatement : Parser F Statement) :=
  references.bind fun _ => (accept _).bind fun _ =>
    .ite (references.bind fun _ => terminated _) ((pure _).bind fun _ => terminated _)

theorem barrierStatement : Regular (barrierStatement : Parser F Statement) :=
  peek?.bind fun _ =>
    .ite ((pure _).bind fun _ => terminated _) (references.bind fun _ => terminated _)

theorem gateName : Regular (gateName : Parser F String) := by
  refine (next _).bind fun found => ?_
  split
  · exact .pure _
  · exact .unexpected _ _

theorem gateBody : Regular (gateBody : Parser F (List GateCall)) := by
  intro ts
  fun_induction Parser.gateBody ts with
  | case1 => exact .error (.unexpectedEnd _)
  | case2 => exact .ok (List.suffix_cons _ _)
  | case3 t ts _ _ e he => exact .error ((skipStatement ts).2 e he)
  | case4 t ts _ _ a rest hrest e he ih => exact .error (ih.2 e he)
  | case5 t ts _ _ a rest hrest calls rest' hcalls ih =>
    exact .ok (((ih.1 _ hcalls).trans ((skipStatement ts).1 _ hrest)).trans (List.suffix_cons _ _))
  | case6 => exact .error (.unexpectedToken _ _ _)
  | case7 t ts _ _ name hname e he => exact .error ((gateCall name ts).2 e he)
  | case8 t ts _ _ name hname a rest hrest e he ih => exact .error (ih.2 e he)
  | case9 t ts _ _ name hname a rest hrest calls rest' hcalls ih =>
    exact .ok (((ih.1 _ hcalls).trans ((gateCall name ts).1 _ hrest)).trans (List.suffix_cons _ _))

theorem definition : Regular (definition : Parser F Statement) := by
  refine gateName.bind fun _ => (accept _).bind fun _ => .ite (peek?.bind fun _ => .ite
    ((pure _).bind fun _ => (symbol _).bind fun _ => (pure _).bind fun _ => ?_)
    (identifier.commaList.bind fun _ => (symbol _).bind fun _ => (pure _).bind fun _ => ?_))
    ((pure _).bind fun _ => ?_)
  all_goals
    exact identifier.commaList.bind fun _ => (symbol _).bind fun _ => gateBody.bind fun _ => pure _

theorem opaqueStatement : Regular (opaqueStatement : Parser F Statement) :=
  gateName.bind fun _ => skipStatement.bind fun _ => .pure _

theorem measureAssignment (register : String) :
    Regular (measureAssignment register : Parser F Statement) := by
  refine (accept _).bind fun _ =>
    .ite (index.bind fun _ => (symbol _).bind fun _ => (pure _).bind fun _ => ?_)
      ((pure _).bind fun _ => ?_)
  all_goals
    exact (symbol _).bind fun _ => (next _).bind fun _ =>
      .ite (references.bind fun _ => terminated _) (.fail (.unsupported _))

theorem namedStatement (name : String) : Regular (namedStatement name : Parser F Statement) :=
  peek?.bind fun _ => .ite (measureAssignment name) ((gateCall name).bind fun _ => .pure _)

theorem statementFrom (first : Placed) : Regular (statementFrom first : Parser F Statement) := by
  unfold Parser.statementFrom
  split
  · exact includeStatement
  · exact namedRegister true
  · exact namedRegister false
  · exact typedRegister true
  · exact typedRegister false
  · exact inputStatement
  · exact measureStatement
  · exact references.bind fun _ => terminated _
  · exact barrierStatement
  · exact definition
  · exact opaqueStatement
  · exact (gateCall _).bind fun _ => .pure _
  · exact (gateCall _).bind fun _ => .pure _
  · exact namedStatement _
  · exact .unexpected _ _

end Regular

theorem raises_statements (ts : List Placed) :
    Raises (statements (F := F) ts) Error.Syntactic := by
  fun_induction statements ts with
  | case1 => exact .ok _ _
  | case2 t ts e he => exact .error ((Regular.statementFrom t ts).2 e he)
  | case3 t ts s rest hrest e he ih => exact .error (ih e he)
  | case4 => exact .ok _ _

end Parser

end Interchange.Qasm
