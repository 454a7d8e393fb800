import Mathlib.Data.List.Forall2
import Interchange.Proofs.Outcome
import Interchange.Qasm.Parser.Statement

namespace Interchange.Qasm

variable {F : Type}

def Unsupported.unplaced : Unsupported → Unsupported
  | reset => reset
  | assignment _ found => assignment 0 found

/-- An error without the line on which it arose. -/
def Error.unplaced : Error F → Error F
  | invalidToken _ text => invalidToken 0 text
  | unexpectedToken _ expected found => unexpectedToken 0 expected found
  | integerTooLarge value _ => integerTooLarge value 0
  | unsupported statement => unsupported statement.unplaced
  | e => e

abbrev SameTokens : List Placed → List Placed → Prop := List.Forall₂ fun t u => t.token = u.token

theorem sameTokens_of_map_eq {ts us : List Placed}
    (h : ts.map Placed.token = us.map Placed.token) : SameTokens ts us := by
  have heq : List.Forall₂ Eq (ts.map Placed.token) (us.map Placed.token) := by
    rw [h]
    exact List.forall₂_refl _
  rwa [List.forall₂_map_left_iff, List.forall₂_map_right_iff] at heq

/-- Two computations end in related values, or in one error up to the line. -/
inductive Agree {α β : Type} (R : α → β → Prop) :
    Except (Error F) α → Except (Error F) β → Prop
  | ok {a : α} {b : β} (h : R a b) : Agree R (.ok a) (.ok b)
  | error {e e' : Error F} (h : e.unplaced = e'.unplaced) : Agree R (.error e) (.error e')

namespace Agree

variable {α β γ δ : Type} {R : α → β → Prop} {S : γ → δ → Prop}

theorem bind {x : Except (Error F) α} {y : Except (Error F) β} {f : α → Except (Error F) γ}
    {g : β → Except (Error F) δ} (h : Agree R x y) (hf : ∀ a b, R a b → Agree S (f a) (g b)) :
    Agree S (x >>= f) (y >>= g) := by
  cases h with
  | ok h => exact hf _ _ h
  | error h => exact .error h

theorem mapError_eq {x y : Except (Error F) α} (h : Agree Eq x y) :
    x.mapError Error.unplaced = y.mapError Error.unplaced := by
  cases h with
  | ok h => rw [h]
  | error h => exact congrArg Except.error h

end Agree

namespace Parser

section Expression

/-- The same value, with the same tokens after it. -/
def ReadsAlike {α : Type} {m n : ℕ} (x : Parsed Placed α m) (y : Parsed Placed α n) : Prop :=
  x.value = y.value ∧ SameTokens x.rest y.rest

theorem agree_close {ts us : List Placed} (h : SameTokens ts us) :
    Agree ReadsAlike (close (F := F) ts) (close us) := by
  cases h with
  | nil => exact .error rfl
  | @cons t u ts us htoken h =>
    rw [close, close, htoken]
    split_ifs
    · exact .ok ⟨rfl, h⟩
    · exact .error rfl

mutual

theorem agree_binary (least : ℕ) {ts us : List Placed} (h : SameTokens ts us) :
    Agree ReadsAlike (binary (F := F) least ts) (binary least us) := by
  rw [binary, binary]
  refine (agree_unary h).bind fun first first' hfirst => ?_
  have := first.rest_lt
  rw [hfirst.1]
  exact (agree_climb least first'.value hfirst.2).bind fun _ _ hall => .ok hall
termination_by (ts.length, 4)

theorem agree_climb (least : ℕ) (left : Expression) {ts us : List Placed} (h : SameTokens ts us) :
    Agree ReadsAlike (climb (F := F) least left ts) (climb least left us) := by
  match ts, us, h with
  | [], [], .nil =>
    rw [climb]
    exact .ok ⟨rfl, .nil⟩
  | t :: ts, u :: us, .cons htoken h =>
    rw [climb.eq_def _ _ (t :: ts), climb.eq_def _ _ (u :: us)]
    dsimp only
    rw [htoken]
    split
    · exact .ok ⟨rfl, .cons htoken h⟩
    · split_ifs
      · exact .ok ⟨rfl, .cons htoken h⟩
      · refine (agree_binary _ h).bind fun right right' hright => ?_
        have := right.rest_lt
        rw [hright.1]
        exact (agree_climb least _ hright.2).bind fun _ _ hall => .ok hall
termination_by (ts.length, 0)

theorem agree_unary {ts us : List Placed} (h : SameTokens ts us) :
    Agree ReadsAlike (unary (F := F) ts) (unary us) := by
  match ts, us, h with
  | [], [], .nil =>
    rw [unary.eq_def]
    exact agree_primary .nil
  | ⟨token, line⟩ :: ts, ⟨_, line'⟩ :: us, .cons rfl h =>
    rw [unary.eq_def (⟨token, line⟩ :: ts), unary.eq_def (⟨token, line'⟩ :: us)]
    cases token with
    | symbol s =>
      cases s with
      | minus =>
        exact (agree_unary h).bind fun _ _ hinner =>
          .ok ⟨congrArg Expression.neg hinner.1, hinner.2⟩
      | plus => exact (agree_unary h).bind fun _ _ hinner => .ok hinner
      | _ => exact agree_primary (.cons rfl h)
    | _ => exact agree_primary (.cons rfl h)
termination_by (ts.length, 3)

theorem agree_primary {ts us : List Placed} (h : SameTokens ts us) :
    Agree ReadsAlike (primary (F := F) ts) (primary us) := by
  match ts, us, h with
  | [], [], .nil =>
    rw [primary]
    exact .error rfl
  | ⟨token, line⟩ :: ts, ⟨_, line'⟩ :: us, .cons rfl h =>
    rw [primary.eq_def (⟨token, line⟩ :: ts), primary.eq_def (⟨token, line'⟩ :: us)]
    cases token with
    | int | float => exact .ok ⟨rfl, h⟩
    | string => exact .error rfl
    | keyword k =>
      cases k with
      | pi | tau | euler => exact .ok ⟨rfl, h⟩
      | _ => exact .error rfl
    | identifier name =>
      match ts, us, h with
      | [], [], .nil => exact .ok ⟨rfl, .nil⟩
      | ⟨token, line⟩ :: ts, ⟨_, line'⟩ :: us, .cons rfl h =>
        cases token with
        | symbol s =>
          cases s with
          | lparen =>
            refine (agree_arguments h).bind fun args args' hargs => ?_
            refine (agree_close hargs.2).bind fun after after' hafter => ?_
            exact .ok ⟨congrArg (Expression.call name) hargs.1, hafter.2⟩
          | _ => exact .ok ⟨rfl, .cons rfl h⟩
        | _ => exact .ok ⟨rfl, .cons rfl h⟩
    | symbol s =>
      cases s with
      | lparen =>
        refine (agree_binary 0 h).bind fun inner inner' hinner => ?_
        refine (agree_close hinner.2).bind fun after after' hafter => ?_
        exact .ok ⟨congrArg Expression.paren hinner.1, hafter.2⟩
      | _ => exact .error rfl
termination_by (ts.length, 2)

theorem agree_arguments {ts us : List Placed} (h : SameTokens ts us) :
    Agree ReadsAlike (arguments (F := F) ts) (arguments us) := by
  rw [arguments.eq_def ts, arguments.eq_def us]
  split
  · cases h with
    | @cons _ u _ us hclose h =>
      obtain ⟨_, line⟩ := u
      obtain rfl := hclose
      exact .ok ⟨rfl, .cons rfl h⟩
  next hopen =>
    split
    · cases h with
      | @cons t _ ts _ hclose h =>
        obtain ⟨_, line⟩ := t
        obtain rfl := hclose
        exact absurd rfl (hopen line ts)
    · refine (agree_binary 0 h).bind fun first first' hfirst => ?_
      have := first.rest_lt
      refine (agree_moreArguments hfirst.2).bind fun all all' hall => ?_
      exact .ok ⟨congrArg₂ List.cons hfirst.1 hall.1, hall.2⟩
termination_by (ts.length, 5)

theorem agree_moreArguments {ts us : List Placed} (h : SameTokens ts us) :
    Agree ReadsAlike (moreArguments (F := F) ts) (moreArguments us) := by
  match ts, us, h with
  | [], [], .nil =>
    rw [moreArguments.eq_def]
    exact .ok ⟨rfl, .nil⟩
  | ⟨token, line⟩ :: ts, ⟨_, line'⟩ :: us, .cons rfl h =>
    rw [moreArguments.eq_def (⟨token, line⟩ :: ts), moreArguments.eq_def (⟨token, line'⟩ :: us)]
    cases token with
    | symbol s =>
      cases s with
      | comma =>
        refine (agree_binary 0 h).bind fun first first' hfirst => ?_
        have := first.rest_lt
        refine (agree_moreArguments hfirst.2).bind fun all all' hall => ?_
        exact .ok ⟨congrArg₂ List.cons hfirst.1 hall.1, hall.2⟩
      | _ => exact .ok ⟨rfl, .cons rfl h⟩
    | _ => exact .ok ⟨rfl, .cons rfl h⟩
termination_by (ts.length, 0)

end

end Expression

variable {α β : Type}

section Equations

theorem commaTail_cons (item : Parser F α) (t : Placed) (ts : List Placed) :
    commaTail item (t :: ts) =
      if t.token = .symbol .comma then do
        let first ← item ts
        let more ← commaTail item first.2.val
        return (first.1 :: more.1, ⟨more.2.val,
          Nat.le_succ_of_le (Nat.le_trans more.2.property first.2.property)⟩)
      else return ([], ⟨t :: ts, Nat.le_refl _⟩) := by
  rw [commaTail]
  split_ifs
  · cases item ts with
    | error e => rfl
    | ok first =>
      dsimp only
      change _ = commaTail item first.2.val >>= _
      cases commaTail item first.2.val <;> rfl
  · rfl

theorem skipStatement_cons (t : Placed) (ts : List Placed) :
    skipStatement (F := F) (t :: ts) =
      if t.token = .symbol .semicolon then return ((), ⟨ts, Nat.le_succ _⟩)
      else do
        let rest ← skipStatement ts
        return ((), ⟨rest.2.val, Nat.le_succ_of_le rest.2.property⟩) := by
  rw [skipStatement]
  split_ifs
  · rfl
  · cases skipStatement ts <;> rfl

theorem gateBody_cons (t : Placed) (ts : List Placed) :
    gateBody (F := F) (t :: ts) =
      if t.token = .symbol .rbrace then return ([], ⟨ts, Nat.le_succ _⟩)
      else if t.token = .keyword .barrier then do
        let rest ← skipStatement ts
        let calls ← gateBody rest.2.val
        return (calls.1, ⟨calls.2.val,
          Nat.le_succ_of_le (Nat.le_trans calls.2.property rest.2.property)⟩)
      else match gateName? t.token with
        | none => .error (.unexpectedToken t.line "gate call" t.token.text)
        | some name => do
          let call ← gateCall name ts
          let calls ← gateBody call.2.val
          return (call.1 :: calls.1, ⟨calls.2.val,
            Nat.le_succ_of_le (Nat.le_trans calls.2.property call.2.property)⟩) := by
  rw [gateBody]
  split_ifs
  · rfl
  · cases skipStatement ts with
    | error e => rfl
    | ok rest =>
      dsimp only
      change _ = gateBody rest.2.val >>= _
      cases gateBody (F := F) rest.2.val <;> rfl
  · cases gateName? t.token with
    | none => rfl
    | some name =>
      dsimp only
      cases gateCall name ts with
      | error e => rfl
      | ok call =>
        dsimp only
        change _ = gateBody call.2.val >>= _
        cases gateBody (F := F) call.2.val <;> rfl

theorem statements_cons (t : Placed) (ts : List Placed) :
    statements (F := F) (t :: ts) = do
      let s ← statementFrom t ts
      return s.1 :: (← statements s.2.val) := by
  rw [statements]
  cases statementFrom t ts with
  | error e => rfl
  | ok s =>
    dsimp only
    change _ = statements s.2.val >>= _
    cases statements (F := F) s.2.val <;> rfl

end Equations

/-- Two parsers that read related values from the same tokens, wherever these stand. -/
def Agrees (R : α → β → Prop) (p : Parser F α) (q : Parser F β) : Prop :=
  ∀ ts us, SameTokens ts us →
    Agree (fun x y => R x.1 y.1 ∧ SameTokens x.2.val y.2.val) (p ts) (q us)

/-- A parser to which lines do not matter. -/
abbrev LineBlind (p : Parser F α) : Prop := Agrees Eq p p

namespace LineBlind

theorem pure (a : α) : LineBlind (pure a : Parser F α) := fun _ _ h => .ok ⟨rfl, h⟩

theorem bind {p : Parser F α} {f g : α → Parser F β} (hp : LineBlind p)
    (hf : ∀ a, Agrees Eq (f a) (g a)) : Agrees Eq (p >>= f) (p >>= g) := by
  intro ts us h
  refine (hp ts us h).bind ?_
  rintro ⟨a, rest⟩ ⟨_, rest'⟩ ⟨rfl, hrest⟩
  exact (hf a _ _ hrest).bind fun _ _ hb => .ok hb

theorem ite {c : Prop} [Decidable c] {p q p' q' : Parser F α} (hp : Agrees Eq p p')
    (hq : Agrees Eq q q') : Agrees Eq (if c then p else q) (if c then p' else q') := by
  split_ifs
  · exact hp
  · exact hq

theorem fail {e e' : Error F} (h : e.unplaced = e'.unplaced) :
    Agrees Eq (fail e : Parser F α) (Parser.fail e') := fun _ _ _ => .error h

theorem next {awaited : String} {f : Placed → Parser F α}
    (hf : ∀ token line line', Agrees Eq (f ⟨token, line⟩) (f ⟨token, line'⟩)) :
    LineBlind (next awaited >>= f) := by
  intro ts us h
  cases h with
  | nil => exact .error rfl
  | @cons t u ts us htoken h =>
    obtain ⟨token, line⟩ := t
    obtain ⟨_, line'⟩ := u
    obtain rfl := htoken
    exact (hf token line line' ts us h).bind fun _ _ hb => .ok hb

theorem peek? : LineBlind (peek? : Parser F (Option Token)) := by
  intro ts us h
  refine .ok ⟨?_, h⟩
  cases h with
  | nil => rfl
  | cons htoken h => exact congrArg some htoken

theorem expect (token : Token) : LineBlind (expect token : Parser F Unit) :=
  next fun _ _ _ => ite (pure ()) (fail rfl)

theorem symbol (s : Symbol) : LineBlind (symbol s : Parser F Unit) := expect _

theorem keyword (k : Keyword) : LineBlind (keyword k : Parser F Unit) := expect _

theorem accept (s : Symbol) : LineBlind (accept s : Parser F Bool) := by
  intro ts us h
  cases h with
  | nil => exact .ok ⟨rfl, .nil⟩
  | cons htoken h =>
    rw [Parser.accept, Parser.accept, htoken]
    split_ifs
    · exact .ok ⟨rfl, h⟩
    · exact .ok ⟨rfl, .cons htoken h⟩

theorem identifier : LineBlind (identifier : Parser F String) := by
  refine next fun token line line' => ?_
  cases token with
  | identifier name => exact pure name
  | _ => exact fail rfl

theorem index : LineBlind (index : Parser F ℕ) := by
  refine next fun token line line' => ?_
  cases token with
  | int value => exact ite (pure value) (fail rfl)
  | _ => exact fail rfl

theorem commaTail {item : Parser F α} (hitem : LineBlind item) : LineBlind (commaTail item)
  | [], [], .nil => by
    rw [Parser.commaTail]
    exact .ok ⟨rfl, .nil⟩
  | t :: ts, u :: us, .cons htoken h => by
    rw [commaTail_cons, commaTail_cons, htoken]
    split_ifs
    · refine (hitem ts us h).bind fun first first' hfirst => ?_
      refine (commaTail hitem _ _ hfirst.2).bind fun more more' hmore => ?_
      exact .ok ⟨congrArg₂ List.cons hfirst.1 hmore.1, hmore.2⟩
    · exact .ok ⟨rfl, .cons htoken h⟩
termination_by ts => ts.length
decreasing_by
  have := first.2.property
  simp only [List.length_cons]
  omega

theorem commaList {item : Parser F α} (h : LineBlind item) : LineBlind (commaList item) :=
  h.bind fun _ => h.commaTail.bind fun _ => pure _

theorem skipStatement : LineBlind (skipStatement : Parser F Unit)
  | [], [], .nil => .error rfl
  | t :: ts, u :: us, .cons htoken h => by
    rw [skipStatement_cons, skipStatement_cons, htoken]
    split_ifs
    · exact .ok ⟨rfl, h⟩
    · exact (skipStatement ts us h).bind fun _ _ hrest => .ok ⟨rfl, hrest.2⟩

theorem expressionList : LineBlind (expressionList : Parser F (List Expression)) :=
  fun _ _ h => (agree_arguments h).bind fun _ _ hall => .ok hall

theorem reference : LineBlind (reference : Parser F Reference) :=
  identifier.bind fun _ => (accept _).bind fun _ =>
    ite (index.bind fun _ => (symbol _).bind fun _ => pure _) (pure _)

theorem references : LineBlind (references : Parser F (List Reference)) := reference.commaList

theorem terminated (a : α) : LineBlind (terminated a : Parser F α) :=
  (symbol _).bind fun _ => pure _

-- What follows an optional part stands in both branches.
theorem gateCall (name : String) : LineBlind (gateCall name : Parser F GateCall) := by
  refine (accept _).bind fun _ =>
    ite (expressionList.bind fun _ => (symbol _).bind fun _ => (pure _).bind fun _ => ?_)
      ((pure _).bind fun _ => ?_)
  all_goals exact references.bind fun _ => terminated _

theorem includeStatement : LineBlind (includeStatement : Parser F Statement) := by
  refine next fun token line line' => ?_
  cases token with
  | string path => exact terminated _
  | _ => exact fail rfl

theorem namedRegister (quantum : Bool) : LineBlind (namedRegister quantum : Parser F Statement) :=
  identifier.bind fun _ => (symbol _).bind fun _ => index.bind fun _ =>
    (symbol _).bind fun _ => terminated _

theorem typedRegister (quantum : Bool) :
    LineBlind (typedRegister quantum : Parser F Statement) := by
  refine (accept _).bind fun _ =>
    ite (index.bind fun _ => (symbol _).bind fun _ => (pure _).bind fun _ => ?_)
      ((pure _).bind fun _ => ?_)
  all_goals exact identifier.bind fun _ => terminated _

theorem inputStatement : LineBlind (inputStatement : Parser F Statement) := by
  refine next fun token line line' => ite ((accept _).bind fun _ => ?_) (fail rfl)
  refine ite (index.bind fun _ => (symbol _).bind fun _ => ?_) ?_
  all_goals exact identifier.bind fun _ => terminated _

theorem measureStatement : LineBlind (measureStatement : Parser F Statement) :=
  references.bind fun _ => (accept _).bind fun _ =>
    ite (references.bind fun _ => terminated _) ((pure _).bind fun _ => terminated _)

theorem barrierStatement : LineBlind (barrierStatement : Parser F Statement) :=
  peek?.bind fun _ =>
    ite ((pure _).bind fun _ => terminated _) (references.bind fun _ => terminated _)

theorem gateName : LineBlind (gateName : Parser F String) := by
  refine next fun token line line' => ?_
  dsimp only
  cases gateName? token with
  | some name => exact pure name
  | none => exact fail rfl

theorem gateBody : LineBlind (gateBody : Parser F (List GateCall))
  | [], [], .nil => by
    rw [Parser.gateBody]
    exact .error rfl
  | t :: ts, u :: us, .cons htoken h => by
    rw [gateBody_cons, gateBody_cons, htoken]
    split_ifs
    · exact .ok ⟨rfl, h⟩
    · refine (skipStatement ts us h).bind fun rest rest' hrest => ?_
      exact (gateBody _ _ hrest.2).bind fun _ _ hcalls => .ok hcalls
    · cases gateName? u.token with
      | none => exact .error (by simp [Error.unplaced])
      | some name =>
        refine (gateCall name ts us h).bind fun call call' hcall => ?_
        refine (gateBody _ _ hcall.2).bind fun calls calls' hcalls => ?_
        exact .ok ⟨congrArg₂ List.cons hcall.1 hcalls.1, hcalls.2⟩
termination_by ts => ts.length
decreasing_by
  · have := rest.2.property
    simp only [List.length_cons]
    omega
  · have := call.2.property
    simp only [List.length_cons]
    omega

theorem definition : LineBlind (definition : Parser F Statement) := by
  refine gateName.bind fun _ => (accept _).bind fun _ => ite (peek?.bind fun _ => ite
    ((pure _).bind fun _ => (symbol _).bind fun _ => (pure _).bind fun _ => ?_)
    (identifier.commaList.bind fun _ => (symbol _).bind fun _ => (pure _).bind fun _ => ?_))
    ((pure _).bind fun _ => ?_)
  all_goals
    exact identifier.commaList.bind fun _ => (symbol _).bind fun _ => gateBody.bind fun _ => pure _

theorem opaqueStatement : LineBlind (opaqueStatement : Parser F Statement) :=
  gateName.bind fun _ => skipStatement.bind fun _ => pure _

theorem measureAssignment (register : String) :
    LineBlind (measureAssignment register : Parser F Statement) := by
  refine (accept _).bind fun _ =>
    ite (index.bind fun _ => (symbol _).bind fun _ => (pure _).bind fun _ => ?_)
      ((pure _).bind fun _ => ?_)
  all_goals
    exact (symbol _).bind fun _ => next fun _ _ _ =>
      ite (references.bind fun _ => terminated _) (fail rfl)

theorem namedStatement (name : String) : LineBlind (namedStatement name : Parser F Statement) :=
  peek?.bind fun _ => ite (measureAssignment name) ((gateCall name).bind fun _ => pure _)

theorem statementFrom (token : Token) (line line' : ℕ) :
    Agrees Eq (statementFrom ⟨token, line⟩ : Parser F Statement)
      (Parser.statementFrom ⟨token, line'⟩) := by
  cases token with
  | keyword k =>
    cases k with
    | includeFile => exact includeStatement
    | qreg => exact namedRegister true
    | creg => exact namedRegister false
    | qubit => exact typedRegister true
    | bit => exact typedRegister false
    | input => exact inputStatement
    | measure => exact measureStatement
    | reset => exact references.bind fun _ => terminated _
    | barrier => exact barrierStatement
    | gate => exact definition
    | opaqueGate => exact opaqueStatement
    | gateU | gateCX => exact (gateCall _).bind fun _ => pure _
    | _ => exact fail rfl
  | identifier name => exact namedStatement name
  | _ => exact fail rfl

theorem version : LineBlind (version : Parser F String) := by
  refine next fun token line line' => ?_
  cases token with
  | float | int => exact ite (pure _) (fail rfl)
  | _ => exact fail rfl

theorem header : LineBlind (header : Parser F String) :=
  (keyword _).bind fun _ => version.bind fun _ => terminated _

end LineBlind

theorem agree_statements {ts us : List Placed} (h : SameTokens ts us) :
    Agree Eq (statements (F := F) ts) (statements us) := by
  match ts, us, h with
  | [], [], .nil =>
    rw [statements]
    exact .ok rfl
  | ⟨token, line⟩ :: ts, ⟨_, line'⟩ :: us, .cons rfl h =>
    rw [statements_cons, statements_cons]
    refine (LineBlind.statementFrom token line line' ts us h).bind fun s s' hs => ?_
    have := s.2.property
    exact (agree_statements hs.2).bind fun _ _ hall => .ok (congrArg₂ List.cons hs.1 hall)
termination_by ts.length

end Parser

/-- Programs with the same tokens are read alike: errors differ in their lines only. -/
theorem agree_parse {source source' : String} {ts us : List Placed} (hts : scan source = .ok ts)
    (hus : scan source' = .ok us) (h : SameTokens ts us) :
    Agree Eq (Program.parse (F := F) source) (Program.parse source') := by
  unfold Program.parse
  rw [hts, hus]
  refine (Parser.LineBlind.header ts us h).bind fun version version' hversion => ?_
  refine (Parser.agree_statements hversion.2).bind fun _ _ hall => .ok ?_
  rw [hversion.1, hall]

end Interchange.Qasm
