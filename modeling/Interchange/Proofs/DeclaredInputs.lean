import Interchange.Proofs.InputNames
import Interchange.Proofs.RegularParser

namespace Interchange.Qasm

/-- Only words that are no keywords are read as identifiers. -/
theorem Lexeme.isName_of_head {c : Char} {cs : List Char} {name : String} {n : ℕ}
    (h : head c cs = (.token (.identifier name), n)) : IsName name.toList := by
  unfold head at h
  split_ifs at h with hspace hword hnumber
  · cases h
  · obtain ⟨hof, -⟩ := Prod.mk.inj h
    unfold ofWord at hof
    split at hof
    next => cases hof
    next hfree =>
      cases hof
      rw [String.toList_ofList]
      exact ⟨⟨c, _, rfl, hword, fun d hd => List.all_eq_true.mp List.all_takeWhile d hd⟩, hfree⟩
  · generalize numberLength (c :: cs) = length at h
    obtain ⟨hof, -⟩ := Prod.mk.inj h
    unfold ofNumber at hof
    repeat' split at hof
    all_goals cases hof
  · dsimp only at h
    repeat' split at h
    all_goals cases h

theorem Spells.isName_of_mem {text : List Char} {ts : List Token} (h : Spells text ts)
    {name : String} (hname : .identifier name ∈ ts) : IsName name.toList := by
  induction h with
  | nil => cases hname
  | separator _ _ ih => exact ih hname
  | token h _ ih =>
    rcases List.mem_cons.mp hname with rfl | hname
    · exact Lexeme.isName_of_head h
    · exact ih hname

namespace Parser

variable {F : Type} {α β : Type}

/-- Whatever a parser gives has the property. -/
def Gives (p : Parser F α) (P : α → Prop) : Prop := ∀ ts, Returns (p ts) (P ·.1)

namespace Gives

variable {P : β → Prop}

theorem pure {b : β} (h : P b) : Gives (Pure.pure b : Parser F β) P := fun _ => .ok h

theorem fail (e : Error F) : Gives (fail e) P := fun _ => .error _ _

theorem bind {p : Parser F α} {f : α → Parser F β} (h : ∀ a, Gives (f a) P) :
    Gives (p >>= f) P := by
  intro ts b hb
  obtain ⟨a, rest, rest', -, hf, -⟩ := seq_eq_ok hb
  exact h a rest.val _ hf

theorem ite {c : Prop} [Decidable c] {p q : Parser F β} (hp : Gives p P) (hq : Gives q P) :
    Gives (if c then p else q) P := by
  split_ifs
  · exact hp
  · exact hq

theorem terminated {b : β} (h : P b) : Gives (terminated b : Parser F β) P := .bind fun _ => .pure h

end Gives

def NoInput (s : Statement) : Prop := ∀ name, s ≠ .input name

theorem noInput_sized (quantum : Bool) (name : String) (size : ℕ) :
    NoInput (sized quantum name size) := by
  cases quantum <;> rintro _ ⟨⟩

theorem gives_namedRegister (quantum : Bool) :
    Gives (namedRegister quantum : Parser F Statement) NoInput :=
  .bind fun _ => .bind fun _ => .bind fun _ => .bind fun _ => .terminated (noInput_sized _ _ _)

theorem gives_typedRegister (quantum : Bool) :
    Gives (typedRegister quantum : Parser F Statement) NoInput := by
  refine .bind fun _ => .ite (.bind fun _ => .bind fun _ => .bind fun _ => ?_) (.bind fun _ => ?_)
  all_goals exact .bind fun _ => .terminated (noInput_sized _ _ _)

theorem gives_definition : Gives (definition : Parser F Statement) NoInput := by
  refine .bind fun _ => .bind fun _ => .ite (.bind fun _ => .ite ?_ ?_) (.bind fun _ => ?_)
  · exact .bind fun _ => .bind fun _ => .bind fun _ => .bind fun _ => .bind fun _ =>
      .bind fun _ => .pure (by rintro _ ⟨⟩)
  · exact .bind fun _ => .bind fun _ => .bind fun _ => .bind fun _ => .bind fun _ =>
      .bind fun _ => .pure (by rintro _ ⟨⟩)
  · exact .bind fun _ => .bind fun _ => .bind fun _ => .pure (by rintro _ ⟨⟩)

theorem gives_namedStatement (name : String) :
    Gives (namedStatement name : Parser F Statement) NoInput := by
  refine .bind fun _ => .ite ?_ (.bind fun _ => .pure (by rintro _ ⟨⟩))
  refine .bind fun _ => .ite (.bind fun _ => .bind fun _ => .bind fun _ => ?_) (.bind fun _ => ?_)
  all_goals
    exact .bind fun _ => .bind fun _ =>
      .ite (.bind fun _ => .terminated (by rintro _ ⟨⟩)) (.fail _)

theorem gives_statementFrom {first : Placed} (h : first.token ≠ .keyword .input) :
    Gives (statementFrom first : Parser F Statement) NoInput := by
  unfold statementFrom
  split
  · refine .bind fun found => ?_
    split
    · exact .terminated (by rintro _ ⟨⟩)
    · exact .fail _
  · exact gives_namedRegister true
  · exact gives_namedRegister false
  · exact gives_typedRegister true
  · exact gives_typedRegister false
  next hinput => exact absurd hinput h
  · refine .bind fun _ => .bind fun _ => .ite (.bind fun _ => ?_) (.bind fun _ => ?_)
    all_goals exact .terminated (by rintro _ ⟨⟩)
  · exact .bind fun _ => .terminated (by rintro _ ⟨⟩)
  · refine .bind fun _ => .ite (.bind fun _ => ?_) (.bind fun _ => ?_)
    all_goals exact .terminated (by rintro _ ⟨⟩)
  · exact gives_definition
  · exact .bind fun _ => .bind fun _ => .pure (by rintro _ ⟨⟩)
  · exact .bind fun _ => .pure (by rintro _ ⟨⟩)
  · exact .bind fun _ => .pure (by rintro _ ⟨⟩)
  · exact gives_namedStatement _
  · exact .fail _

theorem mem_of_identifier {ts : List Placed} {name : String}
    {rest : { rest : List Placed // rest.length ≤ ts.length }}
    (h : identifier (F := F) ts = .ok (name, rest)) : .identifier name ∈ ts.map Placed.token := by
  cases ts with
  | nil => cases h
  | cons t ts =>
    obtain ⟨found, _, _, hfound, h, -⟩ := seq_eq_ok h
    cases hfound
    generalize htoken : t.token = token at h
    cases token with
    | identifier =>
      cases h
      exact List.mem_cons.mpr (.inl htoken.symm)
    | _ => cases h

theorem mem_of_inputStatement {ts : List Placed} {name : String}
    {rest : { rest : List Placed // rest.length ≤ ts.length }}
    (h : inputStatement (F := F) ts = .ok (.input name, rest)) :
    .identifier name ∈ ts.map Placed.token := by
  have hnamed {us : List Placed} {rest : { rest : List Placed // rest.length ≤ us.length }}
      (hus : us <:+ ts)
      (h : (identifier >>= fun name => terminated (Statement.input name) : Parser F _) us =
        .ok (.input name, rest)) : .identifier name ∈ ts.map Placed.token := by
    obtain ⟨found, _, _, hfound, h, -⟩ := seq_eq_ok h
    obtain ⟨_, _, _, -, h, -⟩ := seq_eq_ok h
    cases h
    exact List.map_subset _ hus.subset (mem_of_identifier hfound)
  obtain ⟨type, ⟨us, _⟩, _, htype, h, -⟩ := seq_eq_ok h
  have hus : us <:+ ts := (Regular.next _ ts).1 _ htype
  split_ifs at h
  · obtain ⟨_, ⟨vs, _⟩, _, hvs, h, -⟩ := seq_eq_ok h
    have hvs : vs <:+ us := (Regular.accept _ us).1 _ hvs
    -- the width in brackets is skipped
    split_ifs at h
    · obtain ⟨_, ⟨ws, _⟩, _, hws, h, -⟩ := seq_eq_ok h
      obtain ⟨_, ⟨xs, _⟩, _, hxs, h, -⟩ := seq_eq_ok h
      have hws : ws <:+ vs := (Regular.index vs).1 _ hws
      have hxs : xs <:+ ws := (Regular.symbol _ ws).1 _ hxs
      exact hnamed (((hxs.trans hws).trans hvs).trans hus) h
    · exact hnamed (hvs.trans hus) h
  · cases h

theorem mem_of_statements {ts : List Placed} {ss : List Statement} {name : String}
    (h : statements (F := F) ts = .ok ss) (hname : .input name ∈ ss) :
    .identifier name ∈ ts.map Placed.token := by
  fun_induction statements ts generalizing ss with
  | case1 =>
    cases h
    cases hname
  | case2 => cases h
  | case3 => cases h
  | case4 t ts s rest hs all hall ih =>
    cases h
    rw [List.map_cons]
    refine List.mem_cons_of_mem _ ?_
    rcases List.mem_cons.mp hname with rfl | hname
    · by_cases hinput : t.token = .keyword .input
      · rw [statementFrom, hinput] at hs
        exact mem_of_inputStatement hs
      · exact absurd rfl (gives_statementFrom hinput ts _ hs name)
    · exact List.map_subset _ ((Regular.statementFrom t ts).1 _ hs).subset (ih hall hname)

theorem suffix_of_version {ts : List Placed} {text : String}
    {rest : { rest : List Placed // rest.length ≤ ts.length }}
    (h : version (F := F) ts = .ok (text, rest)) : rest.val <:+ ts := by
  have hknown {found : String} {us : List Placed}
      {tail : { tail : List Placed // tail.length ≤ us.length }}
      (h : version.known (F := F) found us = .ok (text, tail)) : tail.val = us := by
    unfold version.known at h
    split_ifs at h <;> cases h
    rfl
  obtain ⟨t, ⟨us, _⟩, tail, hnext, h, htail⟩ := seq_eq_ok h
  have hus : us <:+ ts := (Regular.next _ ts).1 _ hnext
  rw [← htail]
  generalize t.token = token at h
  cases token with
  | float value => rwa [hknown h]
  | int value => rwa [hknown h]
  | _ => cases h

theorem suffix_of_header {ts : List Placed} {text : String}
    {rest : { rest : List Placed // rest.length ≤ ts.length }}
    (h : header (F := F) ts = .ok (text, rest)) : rest.val <:+ ts := by
  obtain ⟨_, ⟨us, _⟩, tail, hus, h, htail⟩ := seq_eq_ok h
  obtain ⟨_, ⟨vs, _⟩, tail', hvs, h, htail'⟩ := seq_eq_ok h
  rw [← htail, ← htail']
  exact (((Regular.terminated _ vs).1 _ h).trans (suffix_of_version hvs)).trans
    ((Regular.keyword _ ts).1 _ hus)

end Parser

/-- The inputs that a program declares have words as names, and none of these is a keyword. -/
theorem isName_of_input {F : Type} {source : String} {program : Program} {name : String}
    (h : Program.parse (F := F) source = .ok program) (hname : .input name ∈ program.statements) :
    IsName name.toList := by
  unfold Program.parse at h
  split at h
  next => cases h
  next tokens hscan =>
    obtain ⟨⟨version, rest⟩, hheader, h⟩ := bind_eq_ok_iff.mp h
    obtain ⟨statements, hstatements, h⟩ := bind_eq_ok_iff.mp h
    cases h
    exact (spells_of_scanFrom hscan).isName_of_mem
      (List.map_subset _ (Parser.suffix_of_header hheader).subset
        (Parser.mem_of_statements hstatements hname))

end Interchange.Qasm
