import Interchange.Proofs.ExpressionGrammar
import Interchange.Proofs.Outcome

namespace Interchange.Qasm

/-- The least precedence in the left operand: only a power needs an operand without operators. -/
def BinaryOp.leftPrecedence (op : BinaryOp) : ℕ :=
  if op = pow then op.precedence + 1 else op.precedence

namespace Derives

variable {ts us : List Token} {e l r : Expression}

theorem loosen {m n : ℕ} (hmn : m ≤ n) (h : Derives (.ofPrecedence n) ts e) :
    Derives (.ofPrecedence m) ts e := by
  induction hmn with
  | refl => exact h
  | @step n _ ih =>
    apply ih
    match n, h with
    | 0, h => exact h
    | 1, h => exact .sumOf h
    | 2, h => exact .productOf h
    | 3, h => exact .powerOf h
    | _ + 4, h => exact h

/-- The three levels of operators in one rule. -/
theorem binary {t : Token} {op : BinaryOp} (ht : BinaryOp.ofToken? t = some op)
    (hl : Derives (.ofPrecedence op.leftPrecedence) ts l)
    (hr : Derives (.ofPrecedence op.rightPrecedence) us r) :
    Derives (.ofPrecedence op.precedence) (ts ++ t :: us) (.binary l op r) := by
  have hlevel := Level.operator?_eq_some_iff.mpr ⟨ht, rfl⟩
  cases op with
  | add | sub => exact .terms hl hlevel hr
  | mul | div => exact .factors hl hlevel hr
  | pow => exact .raised hl hlevel hr

end Derives

namespace Parser

variable {F α : Type} {ts rest : List Placed} {e : Expression}

/-- The tokens up to the rest were taken, and they derive the expression. -/
def Took (level : Level) (ts : List Placed) (e : Expression) (rest : List Placed) : Prop :=
  ∃ p, ts = p ++ rest ∧ Derives level (p.map Placed.token) e ∧
    Apart (p.map Placed.token) (rest.map Placed.token)

/-- The next operator, if any, can take an expression of the precedence as its left operand. -/
def Admits (k : ℕ) (rest : List Token) : Prop :=
  ∀ t ∈ rest.head?, ∀ op, BinaryOp.ofToken? t = some op → op.leftPrecedence ≤ k

/-- The operators that cannot go on with a right operand have the whole as their left one. -/
theorem Below.admits {op : BinaryOp} {rest : List Token} (h : Below op.rightPrecedence rest) :
    Admits op.precedence rest := by
  intro t ht op' hop'
  have hlt := h t ht op' hop'
  revert hlt
  cases op <;> cases op' <;> decide

namespace Took

theorem loosen {m n : ℕ} (hmn : m ≤ n) (h : Took (.ofPrecedence n) ts e rest) :
    Took (.ofPrecedence m) ts e rest := by
  obtain ⟨p, hp, he, hapart⟩ := h
  exact ⟨p, hp, he.loosen hmn, hapart⟩

theorem cons {level level' : Level} {e' : Expression} (t : Placed) (h : Took level ts e rest)
    (hd : ∀ {us : List Token}, Derives level us e → Derives level' (t.token :: us) e') :
    Took level' (t :: ts) e' rest := by
  obtain ⟨p, rfl, he, hapart⟩ := h
  exact ⟨t :: p, rfl, hd he, (apart_append_iff [t.token] he.ne_nil).mpr hapart⟩

theorem binary {t : Placed} {op : BinaryOp} {l r : Expression} {mid : List Placed}
    (hl : Took (.ofPrecedence op.leftPrecedence) ts l (t :: mid))
    (ht : BinaryOp.ofToken? t.token = some op)
    (hr : Took (.ofPrecedence op.rightPrecedence) mid r rest) :
    Took (.ofPrecedence op.precedence) ts (.binary l op r) rest := by
  obtain ⟨p, rfl, hl, -⟩ := hl
  obtain ⟨q, rfl, hr, hapart⟩ := hr
  refine ⟨p ++ t :: q, by rw [List.append_assoc, List.cons_append], ?_, ?_⟩
  · rw [List.map_append, List.map_cons]
    exact .binary ht hl hr
  · rw [List.map_append, List.map_cons, List.append_cons]
    exact (apart_append_iff _ hr.ne_nil).mpr hapart

/-- What ends in a closing parenthesis does not end in a name. -/
theorem of_rparen {p : List Placed} {t : Placed} (ht : t.token = .symbol .rparen)
    (hts : ts = p ++ t :: rest)
    (h : Derives .primary (p.map Placed.token ++ [.symbol .rparen]) e) :
    Took .primary ts e rest := by
  refine ⟨p ++ [t], by rw [hts, List.append_assoc, List.singleton_append], ?_, ?_⟩
  · rw [List.map_append, List.map_singleton, ht]
    exact h
  · rw [List.map_append, List.map_singleton, ht]
    intro name hname
    simp at hname

end Took

theorem returns_close (ts : List Placed) :
    Returns (close (F := F) ts) fun r => ∃ t, t.token = .symbol .rparen ∧ ts = t :: r.rest := by
  unfold close
  split
  · exact .error _ _
  · split_ifs with ht
    · exact .ok ⟨_, ht, rfl⟩
    · exact .error _ _

/-- Expressions were taken up to the rest, with commas as `join` puts them. -/
def TookAll (join : List (List Token) → List Token) (ts : List Placed) (es : List Expression)
    (rest : List Placed) : Prop :=
  ∃ (p : List Placed) (args : List (List Token × Expression)), ts = p ++ rest ∧
    p.map Placed.token = join (args.map Prod.fst) ∧ es = args.map Prod.snd ∧
    ∀ a ∈ args, Derives .sum a.1 a.2

/-- One more expression in front of a list, itself behind a comma or not. -/
theorem Took.followed {es : List Expression} {mid : List Placed} (h : Took .sum ts e mid)
    (hes : TookAll (List.flatMap (.symbol .comma :: ·)) mid es rest) :
    TookAll separated ts (e :: es) rest ∧
      ∀ line, TookAll (List.flatMap (.symbol .comma :: ·)) (⟨.symbol .comma, line⟩ :: ts)
        (e :: es) rest := by
  obtain ⟨p, rfl, he, -⟩ := h
  obtain ⟨q, args, rfl, hq, rfl, hargs⟩ := hes
  have hall : ∀ a ∈ (p.map Placed.token, e) :: args, Derives .sum a.1 a.2 :=
    List.forall_mem_cons.mpr ⟨he, hargs⟩
  refine ⟨⟨p ++ q, _, (List.append_assoc _ _ _).symm, ?_, rfl, hall⟩, fun line => ?_⟩
  · rw [List.map_append, hq]
    rfl
  · refine ⟨⟨.symbol .comma, line⟩ :: (p ++ q), _, by simp, ?_, rfl, hall⟩
    rw [List.map_cons, List.map_append, hq]
    rfl

/-- What an expression of a precedence takes, and that no operator of it is left. -/
def Parses (F : Type) (least : ℕ) (ts : List Placed) : Prop :=
  Returns (binary (F := F) least ts) fun r =>
    Took (.ofPrecedence least) ts r.value r.rest ∧ Below least (r.rest.map Placed.token)

/-- Whatever the operand is that comes first, so long as the next operator can take it. -/
def Climbs (F : Type) (least : ℕ) (left : Expression) (ts : List Placed) : Prop :=
  Returns (climb (F := F) least left ts) fun r => ∀ k whole, least ≤ k →
    Took (.ofPrecedence k) whole left ts → Admits k (ts.map Placed.token) →
      Took (.ofPrecedence least) whole r.value r.rest ∧ Below least (r.rest.map Placed.token)

theorem climbs_of_below {least : ℕ} {left : Expression} (h : Below least (ts.map Placed.token)) :
    Climbs F least left ts := by
  rw [Climbs, climb_of_below h]
  exact .ok fun k whole hk htook _ => ⟨htook.loosen hk, h⟩

theorem ofPrecedence_max (least : ℕ) : Level.ofPrecedence (max 4 least) = .unary := by
  obtain ⟨n, hn⟩ := Nat.exists_eq_add_of_le (le_max_left 4 least)
  rw [hn, Nat.add_comm]
  rfl

theorem admits_max (least : ℕ) (rest : List Token) : Admits (max 4 least) rest := by
  intro t _ op _
  refine le_trans ?_ (le_max_left 4 least)
  cases op <;> decide

mutual

theorem parses (least : ℕ) (ts : List Placed) : Parses F least ts := by
  rw [Parses, binary]
  refine (returns_unary ts).bind fun first hfirst => ?_
  have := first.rest_lt
  refine (climbs least first.value first.rest).bind fun all hall => .ok ?_
  refine hall (max 4 least) ts (le_max_right _ _) ?_ (admits_max _ _)
  rwa [ofPrecedence_max]
termination_by (ts.length, 4)

theorem climbs (least : ℕ) (left : Expression) (ts : List Placed) : Climbs F least left ts := by
  match ts with
  | [] => exact climbs_of_below (by rintro _ ⟨⟩)
  | t :: rest =>
    by_cases hbelow : Below least ((t :: rest).map Placed.token)
    · exact climbs_of_below hbelow
    obtain ⟨op, ht, hop⟩ : ∃ op, BinaryOp.ofToken? t.token = some op ∧ ¬op.precedence < least := by
      simpa [Below] using hbelow
    rw [Climbs, climb, ht]
    dsimp only
    rw [if_neg hop]
    refine (parses op.rightPrecedence rest).bind fun right hright => ?_
    have := right.rest_lt
    refine (climbs least (.binary left op right.value) right.rest).bind fun all hall => .ok ?_
    intro k whole _ htook hadmits
    have hleft := htook.loosen (hadmits t.token rfl op ht)
    exact hall op.precedence whole (Nat.le_of_not_lt hop) (hleft.binary ht hright.1)
      hright.2.admits
termination_by (ts.length, 0)

theorem returns_unary (ts : List Placed) :
    Returns (unary (F := F) ts) fun r => Took .unary ts r.value r.rest := by
  rw [unary.eq_def]
  split
  next line rest =>
    exact (returns_unary rest).bind fun inner h => .ok (h.cons ⟨.symbol .minus, line⟩ .minus)
  next line rest =>
    exact (returns_unary rest).bind fun inner h => .ok (h.cons ⟨.symbol .plus, line⟩ .plus)
  next =>
    intro r hr
    obtain ⟨p, hp, he, hapart⟩ := returns_primary ts r hr
    exact ⟨p, hp, .unaryOf he, hapart⟩
termination_by (ts.length, 3)

theorem returns_primary (ts : List Placed) :
    Returns (primary (F := F) ts) fun r => Took .primary ts r.value r.rest := by
  have hleaf {t : Placed} {e : Expression} {rest : List Placed} (h : leaf? t.token = some e)
      (hr : Apart [t.token] (rest.map Placed.token)) : Took .primary (t :: rest) e rest :=
    ⟨[t], rfl, .leaf h, hr⟩
  match ts with
  | [] =>
    rw [primary]
    exact .error _ _
  | ⟨token, line⟩ :: rest =>
    rw [primary.eq_def]
    dsimp only
    split
    next => exact .ok (hleaf rfl (by simp [Apart]))
    next => exact .ok (hleaf rfl (by simp [Apart]))
    next => exact .ok (hleaf rfl (by simp [Apart]))
    next => exact .ok (hleaf rfl (by simp [Apart]))
    next => exact .ok (hleaf rfl (by simp [Apart]))
    next name =>
      split
      next line' inside =>
        refine (returns_arguments inside).bind fun args hargs => ?_
        refine (returns_close args.rest).bind fun after hafter => .ok ?_
        obtain ⟨p, list, hp, htokens, hes, hlist⟩ := hargs
        obtain ⟨t, ht, hclose⟩ := hafter
        have hcall := @Derives.call name list hlist
        rw [← htokens, ← hes] at hcall
        have hinside : inside = p ++ t :: after.rest := hp.trans (congrArg (p ++ ·) hclose)
        exact .of_rparen (p := ⟨.identifier name, line⟩ :: ⟨.symbol .lparen, line'⟩ :: p) ht
          (congrArg (⟨.identifier name, line⟩ :: ⟨.symbol .lparen, line'⟩ :: ·) hinside) hcall
      next hcall =>
        refine .ok (hleaf rfl fun _ _ hhead => ?_)
        obtain ⟨_, htokens⟩ := List.head?_eq_some_iff.mp hhead
        obtain ⟨⟨_, line'⟩, inside, rfl, rfl, -⟩ := List.map_eq_cons_iff.mp htokens
        exact hcall line' inside rfl
    next =>
      refine (parses 0 rest).bind fun inner hinner => ?_
      refine (returns_close inner.rest).bind fun after hafter => .ok ?_
      obtain ⟨⟨p, hp, he, -⟩, -⟩ := hinner
      obtain ⟨t, ht, hclose⟩ := hafter
      have hinside : rest = p ++ t :: after.rest := hp.trans (congrArg (p ++ ·) hclose)
      exact .of_rparen (p := ⟨.symbol .lparen, line⟩ :: p) ht
        (congrArg (⟨.symbol .lparen, line⟩ :: ·) hinside) (.paren he)
    next => exact .error _ _
termination_by (ts.length, 2)

theorem returns_arguments (ts : List Placed) :
    Returns (arguments (F := F) ts) fun r => TookAll separated ts r.value r.rest := by
  rw [arguments.eq_def]
  split
  next => exact .ok ⟨[], [], rfl, rfl, rfl, fun _ ha => absurd ha List.not_mem_nil⟩
  next =>
    refine (parses 0 ts).bind fun first hfirst => ?_
    have := first.rest_lt
    exact (returns_moreArguments first.rest).bind fun all hall => .ok (hfirst.1.followed hall).1
termination_by (ts.length, 5)

theorem returns_moreArguments (ts : List Placed) :
    Returns (moreArguments (F := F) ts) fun r =>
      TookAll (List.flatMap (.symbol .comma :: ·)) ts r.value r.rest := by
  rw [moreArguments.eq_def]
  split
  next line rest =>
    refine (parses 0 rest).bind fun first hfirst => ?_
    have := Nat.lt_succ_of_lt first.rest_lt
    exact (returns_moreArguments first.rest).bind fun all hall =>
      .ok ((hfirst.1.followed hall).2 line)
  next => exact .ok ⟨[], [], rfl, rfl, rfl, fun _ ha => absurd ha List.not_mem_nil⟩
termination_by (ts.length, 0)

end

/-- What may follow an expression: no operator, and no parenthesis behind a name. -/
def Ends (ts rest : List Token) : Prop :=
  (∀ t ∈ rest.head?, ∀ level : Level, level.operator? t = none) ∧
    ∀ name, ts.getLast? = some (.identifier name) → rest.head? ≠ some (.symbol .lparen)

theorem stops_zero_iff {ts rest : List Token} : Stops 0 ts rest ↔ Ends ts rest := by
  refine ⟨fun h => ⟨fun t ht level => ?_, h.apart⟩, fun h => ⟨fun t ht op hop => ?_, h.2⟩⟩
  · refine Option.eq_none_iff_forall_ne_some.mpr fun op hop => ?_
    exact Nat.not_lt_zero _ (h.below t ht op (Level.operator?_eq_some_iff.mp hop).1)
  · have hsome := Level.operator?_eq_some_iff.mpr ⟨hop, rfl⟩
    cases (h.1 t ht _).symm.trans hsome

/-- The expressions that are read are those of the grammar. On every list of tokens, an expression
is read with some rest if and only if the tokens before the rest derive it and the rest cannot go
on with them. -/
theorem expression_eq_ok_iff {ts rest : List Placed} {e : Expression} :
    (∃ h, expression (F := F) ts = .ok (e, ⟨rest, h⟩)) ↔
      ∃ p, ts = p ++ rest ∧ Derives .sum (p.map Placed.token) e ∧
        Ends (p.map Placed.token) (rest.map Placed.token) := by
  constructor
  · rintro ⟨_, h⟩
    obtain ⟨r, hr, h⟩ := bind_eq_ok_iff.mp h
    cases h
    obtain ⟨⟨p, hp, he, hapart⟩, hbelow⟩ := parses 0 ts r hr
    exact ⟨p, hp, he, stops_zero_iff.mp ⟨hbelow, hapart⟩⟩
  · rintro ⟨p, rfl, he, hends⟩
    obtain ⟨⟨_, rest', hlt⟩, hr, rfl, hrest⟩ := he.reads (F := F) (stops_zero_iff.mpr hends)
      (p ++ rest) List.map_append
    -- the reader is known to stop before tokens like those of the rest, so before the rest
    obtain ⟨⟨q, hq, -, -⟩, -⟩ := parses 0 (p ++ rest) _ hr
    have hlength : rest.length = rest'.length := by
      rw [← List.length_map Placed.token, ← hrest, List.length_map]
    obtain ⟨-, rfl⟩ := List.append_inj' hq hlength
    exact ⟨Nat.le_of_lt hlt, bind_eq_ok_iff.mpr ⟨_, hr, rfl⟩⟩

end Parser

end Interchange.Qasm
