import Mathlib.Order.Nat
import Interchange.Qasm.Parser.Expression

namespace Interchange.Qasm

/-- The levels of the expression grammar, from the loosest to the tightest. -/
inductive Level
  | sum | product | power | unary | primary

def separated : List (List Token) → List Token
  | [] => []
  | ts :: more => ts ++ more.flatMap (.symbol .comma :: ·)

/-- Tokens that are an expression on their own. -/
def leaf? : Token → Option Expression
  | .int value => some (.int value)
  | .float value => some (.float value)
  | .keyword .pi => some .pi
  | .keyword .tau => some .tau
  | .keyword .euler => some .euler
  | .identifier name => some (.identifier name)
  | _ => none

def Level.operator? : Level → Token → Option BinaryOp
  | .sum, .symbol .plus => some .add
  | .sum, .symbol .minus => some .sub
  | .product, .symbol .star => some .mul
  | .product, .symbol .slash => some .div
  | .power, .symbol .power | .power, .symbol .caret => some .pow
  | _, _ => none

/-- The grammar of angle expressions: a token list at a level, and its tree. Sums and products
group to the left, powers to the right, and signs bind tighter than all of them. -/
inductive Derives : Level → List Token → Expression → Prop
  | sumOf {ts : List Token} {e : Expression} (h : Derives .product ts e) : Derives .sum ts e
  | terms {ts us : List Token} {t : Token} {op : BinaryOp} {l r : Expression}
      (hl : Derives .sum ts l) (ht : Level.sum.operator? t = some op)
      (hr : Derives .product us r) : Derives .sum (ts ++ t :: us) (.binary l op r)
  | productOf {ts : List Token} {e : Expression} (h : Derives .power ts e) : Derives .product ts e
  | factors {ts us : List Token} {t : Token} {op : BinaryOp} {l r : Expression}
      (hl : Derives .product ts l) (ht : Level.product.operator? t = some op)
      (hr : Derives .power us r) : Derives .product (ts ++ t :: us) (.binary l op r)
  | powerOf {ts : List Token} {e : Expression} (h : Derives .unary ts e) : Derives .power ts e
  | raised {ts us : List Token} {t : Token} {op : BinaryOp} {l r : Expression}
      (hl : Derives .unary ts l) (ht : Level.power.operator? t = some op)
      (hr : Derives .power us r) : Derives .power (ts ++ t :: us) (.binary l op r)
  | unaryOf {ts : List Token} {e : Expression} (h : Derives .primary ts e) : Derives .unary ts e
  | minus {ts : List Token} {e : Expression} (h : Derives .unary ts e) :
      Derives .unary (.symbol .minus :: ts) (.neg e)
  | plus {ts : List Token} {e : Expression} (h : Derives .unary ts e) :
      Derives .unary (.symbol .plus :: ts) e
  | leaf {t : Token} {e : Expression} (h : leaf? t = some e) : Derives .primary [t] e
  | paren {ts : List Token} {e : Expression} (h : Derives .sum ts e) :
      Derives .primary (.symbol .lparen :: (ts ++ [.symbol .rparen])) (.paren e)
  | call {name : String} {args : List (List Token × Expression)}
      (h : ∀ a ∈ args, Derives .sum a.1 a.2) :
      Derives .primary
        (.identifier name :: .symbol .lparen ::
          (separated (args.map Prod.fst) ++ [.symbol .rparen]))
        (.call name (args.map Prod.snd))

/-- The level of expressions whose operators have at least a precedence. -/
def Level.ofPrecedence : ℕ → Level
  | 0 | 1 => .sum
  | 2 => .product
  | 3 => .power
  | _ => .unary

/-- The levels and the precedences sort the operators alike. -/
theorem Level.operator?_eq_some_iff {level : Level} {t : Token} {op : BinaryOp} :
    level.operator? t = some op ↔
      BinaryOp.ofToken? t = some op ∧ ofPrecedence op.precedence = level := by
  constructor
  · intro h
    unfold operator? at h
    split at h
    all_goals cases h
    all_goals exact ⟨rfl, rfl⟩
  · rintro ⟨h, rfl⟩
    unfold BinaryOp.ofToken? at h
    split at h
    all_goals cases h
    all_goals rfl

namespace Derives

variable {ts us : List Token} {t : Token} {op : BinaryOp} {e l r : Expression}

theorem sum (hl : Derives .sum ts l) (ht : BinaryOp.ofToken? t = some op) (hop : op.precedence = 1)
    (hr : Derives .product us r) : Derives .sum (ts ++ t :: us) (.binary l op r) :=
  .terms hl (Level.operator?_eq_some_iff.mpr ⟨ht, by rw [hop]; rfl⟩) hr

theorem product (hl : Derives .product ts l) (ht : BinaryOp.ofToken? t = some op)
    (hop : op.precedence = 2) (hr : Derives .power us r) :
    Derives .product (ts ++ t :: us) (.binary l op r) :=
  .factors hl (Level.operator?_eq_some_iff.mpr ⟨ht, by rw [hop]; rfl⟩) hr

theorem exists_cons {level : Level} (h : Derives level ts e) :
    ∃ t us, ts = t :: us ∧ t ≠ .symbol .rparen := by
  induction h with
  | sumOf _ ih | productOf _ ih | powerOf _ ih | unaryOf _ ih => exact ih
  | terms _ _ _ ih _ | factors _ _ _ ih _ | raised _ _ _ ih _ =>
    obtain ⟨t, us, rfl, ht⟩ := ih
    exact ⟨t, _, rfl, ht⟩
  | minus | plus | paren | call => exact ⟨_, _, rfl, by rintro ⟨⟩⟩
  | leaf h =>
    refine ⟨_, _, rfl, ?_⟩
    rintro rfl
    cases h

theorem ne_nil {level : Level} (h : Derives level ts e) : ts ≠ [] := by
  obtain ⟨t, us, rfl, -⟩ := h.exists_cons
  exact List.cons_ne_nil t us

end Derives

namespace Parser

variable {F α : Type}

/-- On every placement of the tokens, the reader takes them up to the rest and gives the value. -/
def Reads {bound : List Placed → ℕ} (p : (ts : List Placed) → Attempt F α (bound ts))
    (ts : List Token) (a : α) (rest : List Token) : Prop :=
  ∀ placed : List Placed, placed.map Placed.token = ts →
    ∃ r, p placed = .ok r ∧ r.value = a ∧ r.rest.map Placed.token = rest

/-- No operator of the precedence comes next. -/
def Below (least : ℕ) (rest : List Token) : Prop :=
  ∀ t ∈ rest.head?, ∀ op, BinaryOp.ofToken? t = some op → op.precedence < least

/-- No parenthesis makes a name at the end a call. -/
def Apart (ts rest : List Token) : Prop :=
  ∀ name, ts.getLast? = some (.identifier name) → rest.head? ≠ some (.symbol .lparen)

/-- What follows the tokens does not go on with them. -/
structure Stops (least : ℕ) (ts rest : List Token) : Prop where
  below : Below least rest
  apart : Apart ts rest

theorem Below.mono {m n : ℕ} {rest : List Token} (h : Below m rest) (hmn : m ≤ n) :
    Below n rest := fun t ht op hop => (h t ht op hop).trans_le hmn

theorem Stops.mono {m n : ℕ} {ts rest : List Token} (h : Stops m ts rest) (hmn : m ≤ n) :
    Stops n ts rest := ⟨h.below.mono hmn, h.apart⟩

theorem apart_append_iff (ts : List Token) {us rest : List Token} (hus : us ≠ []) :
    Apart (ts ++ us) rest ↔ Apart us rest := by
  rw [Apart, Apart, List.getLast?_append, List.getLast?_eq_some_getLast hus, Option.some_or]

theorem Stops.last {n : ℕ} {ts us rest : List Token} {t : Token} (h : Stops n (ts ++ t :: us) rest)
    (hus : us ≠ []) : Stops n us rest := by
  refine ⟨h.below, (apart_append_iff (ts ++ [t]) hus).mp ?_⟩
  rw [List.append_assoc]
  exact h.apart

theorem apart_of_head {ts rest : List Token} (h : rest.head? ≠ some (.symbol .lparen)) :
    Apart ts rest := fun _ _ => h

theorem stops_operator {t : Token} {op : BinaryOp} {ts us : List Token} {n : ℕ}
    (ht : BinaryOp.ofToken? t = some op) (hop : op.precedence < n) : Stops n ts (t :: us) := by
  refine ⟨?_, apart_of_head ?_⟩
  · rintro _ ⟨⟩ op' hop'
    obtain rfl := Option.some.inj (ht.symm.trans hop')
    exact hop
  · rintro ⟨⟩
    cases ht

theorem stops_symbol {s : Symbol} {ts us : List Token} (n : ℕ) (hs : s ≠ .lparen)
    (hop : BinaryOp.ofToken? (.symbol s) = none) : Stops n ts (.symbol s :: us) := by
  refine ⟨?_, apart_of_head ?_⟩
  · rintro _ ⟨⟩ op h
    cases hop.symm.trans h
  · exact fun h => hs (Token.symbol.inj (Option.some.inj h))

theorem climb_of_below {least : ℕ} {left : Expression} {ts : List Placed}
    (h : Below least (ts.map Placed.token)) :
    climb (F := F) least left ts = .ok (.here left ts) := by
  cases ts with
  | nil =>
    rw [climb]
    rfl
  | cons t ts =>
    rw [climb]
    cases hop : BinaryOp.ofToken? t.token with
    | none => rfl
    | some op =>
      dsimp only
      rw [if_pos (h t.token rfl op hop)]
      rfl

theorem climb_stop {least : ℕ} {left : Expression} {rest : List Token} (h : Below least rest) :
    Reads (F := F) (climb least left) rest left rest := by
  rintro placed rfl
  exact ⟨_, climb_of_below h, rfl, rfl⟩

theorem climb_step {least : ℕ} {left right e : Expression} {t : Token} {op : BinaryOp}
    {ts mid rest : List Token} (ht : BinaryOp.ofToken? t = some op) (hop : least ≤ op.precedence)
    (hr : Reads (F := F) (binary op.rightPrecedence) ts right mid)
    (hc : Reads (F := F) (climb least (.binary left op right)) mid e rest) :
    Reads (F := F) (climb least left) (t :: ts) e rest := by
  intro placed hplaced
  obtain ⟨first, tail, rfl, rfl, htail⟩ := List.map_eq_cons_iff.mp hplaced
  obtain ⟨r, hright, rfl, hmid⟩ := hr tail htail
  obtain ⟨all, hall, rfl, hrest⟩ := hc r.rest hmid
  refine ⟨(r.since all).behind.behind, ?_, rfl, hrest⟩
  rw [climb, ht]
  dsimp only
  rw [if_neg (Nat.not_lt.mpr hop), hright]
  change (climb least (left.binary op r.value) r.rest >>= _) = _
  rw [hall]
  rfl

/-- An expression is its first operand and what the operators after it make of it. -/
theorem binary_of_unary {least : ℕ} {first e : Expression} {ts mid rest : List Token}
    (hu : Reads (F := F) unary ts first mid) (hc : Reads (F := F) (climb least first) mid e rest) :
    Reads (F := F) (binary least) ts e rest := by
  intro placed hplaced
  obtain ⟨r, hr, rfl, hmid⟩ := hu placed hplaced
  obtain ⟨all, hall, rfl, hrest⟩ := hc r.rest hmid
  refine ⟨r.since all, ?_, rfl, hrest⟩
  rw [binary, hr]
  change (climb least r.value r.rest >>= _) = _
  rw [hall]
  rfl

theorem unary_minus {e : Expression} {ts rest : List Token} (h : Reads (F := F) unary ts e rest) :
    Reads (F := F) unary (.symbol .minus :: ts) (.neg e) rest := by
  intro placed hplaced
  obtain ⟨⟨_, line⟩, tail, rfl, rfl, htail⟩ := List.map_eq_cons_iff.mp hplaced
  obtain ⟨r, hr, rfl, hrest⟩ := h tail htail
  refine ⟨(r.map .neg).behind, ?_, rfl, hrest⟩
  rw [unary, hr]
  rfl

theorem unary_plus {e : Expression} {ts rest : List Token} (h : Reads (F := F) unary ts e rest) :
    Reads (F := F) unary (.symbol .plus :: ts) e rest := by
  intro placed hplaced
  obtain ⟨⟨_, line⟩, tail, rfl, rfl, htail⟩ := List.map_eq_cons_iff.mp hplaced
  obtain ⟨r, hr, rfl, hrest⟩ := h tail htail
  refine ⟨r.behind, ?_, rfl, hrest⟩
  rw [unary, hr]
  rfl

theorem close_reads {rest : List Token} :
    Reads (F := F) close (.symbol .rparen :: rest) () rest := by
  intro placed hplaced
  obtain ⟨⟨_, line⟩, tail, rfl, rfl, rfl⟩ := List.map_eq_cons_iff.mp hplaced
  exact ⟨.here () tail, by rw [close]; rfl, rfl, rfl⟩

theorem primary_leaf {t : Token} {e : Expression} {rest : List Token} (h : leaf? t = some e)
    (hr : Apart [t] rest) : Reads (F := F) primary (t :: rest) e rest := by
  intro placed hplaced
  obtain ⟨⟨_, line⟩, tail, rfl, rfl, rfl⟩ := List.map_eq_cons_iff.mp hplaced
  refine ⟨.here e tail, ?_, rfl, rfl⟩
  rw [primary]
  dsimp only [leaf?] at h
  split at h
  case h_6 _ name =>
    obtain rfl := Option.some.inj h
    dsimp only
    split
    next line inside => exact absurd rfl (hr name rfl)
    next => rfl
  case h_7 => cases h
  all_goals
    obtain rfl := Option.some.inj h
    rfl

theorem primary_paren {e : Expression} {ts rest : List Token}
    (h : Reads (F := F) (binary 0) ts e (.symbol .rparen :: rest)) :
    Reads (F := F) primary (.symbol .lparen :: ts) (.paren e) rest := by
  intro placed hplaced
  obtain ⟨⟨_, line⟩, tail, rfl, rfl, htail⟩ := List.map_eq_cons_iff.mp hplaced
  obtain ⟨r, hr, rfl, hrest⟩ := h tail htail
  obtain ⟨c, hc, -, hrest⟩ := close_reads (F := F) r.rest hrest
  refine ⟨(r.after (c.map fun _ => .paren r.value)).behind, ?_, rfl, hrest⟩
  rw [primary]
  dsimp only
  rw [hr]
  change (close r.rest >>= _) = _
  rw [hc]
  rfl

theorem primary_call {name : String} {es : List Expression} {ts rest : List Token}
    (h : Reads (F := F) arguments ts es (.symbol .rparen :: rest)) :
    Reads (F := F) primary (.identifier name :: .symbol .lparen :: ts) (.call name es) rest := by
  intro placed hplaced
  obtain ⟨⟨_, line⟩, tail, rfl, rfl, htail⟩ := List.map_eq_cons_iff.mp hplaced
  obtain ⟨⟨_, line'⟩, inside, rfl, rfl, hinside⟩ := List.map_eq_cons_iff.mp htail
  obtain ⟨r, hr, rfl, hrest⟩ := h inside hinside
  obtain ⟨c, hc, -, hrest⟩ := close_reads (F := F) r.rest hrest
  refine ⟨(r.after (c.map fun _ => .call name r.value)).behind, ?_, rfl, hrest⟩
  rw [primary]
  dsimp only
  rw [hr]
  change (close r.rest >>= _) = _
  rw [hc]
  rfl

theorem moreArguments_nil {rest : List Token} (h : rest.head? ≠ some (.symbol .comma)) :
    Reads (F := F) moreArguments rest [] rest := by
  rintro placed rfl
  refine ⟨.here [] placed, ?_, rfl, rfl⟩
  rw [moreArguments.eq_def]
  split
  next => simp at h
  next => rfl

theorem moreArguments_cons {e : Expression} {es : List Expression} {ts mid rest : List Token}
    (he : Reads (F := F) (binary 0) ts e mid) (hes : Reads (F := F) moreArguments mid es rest) :
    Reads (F := F) moreArguments (.symbol .comma :: ts) (e :: es) rest := by
  intro placed hplaced
  obtain ⟨⟨_, line⟩, tail, rfl, rfl, htail⟩ := List.map_eq_cons_iff.mp hplaced
  obtain ⟨r, hr, rfl, hmid⟩ := he tail htail
  obtain ⟨all, hall, rfl, hrest⟩ := hes r.rest hmid
  refine ⟨(r.since (all.map (r.value :: ·))).behind.behind, ?_, rfl, hrest⟩
  rw [moreArguments, hr]
  change (moreArguments r.rest >>= _) = _
  rw [hall]
  rfl

theorem arguments_nil {rest : List Token} :
    Reads (F := F) arguments (.symbol .rparen :: rest) [] (.symbol .rparen :: rest) := by
  intro placed hplaced
  obtain ⟨⟨_, line⟩, tail, rfl, rfl, rfl⟩ := List.map_eq_cons_iff.mp hplaced
  exact ⟨.here [] _, by rw [arguments]; rfl, rfl, rfl⟩

theorem arguments_cons {e : Expression} {es : List Expression} {ts mid rest : List Token}
    (hne : ts.head? ≠ some (.symbol .rparen)) (he : Reads (F := F) (binary 0) ts e mid)
    (hes : Reads (F := F) moreArguments mid es rest) :
    Reads (F := F) arguments ts (e :: es) rest := by
  rintro placed rfl
  obtain ⟨r, hr, rfl, hmid⟩ := he placed rfl
  obtain ⟨all, hall, rfl, hrest⟩ := hes r.rest hmid
  refine ⟨(r.since (all.map (r.value :: ·))).behind, ?_, rfl, hrest⟩
  rw [arguments.eq_def]
  split
  next => simp at hne
  next =>
    rw [hr]
    change (moreArguments r.rest >>= _) = _
    rw [hall]
    rfl

theorem unary_of_primary {t : Token} {ts rest : List Token} {e : Expression}
    (ht : t ≠ .symbol .minus ∧ t ≠ .symbol .plus) (h : Reads (F := F) primary (t :: ts) e rest) :
    Reads (F := F) unary (t :: ts) e rest := by
  intro placed hplaced
  obtain ⟨r, hr, hv, hrest⟩ := h placed hplaced
  refine ⟨r, ?_, hv, hrest⟩
  rw [unary.eq_def]
  split
  next => exact absurd (List.cons.inj hplaced).1.symm ht.1
  next => exact absurd (List.cons.inj hplaced).1.symm ht.2
  next => exact hr

theorem arguments_reads {args : List (List Token × Expression)}
    (hne : ∀ a ∈ args, ∃ t ts, a.1 = t :: ts ∧ t ≠ .symbol .rparen)
    (h : ∀ a ∈ args, ∀ rest, Stops 0 a.1 rest →
      Reads (F := F) (binary 0) (a.1 ++ rest) a.2 rest)
    (rest : List Token) :
    Reads (F := F) arguments (separated (args.map Prod.fst) ++ .symbol .rparen :: rest)
      (args.map Prod.snd) (.symbol .rparen :: rest) := by
  have hmore : ∀ more : List (List Token × Expression), (∀ a ∈ more, ∀ rest, Stops 0 a.1 rest →
      Reads (F := F) (binary 0) (a.1 ++ rest) a.2 rest) →
      Reads (F := F) moreArguments
        ((more.map Prod.fst).flatMap (.symbol .comma :: ·) ++ .symbol .rparen :: rest)
        (more.map Prod.snd) (.symbol .rparen :: rest) ∧
      ∀ ts, Stops 0 ts
        ((more.map Prod.fst).flatMap (.symbol .comma :: ·) ++ .symbol .rparen :: rest) := by
    intro more hmore
    induction more with
    | nil =>
      exact ⟨moreArguments_nil (by simp), fun _ => stops_symbol 0 (by decide) rfl⟩
    | cons a more ih =>
      obtain ⟨hread, hstop⟩ := ih fun b hb => hmore b (List.mem_cons_of_mem _ hb)
      refine ⟨?_, fun _ => stops_symbol 0 (by decide) rfl⟩
      simp only [List.map_cons, List.flatMap_cons, List.cons_append, List.append_assoc]
      exact moreArguments_cons (hmore a List.mem_cons_self _ (hstop _)) hread
  cases args with
  | nil => exact arguments_nil
  | cons a more =>
    obtain ⟨hread, hstop⟩ := hmore more fun b hb => h b (List.mem_cons_of_mem _ hb)
    obtain ⟨t, ts, ha, ht⟩ := hne a List.mem_cons_self
    simp only [List.map_cons, separated, List.append_assoc]
    refine arguments_cons ?_ (h a List.mem_cons_self _ (hstop _)) hread
    rw [ha]
    simpa using ht

/-- The reader takes the tokens as its left operand and goes on with what follows them. -/
def Continues (F : Type) (bound stop : ℕ) (ts : List Token) (e : Expression) : Prop :=
  ∀ least ≤ bound, ∀ rest, Stops stop ts rest → ∀ e' tail,
    Reads (F := F) (climb least e) rest e' tail → Reads (F := F) (binary least) (ts ++ rest) e' tail

/-- What a derivation at each level promises of the reader. -/
def Reading (F : Type) : Level → List Token → Expression → Prop
  | .sum => Continues F 1 2
  | .product => Continues F 2 3
  | .power => Continues F 3 3
  | .unary | .primary => fun ts e => ∀ rest : List Token, Apart ts rest →
      Reads (F := F) unary (ts ++ rest) e rest

theorem Continues.reads {bound stop : ℕ} {ts rest : List Token} {e : Expression}
    (h : Continues F bound stop ts e) (hr : Stops (min bound stop) ts rest) :
    Reads (F := F) (binary bound) (ts ++ rest) e rest :=
  h bound le_rfl rest (hr.mono (Nat.min_le_right _ _)) e rest
    (climb_stop (hr.below.mono (Nat.min_le_left _ _)))

theorem Continues.operator {bound stop : ℕ} {ts us : List Token} {t : Token} {op : BinaryOp}
    {l r : Expression} (hl : Continues F bound stop ts l) (ht : BinaryOp.ofToken? t = some op)
    (hb : bound ≤ op.precedence) (hs : op.precedence < stop) (hus : us ≠ [])
    (hr : ∀ rest, Stops stop us rest →
      Reads (F := F) (binary op.rightPrecedence) (us ++ rest) r rest) :
    Continues F bound stop (ts ++ t :: us) (.binary l op r) := by
  intro least hleast rest hrest e tail hc
  rw [List.append_assoc, List.cons_append]
  exact hl least hleast _ (stops_operator ht hs) e tail
    (climb_step ht (hleast.trans hb) (hr rest (hrest.last hus)) hc)

end Parser

namespace Derives
open Qasm.Parser

variable {F : Type}

/-- The reader accepts what the grammar derives. -/
theorem reading {level : Level} {ts : List Token} {e : Expression}
    (h : Derives level ts e) : Reading F level ts e := by
  -- an operand is followed by what the loop makes of it, so the left operands of a sum or a
  -- product need no induction over their length
  induction h with
  | sumOf _ ih =>
    exact fun least hleast rest hrest => ih least (hleast.trans (by decide)) rest
      (hrest.mono (by decide))
  | productOf _ ih =>
    exact fun least hleast => ih least (hleast.trans (by decide))
  | powerOf _ ih =>
    intro least _ rest hrest e' tail hc
    exact binary_of_unary (ih rest hrest.apart) hc
  | unaryOf _ ih => exact ih
  | @terms _ _ _ op _ _ _ ht hr ihl ihr =>
    obtain ⟨ht, hlevel⟩ := Level.operator?_eq_some_iff.mp ht
    obtain ⟨hop, hright⟩ : op.precedence = 1 ∧ op.rightPrecedence = 2 := by
      cases op <;> first | exact ⟨rfl, rfl⟩ | cases hlevel
    refine ihl.operator ht hop.ge (by omega) hr.ne_nil fun rest hrest => ?_
    rw [hright]
    exact ihr.reads hrest
  | @factors _ _ _ op _ _ _ ht hr ihl ihr =>
    obtain ⟨ht, hlevel⟩ := Level.operator?_eq_some_iff.mp ht
    obtain ⟨hop, hright⟩ : op.precedence = 2 ∧ op.rightPrecedence = 3 := by
      cases op <;> first | exact ⟨rfl, rfl⟩ | cases hlevel
    refine ihl.operator ht hop.ge (by omega) hr.ne_nil fun rest hrest => ?_
    rw [hright]
    exact ihr.reads hrest
  | @raised ts us t op _ r _ ht hr ihl ihr =>
    obtain ⟨ht, hlevel⟩ := Level.operator?_eq_some_iff.mp ht
    obtain rfl : op = .pow := by cases op <;> first | rfl | cases hlevel
    intro least hleast rest hrest e' tail hc
    rw [List.append_assoc, List.cons_append]
    -- the operator groups to the right: its right operand is read at its own precedence
    have hstop : Stops 4 ts (t :: (us ++ rest)) := stops_operator ht (by decide)
    exact binary_of_unary (ihl _ hstop.apart)
      (climb_step ht hleast (ihr.reads (hrest.last hr.ne_nil)) hc)
  | minus h ih =>
    exact fun rest hrest => unary_minus (ih rest ((apart_append_iff [_] h.ne_nil).mp hrest))
  | plus h ih =>
    exact fun rest hrest => unary_plus (ih rest ((apart_append_iff [_] h.ne_nil).mp hrest))
  | leaf h =>
    intro rest hrest
    refine unary_of_primary ⟨?_, ?_⟩ (primary_leaf h hrest)
    all_goals
      rintro rfl
      cases h
  | @paren ts _ _ ih =>
    intro rest _
    rw [List.cons_append, List.append_assoc]
    refine unary_of_primary (by decide) ?_
    have hstop : Stops 0 ts (.symbol .rparen :: rest) := stops_symbol 0 (by decide) rfl
    exact primary_paren (ih 0 (by decide) _ (hstop.mono (by decide)) _ _ (climb_stop hstop.below))
  | @call name args h ih =>
    intro rest _
    rw [List.cons_append, List.cons_append, List.append_assoc]
    refine unary_of_primary ⟨by rintro ⟨⟩, by rintro ⟨⟩⟩ ?_
    refine primary_call (arguments_reads (fun a ha => (h a ha).exists_cons) ?_ rest)
    exact fun a ha rest hrest => ih a ha 0 (by decide) rest (hrest.mono (by decide)) _ _
      (climb_stop hrest.below)

theorem reads {ts rest : List Token} {e : Expression} (h : Derives .sum ts e)
    (hr : Stops 0 ts rest) : Reads (F := F) (binary 0) (ts ++ rest) e rest :=
  h.reading 0 (by decide) rest (hr.mono (by decide)) e rest (climb_stop hr.below)

end Derives

end Interchange.Qasm
