import Interchange.Proofs.ExpressionGrammar
import Interchange.Qasm.Parser.Statement
import Interchange.Qasm.Version

namespace Interchange.Qasm

namespace Parser

variable {F α β : Type}

/-- On every placement of the tokens, the parser takes them up to the rest and gives the value. -/
def Takes (p : Parser F α) (ts : List Token) (a : α) (rest : List Token) : Prop :=
  ∀ placed : List Placed, placed.map Placed.token = ts →
    ∃ tail, p placed = .ok (a, tail) ∧ tail.val.map Placed.token = rest

namespace Takes

theorem pure (a : α) (ts : List Token) : Takes (F := F) (Pure.pure a) ts a ts := by
  rintro placed rfl
  exact ⟨⟨placed, Nat.le_refl _⟩, rfl, rfl⟩

theorem bind {p : Parser F α} {f : α → Parser F β} {a : α} {b : β} {ts mid rest : List Token}
    (hp : Takes p ts a mid) (hf : Takes (f a) mid b rest) : Takes (p >>= f) ts b rest := by
  intro placed hplaced
  obtain ⟨tail, htail, hmid⟩ := hp placed hplaced
  obtain ⟨tail', htail', hrest⟩ := hf tail.val hmid
  refine ⟨⟨tail'.val, Nat.le_trans tail'.property tail.property⟩, ?_, hrest⟩
  change (p placed >>= fun x => f x.1 x.2.val >>= _) = _
  rw [htail]
  change (f a tail.val >>= _) = _
  rw [htail']
  rfl

theorem next {awaited : String} {f : Placed → Parser F β} {t : Token} {b : β}
    {ts rest : List Token} (hf : ∀ line, Takes (f ⟨t, line⟩) ts b rest) :
    Takes (next awaited >>= f) (t :: ts) b rest := by
  intro placed hplaced
  obtain ⟨⟨_, line⟩, tail, rfl, rfl, htail⟩ := List.map_eq_cons_iff.mp hplaced
  obtain ⟨tail', htail', hrest⟩ := hf line tail htail
  refine ⟨⟨tail'.val, Nat.le_succ_of_le tail'.property⟩, ?_, hrest⟩
  change (f _ tail >>= _) = _
  rw [htail']
  rfl

theorem expect (t : Token) (ts : List Token) : Takes (F := F) (expect t) (t :: ts) () ts := by
  refine next fun line => ?_
  rw [if_pos rfl]
  exact pure () ts

theorem identifier (name : String) (ts : List Token) :
    Takes (F := F) identifier (.identifier name :: ts) name ts :=
  next fun _ => pure name ts

theorem index {n : ℕ} (hn : n < Number.indexLimit) (ts : List Token) :
    Takes (F := F) index (.int n :: ts) n ts := by
  refine next fun line => ?_
  dsimp only
  rw [if_pos hn]
  exact pure n ts

theorem peek? (ts : List Token) : Takes (F := F) peek? ts ts.head? ts := by
  rintro placed rfl
  refine ⟨⟨placed, Nat.le_refl _⟩, ?_, rfl⟩
  rw [List.head?_map]
  rfl

theorem accept (s : Symbol) (ts : List Token) :
    Takes (F := F) (accept s) (.symbol s :: ts) true ts := by
  intro placed hplaced
  obtain ⟨⟨_, line⟩, tail, rfl, rfl, rfl⟩ := List.map_eq_cons_iff.mp hplaced
  exact ⟨⟨tail, Nat.le_succ _⟩, by rw [Parser.accept, if_pos rfl], rfl⟩

theorem accept_other {s : Symbol} {ts : List Token} (h : ts.head? ≠ some (.symbol s)) :
    Takes (F := F) (Parser.accept s) ts false ts := by
  rintro placed rfl
  cases placed with
  | nil => exact ⟨⟨[], Nat.le_refl _⟩, rfl, rfl⟩
  | cons t placed =>
    have ht : t.token ≠ .symbol s := by simpa using h
    exact ⟨⟨t :: placed, Nat.le_refl _⟩, by rw [Parser.accept, if_neg ht], rfl⟩

theorem commaTail_nil {item : Parser F α} {ts : List Token}
    (h : ts.head? ≠ some (.symbol .comma)) : Takes (commaTail item) ts [] ts := by
  rintro placed rfl
  cases placed with
  | nil => exact ⟨⟨[], Nat.le_refl _⟩, by rw [commaTail], rfl⟩
  | cons t placed =>
    have ht : t.token ≠ .symbol .comma := by simpa using h
    exact ⟨⟨t :: placed, Nat.le_refl _⟩, by rw [commaTail, if_neg ht], rfl⟩

theorem commaTail_cons {item : Parser F α} {a : α} {as : List α} {ts mid rest : List Token}
    (hitem : Takes item ts a mid) (htail : Takes (commaTail item) mid as rest) :
    Takes (commaTail item) (.symbol .comma :: ts) (a :: as) rest := by
  intro placed hplaced
  obtain ⟨⟨_, line⟩, tail, rfl, rfl, hts⟩ := List.map_eq_cons_iff.mp hplaced
  obtain ⟨after, hafter, hmid⟩ := hitem tail hts
  obtain ⟨after', hafter', hrest⟩ := htail after.val hmid
  have hle : after'.val.length ≤ tail.length + 1 :=
    Nat.le_succ_of_le (Nat.le_trans after'.property after.property)
  refine ⟨⟨after'.val, hle⟩, ?_, hrest⟩
  rw [commaTail, if_pos rfl, hafter]
  dsimp only
  rw [hafter']

theorem commaList {ι : Type} {item : Parser F α} {xs : List ι} {tokens : ι → List Token}
    {value : ι → α} {rest : List Token} (hne : xs ≠ [])
    (h : ∀ x ∈ xs, ∀ rest, Takes item (tokens x ++ rest) (value x) rest)
    (hr : rest.head? ≠ some (.symbol .comma)) :
    Takes (commaList item) (separated (xs.map tokens) ++ rest) (xs.map value) rest := by
  have htail : ∀ ys : List ι, (∀ x ∈ ys, ∀ rest, Takes item (tokens x ++ rest) (value x) rest) →
      Takes (commaTail item) ((ys.map tokens).flatMap (.symbol .comma :: ·) ++ rest)
        (ys.map value) rest := by
    intro ys hys
    induction ys with
    | nil => exact commaTail_nil hr
    | cons y ys ih =>
      simp only [List.map_cons, List.flatMap_cons, List.cons_append, List.append_assoc]
      exact commaTail_cons (hys y List.mem_cons_self _)
        (ih fun z hz => hys z (List.mem_cons_of_mem _ hz))
  obtain ⟨x, xs, rfl⟩ := List.exists_cons_of_ne_nil hne
  simp only [List.map_cons, separated, List.append_assoc]
  refine bind (h x List.mem_cons_self _) (bind (htail xs ?_) (pure _ _))
  exact fun y hy => h y (List.mem_cons_of_mem _ hy)

theorem terminated (a : α) (ts : List Token) :
    Takes (F := F) (terminated a) (.symbol .semicolon :: ts) a ts :=
  bind (expect _ _) (pure a ts)

end Takes

def elementTokens (register : String) (i : ℕ) : List Token :=
  [.identifier register, .symbol .lbracket, .int i, .symbol .rbracket]

theorem takes_reference (register : String) {i : ℕ} (hi : i < Number.indexLimit)
    (ts : List Token) :
    Takes (F := F) reference (elementTokens register i ++ ts) ⟨register, some i⟩ ts := by
  refine .bind (.identifier register _) (.bind (.accept .lbracket _) ?_)
  exact .bind (.index hi _) (.bind (.expect _ _) (.pure _ _))

def elementsTokens (register : String) (is : List ℕ) : List Token :=
  separated (is.map (elementTokens register))

theorem takes_references (register : String) {is : List ℕ} (hne : is ≠ [])
    (hi : ∀ i ∈ is, i < Number.indexLimit) {rest : List Token}
    (hr : rest.head? ≠ some (.symbol .comma)) :
    Takes (F := F) references (elementsTokens register is ++ rest)
      (is.map fun i => ⟨register, some i⟩) rest := by
  exact .commaList hne (fun i hmem rest => takes_reference register (hi i hmem) rest) hr

def callTokens (params : List (List Token)) (qubits : List ℕ) : List Token :=
  (if params.isEmpty then [] else .symbol .lparen :: (separated params ++ [.symbol .rparen])) ++
    (elementsTokens "q" qubits ++ [.symbol .semicolon])

theorem head_elementsTokens (register : String) {is : List ℕ} (hne : is ≠ []) (ts : List Token) :
    (elementsTokens register is ++ ts).head? = some (.identifier register) := by
  obtain ⟨i, is, rfl⟩ := List.exists_cons_of_ne_nil hne
  rfl

theorem takes_expressionList {args : List (List Token × Expression)}
    (h : ∀ a ∈ args, Derives .sum a.1 a.2) (rest : List Token) :
    Takes (F := F) expressionList (separated (args.map Prod.fst) ++ .symbol .rparen :: rest)
      (args.map Prod.snd) (.symbol .rparen :: rest) := by
  intro placed hplaced
  obtain ⟨r, hr, hv, hrest⟩ := arguments_reads (F := F) (fun a ha => (h a ha).exists_cons)
    (fun a ha rest hrest => (h a ha).reads hrest) rest placed hplaced
  refine ⟨⟨r.rest, Nat.le_of_lt_succ r.rest_lt⟩, ?_, hrest⟩
  rw [expressionList, hr, ← hv]
  rfl

theorem takes_gateCall (name : String) {args : List (List Token × Expression)} {qubits : List ℕ}
    (hargs : ∀ a ∈ args, Derives .sum a.1 a.2) (hne : qubits ≠ [])
    (hq : ∀ q ∈ qubits, q < Number.indexLimit) (rest : List Token) :
    Takes (F := F) (gateCall name) (callTokens (args.map Prod.fst) qubits ++ rest)
      ⟨name, args.map Prod.snd, qubits.map fun q => ⟨"q", some q⟩⟩ rest := by
  have hqubits : ∀ params : List Expression, Takes (F := F)
      (do let qubits ← references; terminated (⟨name, params, qubits⟩ : GateCall))
      (elementsTokens "q" qubits ++ .symbol .semicolon :: rest)
      ⟨name, params, qubits.map fun q => ⟨"q", some q⟩⟩ rest :=
    fun params => .bind (takes_references "q" hne hq (by simp)) (.terminated _ _)
  cases args with
  | nil =>
    rw [callTokens, List.append_assoc, List.append_assoc]
    refine .bind (.accept_other ?_) (.bind (.pure [] _) (hqubits []))
    rw [List.map_nil, List.isEmpty_nil, if_pos rfl, List.nil_append, head_elementsTokens "q" hne]
    simp
  | cons a args =>
    have htokens : callTokens ((a :: args).map Prod.fst) qubits ++ rest =
        .symbol .lparen :: (separated ((a :: args).map Prod.fst) ++ .symbol .rparen ::
          (elementsTokens "q" qubits ++ .symbol .semicolon :: rest)) := by
      simp [callTokens]
    rw [htokens]
    refine .bind (.accept .lparen _) (.bind (takes_expressionList hargs _) ?_)
    exact .bind (.expect _ _) (.bind (.pure _ _) (hqubits _))

/-- Tokens that make up a statement, whatever follows it. -/
def Sentence (F : Type) (ts : List Token) (s : Statement) : Prop :=
  ∃ t us, ts = t :: us ∧ ∀ line rest, Takes (F := F) (statementFrom ⟨t, line⟩) (us ++ rest) s rest

theorem sentence_include (path : String) :
    Sentence F [.keyword .includeFile, .string path, .symbol .semicolon] (.includeFile path) :=
  ⟨_, _, rfl, fun _ _ => .next fun _ => .terminated _ _⟩

def inputTokens (name : String) : List Token :=
  [.keyword .input, .keyword .float, .symbol .lbracket, .int 64, .symbol .rbracket,
    .identifier name, .symbol .semicolon]

theorem sentence_input (name : String) : Sentence F (inputTokens name) (.input name) := by
  refine ⟨_, _, rfl, fun line rest => .next fun line => ?_⟩
  rw [if_pos (.inl rfl)]
  refine .bind (.accept .lbracket _) ?_
  change Takes (index >>= fun _ => symbol .rbracket >>= fun _ => identifier >>= fun name =>
    terminated (Statement.input name)) _ _ _
  exact .bind (.index (n := 64) (by decide) _) (.bind (.expect _ _)
    (.bind (.identifier name _) (.terminated _ _)))

def registerTokens (version : Version) (quantum : Bool) (name : String) (size : ℕ) : List Token :=
  match version with
  | .v2 => .keyword (if quantum then .qreg else .creg) ::
      (elementTokens name size ++ [.symbol .semicolon])
  | .v3 => [.keyword (if quantum then .qubit else .bit), .symbol .lbracket, .int size,
      .symbol .rbracket, .identifier name, .symbol .semicolon]

theorem sentence_register (version : Version) (quantum : Bool) (name : String) {size : ℕ}
    (hs : size < Number.indexLimit) :
    Sentence F (registerTokens version quantum name size) (sized quantum name size) := by
  have hnamed : ∀ rest, Takes (F := F) (namedRegister quantum)
      (elementTokens name size ++ .symbol .semicolon :: rest) (sized quantum name size) rest :=
    fun rest => .bind (.identifier name _) (.bind (.expect _ _)
      (.bind (.index hs _) (.bind (.expect _ _) (.terminated _ _))))
  have htyped : ∀ rest, Takes (F := F) (typedRegister quantum)
      (.symbol .lbracket :: .int size :: .symbol .rbracket :: .identifier name ::
        .symbol .semicolon :: rest) (sized quantum name size) rest :=
    fun rest => .bind (.accept .lbracket _) (.bind (.index hs _) (.bind (.expect _ _)
      (.bind (.pure _ _) (.bind (.identifier name _) (.terminated _ _)))))
  cases version with
  | v2 =>
    refine ⟨_, _, rfl, fun line rest => ?_⟩
    rw [List.append_assoc]
    cases quantum <;> exact hnamed rest
  | v3 =>
    refine ⟨_, _, rfl, fun line rest => ?_⟩
    cases quantum <;> exact htyped rest

def registerSentences (version : Version) (qubits clbits : ℕ) : List (List Token × Statement) :=
  (if qubits = 0 then [] else [(registerTokens version true "q" qubits, .qubits "q" qubits)]) ++
    (if clbits = 0 then [] else [(registerTokens version false "c" clbits, .bits "c" clbits)])

theorem sentence_of_mem_registers {version : Version} {qubits clbits : ℕ}
    (hq : qubits < Number.indexLimit) (hc : clbits < Number.indexLimit)
    {s : List Token × Statement} (hs : s ∈ registerSentences version qubits clbits) :
    Sentence F s.1 s.2 := by
  rw [registerSentences, List.mem_append] at hs
  rcases hs with hs | hs
  · split_ifs at hs
    · cases hs
    · obtain rfl := List.mem_singleton.mp hs
      exact sentence_register version true "q" hq
  · split_ifs at hs
    · cases hs
    · obtain rfl := List.mem_singleton.mp hs
      exact sentence_register version false "c" hc

def measureTokens (version : Version) (q c : ℕ) : List Token :=
  match version with
  | .v2 => .keyword .measure :: (elementTokens "q" q ++ .symbol .arrow ::
      (elementTokens "c" c ++ [.symbol .semicolon]))
  | .v3 => elementTokens "c" c ++ .symbol .eq :: .keyword .measure ::
      (elementTokens "q" q ++ [.symbol .semicolon])

theorem sentence_measure (version : Version) {q c : ℕ} (hq : q < Number.indexLimit)
    (hc : c < Number.indexLimit) :
    Sentence F (measureTokens version q c) (.measure [⟨"q", some q⟩] [⟨"c", some c⟩]) := by
  have hone : ∀ (register : String) {i : ℕ}, i < Number.indexLimit → ∀ rest : List Token,
      rest.head? ≠ some (.symbol .comma) → Takes (F := F) references
        (elementTokens register i ++ rest) [⟨register, some i⟩] rest := by
    intro register i hi rest hr
    have h := takes_references (F := F) register (List.cons_ne_nil i []) (by simpa using hi) hr
    simpa [elementsTokens, separated] using h
  cases version with
  | v2 =>
    refine ⟨_, _, rfl, fun line rest => ?_⟩
    rw [List.append_assoc, List.cons_append, List.append_assoc]
    refine .bind (hone "q" hq _ (by simp)) (.bind (.accept .arrow _) ?_)
    exact .bind (hone "c" hc _ (by simp)) (.terminated _ _)
  | v3 =>
    refine ⟨_, _, rfl, fun line rest => ?_⟩
    refine .bind (.peek? _) ?_
    rw [if_pos (.inr rfl)]
    refine .bind (.accept .lbracket _) (.bind (.index hc _) (.bind (.expect _ _) ?_))
    refine .bind (.pure _ _) (.bind (.expect _ _) (.next fun line => ?_))
    rw [if_pos rfl]
    exact .bind (hone "q" hq (.symbol .semicolon :: rest) (by simp)) (.terminated _ _)

theorem sentence_gate (name : String) {args : List (List Token × Expression)} {qubits : List ℕ}
    (hargs : ∀ a ∈ args, Derives .sum a.1 a.2) (hne : qubits ≠ [])
    (hq : ∀ q ∈ qubits, q < Number.indexLimit) :
    Sentence F (.identifier name :: callTokens (args.map Prod.fst) qubits)
      (.gate ⟨name, args.map Prod.snd, qubits.map fun q => ⟨"q", some q⟩⟩) := by
  refine ⟨_, _, rfl, fun line rest => .bind (.peek? _) ?_⟩
  have hhead : ¬((callTokens (args.map Prod.fst) qubits ++ rest).head? = some (.symbol .eq) ∨
      (callTokens (args.map Prod.fst) qubits ++ rest).head? = some (.symbol .lbracket)) := by
    cases args with
    | nil =>
      rw [List.map_nil, callTokens, List.append_assoc, List.append_assoc]
      simp [head_elementsTokens "q" hne]
    | cons a args => simp [callTokens]
  rw [if_neg hhead]
  exact .bind (takes_gateCall name hargs hne hq rest) (.pure _ _)

theorem statements_of_sentences {sentences : List (List Token × Statement)}
    (h : ∀ s ∈ sentences, Sentence F s.1 s.2) {placed : List Placed}
    (hplaced : placed.map Placed.token = sentences.flatMap Prod.fst) :
    statements (F := F) placed = .ok (sentences.map Prod.snd) := by
  induction sentences generalizing placed with
  | nil =>
    rw [List.map_eq_nil_iff.mp hplaced, statements]
    rfl
  | cons s sentences ih =>
    obtain ⟨t, us, hts, hs⟩ := h s List.mem_cons_self
    rw [List.flatMap_cons, hts, List.cons_append] at hplaced
    obtain ⟨⟨_, line⟩, tail, rfl, rfl, htail⟩ := List.map_eq_cons_iff.mp hplaced
    obtain ⟨rest, hrest, hmap⟩ := hs line _ tail htail
    rw [statements, hrest]
    dsimp only
    rw [ih (fun x hx => h x (List.mem_cons_of_mem _ hx)) hmap]
    rfl

def headerNumber : Version → Number.Decimal
  | .v2 => ⟨20, -1⟩
  | .v3 => ⟨30, -1⟩

def headerTokens (version : Version) : List Token :=
  [.keyword .openqasm, .float (headerNumber version), .symbol .semicolon]

theorem takes_header (version : Version) (rest : List Token) :
    ∃ text, Takes (F := F) header (headerTokens version ++ rest) text rest := by
  have hnumber : ∃ text, Number.fixed 1 (headerNumber version).toDouble = text ∧
      ("2.".isPrefixOf text || "3.".isPrefixOf text) = true := by
    cases version with
    | v2 => exact ⟨"2.0", by decide +kernel, by decide +kernel⟩
    | v3 => exact ⟨"3.0", by decide +kernel, by decide +kernel⟩
  obtain ⟨text, htext, hknown⟩ := hnumber
  refine ⟨text, .bind (.expect _ _) (.bind (.next fun line => ?_) (.terminated _ _))⟩
  dsimp only
  rw [htext, version.known, if_pos hknown]
  exact .pure _ _

end Parser

end Interchange.Qasm
