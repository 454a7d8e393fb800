import Interchange.Proofs.ParamText
import Interchange.Proofs.ProgramReading

namespace Interchange.Qasm
open Lexeme Qasm.Parser

/-- A text that can be cut into tokens has a lexeme at its head, and the rest can be cut too. -/
theorem Spells.uncons {c : Char} {cs : List Char} {ts : List Token} (h : Spells (c :: cs) ts) :
    (head c cs).1 ≠ .invalid ∧ ∃ us, Spells (cs.drop (head c cs).2) us := by
  cases h with
  | separator h hr =>
    rw [h]
    exact ⟨Lexeme.noConfusion, _, hr⟩
  | token h hr =>
    rw [h]
    exact ⟨Lexeme.noConfusion, _, hr⟩

/-- Wherever the text stands in one that can be cut into tokens, the condition holds and what
follows can be cut too. -/
def Demands (text : List Char) (P : Prop) : Prop :=
  ∀ rest ts, Ends rest → Spells (text ++ rest) ts → P ∧ ∃ us, Spells rest us

namespace Demands

variable {a b : List Char} {P Q : Prop}

theorem mono (h : Demands a P) (hPQ : P → Q) : Demands a Q :=
  fun rest ts hrest hs => (h rest ts hrest hs).imp_left hPQ

theorem nil : Demands [] True := fun _ ts _ hs => ⟨trivial, ts, hs⟩

theorem lexeme {c : Char} {l : Lexeme}
    (hhead : ∀ rest, Ends rest → head c (a ++ rest) = (l, a.length)) :
    Demands (c :: a) (l ≠ .invalid) := by
  intro rest ts hrest hs
  rw [List.cons_append] at hs
  have h := hs.uncons
  rw [hhead rest hrest] at h
  change l ≠ .invalid ∧ ∃ us, Spells ((a ++ rest).drop a.length) us at h
  rwa [List.drop_left] at h

theorem word
    (hw : ∃ c tail, a = c :: tail ∧ startsWord c = true ∧ ∀ d ∈ tail, continuesWord d = true) :
    Demands a True := by
  obtain ⟨c, tail, rfl, hc, htail⟩ := hw
  exact (lexeme fun rest hrest => head_word hc htail hrest).mono fun _ => trivial

theorem number {isFloat : Bool} (hw : NumberText a isFloat) :
    Demands a (ofNumber a isFloat ≠ .invalid) := by
  obtain ⟨c, tail, rfl, -⟩ := hw.head
  refine lexeme fun rest hrest => ?_
  obtain ⟨_, _, heq, hhead⟩ := head_number hw hrest
  obtain ⟨rfl, rfl⟩ := List.cons.inj heq
  exact hhead

theorem single {o : Char} (h : Demands a P) (ho : ∀ rest, (head o (a ++ rest)).2 = 0) :
    Demands (o :: a) P := by
  intro rest ts hrest hs
  rw [List.cons_append] at hs
  obtain ⟨-, us, hus⟩ := hs.uncons
  rw [ho, List.drop_zero] at hus
  exact h rest us hrest hus

theorem space (h : Demands a P) : Demands (' ' :: a) P := h.single fun _ => rfl

theorem append {o : Char} (ha : Demands a P) (hb : Demands (o :: b) Q)
    (ho : continuesWord o = false ∧ o ≠ '.') : Demands (a ++ o :: b) (P ∧ Q) := by
  intro rest ts hrest hs
  rw [List.append_assoc] at hs
  obtain ⟨hP, us, hus⟩ := ha _ ts (ends_cons ho) hs
  obtain ⟨hQ, hrest⟩ := hb rest us hrest hus
  exact ⟨⟨hP, hQ⟩, hrest⟩

theorem minus {c : Char} (h : Demands (c :: a) P) (hc : c ≠ '>') : Demands ('-' :: c :: a) P :=
  h.single fun rest => by rw [List.cons_append, head_minus _ hc]

theorem parens (h : Demands a P) : Demands ('(' :: (a ++ [')'])) P :=
  ((h.append (nil.single fun _ => rfl) (by decide)).single fun _ => rfl).mono And.left

theorem enclosed {x y m : String} {o : Char} (hx : Demands x.toList P) (hy : Demands y.toList Q)
    (hm : m.toList = [' ', o, ' ']) (ho : ∀ rest, (head o (' ' :: rest)).2 = 0) :
    Demands ("(" ++ x ++ m ++ y ++ ")").toList (P ∧ Q) := by
  have h := (hx.append (hy.space.single fun _ => ho _).space (by decide)).parens
  simpa [hm] using h

theorem intercalate {texts : List String} {P : String → Prop}
    (h : ∀ text ∈ texts, Demands text.toList (P text)) :
    Demands (String.intercalate ", " texts).toList (∀ text ∈ texts, P text) := by
  induction texts with
  | nil => exact nil.mono fun _ _ hmem => absurd hmem List.not_mem_nil
  | cons first texts ih =>
    obtain ⟨hfirst, hrest⟩ := List.forall_mem_cons.mp h
    cases texts with
    | nil =>
      rw [String.intercalate_singleton]
      exact hfirst.mono fun hP => List.forall_mem_singleton.mpr hP
    | cons second texts =>
      have hlist := hfirst.append ((ih hrest).space.single (o := ',') fun _ => rfl) (by decide)
      rw [String.intercalate_cons_cons]
      simpa using hlist

theorem brackets (ha : Demands a P) (hb : Demands b Q) :
    Demands (a ++ '[' :: (b ++ [']'])) (P ∧ Q) :=
  (ha.append ((hb.append (nil.single fun _ => rfl) (by decide)).single fun _ => rfl)
    (by decide)).mono fun h => ⟨h.1, h.2.1⟩

theorem name (h : IsName a) : Demands a True := .word h.starts

theorem nat (n : ℕ) : Demands (toString n).toList True := by
  rw [Nat.toString_eq_ofList_toDigits, String.toList_ofList]
  exact (number (numberText_toDigits n)).mono fun _ => trivial

theorem element {c : Char} (hc : IsName [c]) (i : ℕ) :
    Demands (c :: '[' :: ((toString i).toList ++ [']'])) True :=
  ((name hc).brackets (nat i)).mono fun _ => trivial

theorem qubit (q : ℕ) : Demands (qubitText q).toList True := by
  rw [qubitText, String.toList_append, String.toList_append, List.append_assoc]
  exact element isName_q q

theorem clbit (c : ℕ) : Demands (clbitText c).toList True := by
  rw [clbitText, String.toList_append, String.toList_append, List.append_assoc]
  exact element isName_c c

theorem piForm (f : PiForm) : Demands f.text.toList True := by
  have hpi : Demands ['p', 'i'] True :=
    .word ⟨'p', ['i'], rfl, by decide, List.all_eq_true.mp rfl⟩
  have hminus : Demands ['-', 'p', 'i'] True := hpi.minus (by decide)
  have hover : ∀ {w : List Char} {d : Char}, Demands w True → NumberText [d] false →
      (∀ rest, (head '/' (d :: rest)).2 = 0) → Demands (w ++ ['/', d]) True :=
    fun hw hd hslash => (hw.append ((number hd).single hslash) (by decide)).mono fun _ => trivial
  have hfour : NumberText ['4'] false := numberText_toDigits 4
  have htwo : NumberText ['2'] false := numberText_toDigits 2
  cases f with
  | pi => exact hpi
  | minusPi => exact hminus
  | half => exact hover hpi htwo fun _ => rfl
  | minusHalf => exact hover hminus htwo fun _ => rfl
  | quarter => exact hover hpi hfour fun _ => rfl
  | minusQuarter => exact hover hminus hfour fun _ => rfl
  | twice =>
    exact ((number htwo).append (hpi.single (o := '*') fun _ => rfl) (by decide)).mono
      fun _ => trivial

theorem signed {isFloat : Bool} (hw : NumberText a isFloat) (negative : Bool) :
    Demands (if negative then '-' :: a else a) (ofNumber a isFloat ≠ .invalid) := by
  cases negative with
  | false => exact number hw
  | true =>
    obtain ⟨c, tail, rfl, hc⟩ := hw.head
    exact (number hw).minus (by rintro rfl; cases hc)

end Demands

theorem demands_writeAngle {v : Float} {text : String} (h : writeAngle v = .ok text) :
    Demands text.toList (AngleReadsBack v) := by
  have hfin : v.isFinite = true := isFinite_of_writeAngle h
  rcases lt_or_ge (Number.Binary.ofBits v.toBits).exponent 12 with hlt | hge
  · refine Demands.mono (P := True) ?_ fun _ => angleReadsBack_of_lt_limit hfin hlt
    cases hf : PiForm.of? v with
    | some f =>
      obtain rfl := Except.ok.inj (h.symm.trans (writeAngle_of_form hfin hf))
      exact .piForm f
    | none =>
      obtain rfl := Except.ok.inj (h.symm.trans (writeAngle_of_none hfin hf))
      obtain ⟨w, isFloat, hw, htext⟩ := Number.exists_numberText_plain hfin
      change Demands (Number.plain.write v).toList True
      rw [htext]
      exact (Demands.signed hw _).mono fun _ => trivial
  -- beyond the limit the digits are no token, so that no text with them can be cut
  · have hform := PiForm.of?_of_limit_le hfin hge
    obtain rfl := Except.ok.inj (h.symm.trans (writeAngle_of_none hfin hform))
    obtain ⟨hw, hinvalid⟩ := Number.ofNumber_of_limit_le (Number.Binary.isDouble_ofBits _) hge
    change Demands (Number.plain.write v).toList _
    rw [Number.toList_write hfin]
    exact (Demands.signed hw _).mono fun hne => absurd hinvalid hne

/-- Every number of a parameter is written as a text that reads back. -/
def NumbersReadBack (p : Param Float) : Prop := p.All AngleReadsBack fun _ => True

section Params

variable {names : List (ℕ × String)} {p : Param Float} {text : String}

theorem isName_of_lookup (hnames : ∀ e ∈ names, IsName e.2.toList) {id : ℕ} {name : String}
    (h : names.lookup id = some name) : IsName name.toList := by
  obtain ⟨_, _, hentries, -⟩ := List.lookup_eq_some_iff.mp h
  exact hnames (id, name) (by simp [hentries])

theorem demands_writeParam (hnames : ∀ e ∈ names, IsName e.2.toList)
    (h : writeParam names p = .ok text) : Demands text.toList (NumbersReadBack p) := by
  induction p generalizing text with
  | const v => exact demands_writeAngle h
  | pi =>
    obtain rfl := Except.ok.inj h
    exact .piForm .pi
  | ref r =>
    rw [writeParam] at h
    split at h
    next name hlookup =>
      obtain rfl := Except.ok.inj h
      exact .name (isName_of_lookup hnames hlookup)
    next => cases h
  | neg e ih =>
    obtain ⟨x, hx, h⟩ := bind_eq_ok_iff.mp h
    obtain rfl := Except.ok.inj h
    have htext : ("-(" ++ x ++ ")").toList = '-' :: '(' :: (x.toList ++ [')']) := by simp
    rw [htext]
    exact (ih hx).parens.minus (by decide)
  | add a b iha ihb | sub a b iha ihb | mul a b iha ihb | div a b iha ihb =>
    obtain ⟨x, hx, h⟩ := bind_eq_ok_iff.mp h
    obtain ⟨y, hy, h⟩ := bind_eq_ok_iff.mp h
    obtain rfl := Except.ok.inj h
    exact (iha hx).enclosed (ihb hy) rfl fun _ => rfl

theorem IsExpression.enclosed {x y m : String} {o : Char} {s : Symbol} {op : BinaryOp}
    (hx : IsExpression x) (hy : IsExpression y) (hm : m.toList = [' ', o, ' '])
    (ho : ∀ rest, head o (' ' :: rest) = (.token (.symbol s), 0))
    (hs : BinaryOp.ofToken? (.symbol s) = some op) (hop : op.precedence = 1 ∨ op.precedence = 2) :
    IsExpression ("(" ++ x ++ m ++ y ++ ")") := by
  obtain ⟨ts, hts, hx⟩ := hx
  obtain ⟨us, hus, hy⟩ := hy
  exact ⟨_, hts.enclosed hus hm ho, hx.enclosed hy hs hop⟩

theorem isExpression_writeParam (hnames : ∀ e ∈ names, IsName e.2.toList)
    (h : writeParam names p = .ok text) (hp : NumbersReadBack p) : IsExpression text := by
  induction p generalizing text with
  | const v => exact AngleReadsBack.isExpression hp h
  | pi =>
    obtain rfl := Except.ok.inj h
    exact ⟨_, PiForm.pi.chunk, .piForm .pi⟩
  | ref r =>
    rw [writeParam] at h
    split at h
    next name hlookup =>
      obtain rfl := Except.ok.inj h
      exact ⟨_, .name (isName_of_lookup hnames hlookup),
        .of_power (.powerOf (.unaryOf (.leaf rfl)))⟩
    next => cases h
  | neg e ih =>
    obtain ⟨x, hx, h⟩ := bind_eq_ok_iff.mp h
    obtain rfl := Except.ok.inj h
    obtain ⟨ts, hts, hoperand⟩ := ih hx hp
    exact ⟨_, by simpa using hts.parens.minus (by decide), hoperand.negated⟩
  | add a b iha ihb | sub a b iha ihb =>
    obtain ⟨x, hx, h⟩ := bind_eq_ok_iff.mp h
    obtain ⟨y, hy, h⟩ := bind_eq_ok_iff.mp h
    obtain rfl := Except.ok.inj h
    exact (iha hx hp.1).enclosed (ihb hy hp.2) rfl (fun _ => rfl) rfl (.inl rfl)
  | mul a b iha ihb | div a b iha ihb =>
    obtain ⟨x, hx, h⟩ := bind_eq_ok_iff.mp h
    obtain ⟨y, hy, h⟩ := bind_eq_ok_iff.mp h
    obtain rfl := Except.ok.inj h
    exact (iha hx hp.1).enclosed (ihb hy hp.2) rfl (fun _ => rfl) rfl (.inr rfl)

end Params

/-- A line of a text that can be cut into tokens meets the condition, and so do the lines after
it. -/
def LineDemands (text : String) (P : Prop) : Prop :=
  ∀ rest ts, Spells (text.toList ++ '\n' :: rest) ts → P ∧ ∃ us, Spells rest us

theorem Demands.line {text : String} {cs : List Char} {P : Prop} (h : Demands cs P)
    (htext : text.toList = cs ++ [';']) : LineDemands text P := by
  intro rest ts hs
  rw [htext, List.append_assoc] at hs
  obtain ⟨hP, us, hus⟩ := h _ ts (ends_cons (by decide)) hs
  -- the semicolon and the end of the line are taken one after the other
  obtain ⟨-, vs, hvs⟩ := hus.uncons
  have hnext : Spells ('\n' :: rest) vs := hvs
  obtain ⟨-, ws, hws⟩ := hnext.uncons
  exact ⟨hP, ws, hws⟩

theorem LineDemands.mono {text : String} {P Q : Prop} (h : LineDemands text P) (hPQ : P → Q) :
    LineDemands text Q := fun rest ts hs => (h rest ts hs).imp_left hPQ

theorem LineDemands.of_spells {lines : List String} {line : String} {P : Prop} {ts : List Token}
    (h : LineDemands line P) (hmem : line ∈ lines)
    (hs : Spells (String.join (lines.map (· ++ "\n"))).toList ts)
    (hlines : ∀ line ∈ lines, LineDemands line True) : P := by
  induction lines generalizing ts with
  | nil => cases hmem
  | cons first lines ih =>
    obtain ⟨hfirst, hlines⟩ := List.forall_mem_cons.mp hlines
    have hjoin : (String.join ((first :: lines).map (· ++ "\n"))).toList =
        first.toList ++ '\n' :: (String.join (lines.map (· ++ "\n"))).toList := by
      simp [String.toList_join]
    rw [hjoin] at hs
    rcases List.mem_cons.mp hmem with rfl | hmem
    · exact (h _ _ hs).1
    · obtain ⟨-, us, hus⟩ := hfirst _ _ hs
      exact ih hmem hus hlines

theorem Demands.keyword (k : Keyword) : Demands k.text.toList True := by
  refine .word ?_
  cases k
  all_goals exact ⟨_, _, rfl, by decide, List.all_eq_true.mp rfl⟩

theorem lineDemands_header : LineDemands Version.v3.header True := by
  have hnumber : NumberText ['3', '.', '0'] true :=
    NumberText.decimal (List.cons_ne_nil '3' []) (by simp) (by simp)
  have hline := (Demands.keyword .openqasm).append (Demands.number hnumber).space (by decide)
  exact (hline.mono fun _ => trivial).line rfl

theorem lineDemands_library : LineDemands Version.v3.library True := by
  have hpath : '"' ∉ "stdgates.inc".toList := by decide
  have hstring : Demands ('"' :: ("stdgates.inc".toList ++ ['"'])) _ :=
    .lexeme fun rest _ => by simpa using head_string hpath rest
  have hline := (Demands.keyword .includeFile).append hstring.space (by decide)
  exact (hline.mono fun _ => trivial).line rfl

theorem demands_typed (k : Keyword) (n : ℕ) {name : List Char} (hname : IsName name) :
    Demands (k.text.toList ++ '[' :: ((toString n).toList ++ [']']) ++ ' ' :: name) True :=
  (((Demands.keyword k).brackets (.nat n)).append (Demands.name hname).space (by decide)).mono
    fun _ => trivial

theorem lineDemands_input {name : String} (h : IsName name.toList) :
    LineDemands s!"input float[64] {name};" True := by
  have hline := (Demands.keyword .input).append (demands_typed .float 64 h).space (by decide)
  exact (hline.mono fun _ => trivial).line (toList_inputLine name)

theorem lineDemands_registers {qubits clbits : ℕ} :
    ∀ line ∈ registerLines .v3 qubits clbits, LineDemands line True := by
  have hone : ∀ {n : ℕ} {line : String}, LineDemands line True →
      ∀ l ∈ (if n = 0 then [] else [line]), LineDemands l True := by
    intro n line h
    split
    · exact fun _ hmem => absurd hmem List.not_mem_nil
    · exact List.forall_mem_singleton.mpr h
  rw [registerLines]
  refine List.forall_mem_append.mpr ⟨hone ?_, hone ?_⟩
  · refine (demands_typed .qubit qubits isName_q).line ?_
    rw [String.toList_append, String.toList_append]
    simp only [List.append_assoc, List.cons_append]
    rfl
  · refine (demands_typed .bit clbits isName_c).line ?_
    rw [String.toList_append, String.toList_append]
    simp only [List.append_assoc, List.cons_append]
    rfl

theorem lineDemands_measure (q c : ℕ) : LineDemands (measureLine .v3 q c) True := by
  have hkeyword := (Demands.keyword .measure).append (Demands.qubit q).space (by decide)
  have hassigned := hkeyword.space.single (o := '=') fun _ => rfl
  refine (((Demands.clbit c).append hassigned.space (by decide)).mono fun _ => trivial).line ?_
  simp [measureLine, Keyword.text]

def BodyLine (F : Type) (text : String) : Prop :=
  ∃ ts s, Line text ts ∧ Sentence F ts s ∧ Acts s

theorem bodyLine_measure {F : Type} {q c : ℕ} (hq : q < Number.indexLimit)
    (hc : c < Number.indexLimit) : BodyLine F (measureLine .v3 q c) := by
  have hlimit : Number.indexLimit < integerLimit := by decide
  exact ⟨_, _, line_measure .v3 (hq.trans hlimit) (hc.trans hlimit),
    sentence_measure .v3 hq hc, .measure _ _⟩

section Gates

variable {names : List (ℕ × String)} {n : ℕ} {i : Instruction Float} {text : String}

theorem exists_of_gateLine (h : gateLine .v3 names i = .ok text) :
    ∃ name texts, Version.v3.table.native? i.tag = some name ∧
      i.gate.params.mapM (writeParam names) = .ok texts ∧
      text = (if i.gate.params.isEmpty then name ++ " "
        else name ++ "(" ++ String.intercalate ", " texts ++ ") ") ++
          String.intercalate ", " (i.qubits.map qubitText) ++ ";" := by
  rw [gateLine] at h
  split at h
  next => cases h
  next name hnative =>
    dsimp only at h
    split_ifs at h ⊢ with hempty
    · have hparams : i.gate.params.mapM (writeParam names) = .ok [] := by
        rw [List.isEmpty_iff.mp hempty]
        rfl
      exact ⟨name, [], hnative, hparams, (Except.ok.inj h).symm⟩
    · obtain ⟨texts, hparams, h⟩ := bind_eq_ok_iff.mp h
      exact ⟨name, texts, hnative, hparams, (Except.ok.inj h).symm⟩

theorem demands_operands (qubits : List ℕ) :
    Demands (String.intercalate ", " (qubits.map qubitText)).toList True := by
  refine (Demands.intercalate (P := fun _ => True) fun text hmem => ?_).mono fun _ => trivial
  obtain ⟨q, -, rfl⟩ := List.mem_map.mp hmem
  exact .qubit q

theorem demands_params (hnames : ∀ e ∈ names, IsName e.2.toList) {params : List (Param Float)}
    {texts : List String} (h : params.mapM (writeParam names) = .ok texts) :
    Demands (String.intercalate ", " texts).toList (∀ p ∈ params, NumbersReadBack p) := by
  have hwritten := mapM_eq_ok_iff.mp h
  have hlist : Demands (String.intercalate ", " texts).toList
      (∀ text ∈ texts, ∀ p, writeParam names p = .ok text → NumbersReadBack p) := by
    refine .intercalate fun text hmem rest ts hrest hs => ⟨fun p hp => ?_, ?_⟩
    · exact (demands_writeParam hnames hp rest ts hrest hs).1
    · obtain ⟨p, -, hp⟩ := exists_of_forall₂_right hwritten hmem
      exact (demands_writeParam hnames hp rest ts hrest hs).2
  refine hlist.mono fun hall p hp => ?_
  obtain ⟨text, hmem, htext⟩ := exists_of_forall₂_left hwritten hp
  exact hall text hmem p htext

theorem lineDemands_gate (hnames : ∀ e ∈ names, IsName e.2.toList) (hm : i.tag ≠ .measure)
    (h : gateLine .v3 names i = .ok text) :
    LineDemands text (∀ p ∈ i.gate.params, NumbersReadBack p) := by
  obtain ⟨name, texts, hnative, hparams, rfl⟩ := exists_of_gateLine h
  have hword : Demands name.toList True := .name (name_of_entry .v3 hnative hm).1
  have hoperands := demands_operands i.qubits
  split_ifs with hempty
  · rw [List.isEmpty_iff.mp hempty]
    refine ((hword.append hoperands.space (by decide)).mono fun _ => by simp).line ?_
    simp
  · have hcall := (demands_params hnames hparams).append
      (hoperands.space.single (o := ')') fun _ => rfl) (by decide)
    have hline := hword.append (hcall.single (o := '(') fun _ => rfl) (by decide)
    refine (hline.mono fun h => h.2.1).line ?_
    simp

theorem bodyLine_gate (hnames : ∀ e ∈ names, IsName e.2.toList) (hi : i.WellFormed n)
    (hn : n < Number.indexLimit) (hm : i.tag ≠ .measure) (h : gateLine .v3 names i = .ok text)
    (hp : ∀ p ∈ i.gate.params, NumbersReadBack p) : BodyLine Float text := by
  have hlimit : Number.indexLimit < integerLimit := by decide
  have hq : ∀ q ∈ i.qubits, q < Number.indexLimit := fun q hmem => (hi.lt q hmem).trans hn
  obtain ⟨name, texts, hnative, hparams, -⟩ := exists_of_gateLine h
  obtain ⟨hname, -, -, hpos⟩ := name_of_entry .v3 hnative hm
  have hne : i.qubits ≠ [] := by
    refine List.ne_nil_of_length_pos ?_
    rw [hi.length_eq, qubits_of_pos rfl hpos]
    exact hpos
  have hread : ∀ text ∈ texts, ∃ arg : List Token × Expression,
      Chunk text.toList arg.1 ∧ Derives .sum arg.1 arg.2 := by
    intro text hmem
    obtain ⟨p, hpmem, hwrite⟩ := exists_of_forall₂_right (mapM_eq_ok_iff.mp hparams) hmem
    obtain ⟨ts, hts, hoperand⟩ := isExpression_writeParam hnames hwrite (hp p hpmem)
    obtain ⟨e, he⟩ := hoperand.alone
    exact ⟨(ts, e), hts, .sumOf he⟩
  have : Nonempty (List Token × Expression) := ⟨([], .pi)⟩
  choose! f hf using hread
  have hchunks : List.Forall₂ (fun text ts => Chunk text.toList ts) texts
      ((texts.map f).map Prod.fst) := by
    rw [List.map_map, List.forall₂_map_right_iff, List.forall₂_same]
    exact fun text hmem => (hf text hmem).1
  obtain ⟨_, htext, hline⟩ := gateLine_line hnative hname hparams hchunks
    fun q hmem => (hq q hmem).trans hlimit
  obtain rfl := Except.ok.inj (h.symm.trans htext)
  refine ⟨_, _, hline, sentence_gate name ?_ hne hq, .gate _⟩
  intro arg harg
  obtain ⟨text, hmem, rfl⟩ := List.mem_map.mp harg
  exact (hf text hmem).2

end Gates

section Text

variable {F : Type} {names body : List String} {qubits clbits : ℕ}

/-- The lines of a program that declares inputs and registers in front of its body. -/
def declaringLines (names : List String) (qubits clbits : ℕ) (body : List String) : List String :=
  [Version.v3.header, Version.v3.library] ++ names.map (fun name => s!"input float[64] {name};") ++
    registerLines .v3 qubits clbits ++ body

def programText (names : List String) (qubits clbits : ℕ) (body : List String) : String :=
  String.join ((declaringLines names qubits clbits body).map (· ++ "\n"))

theorem exists_parse_programText (hnames : ∀ name ∈ names, IsName name.toList)
    (hq : qubits < Number.indexLimit) (hc : clbits < Number.indexLimit)
    (hbody : ∀ line ∈ body, BodyLine F line) :
    ∃ number acts, (∀ s ∈ acts, Acts s) ∧
      Program.parse (F := F) (programText names qubits clbits body) =
        .ok ⟨number, programStatements (libraryPath .v3) names qubits clbits acts⟩ := by
  have hlimit : Number.indexLimit < integerLimit := by decide
  have hread : ∀ line ∈ body, ∃ s : List Token × Statement,
      Line line s.1 ∧ Sentence F s.1 s.2 ∧ Acts s.2 := by
    intro line hline
    obtain ⟨ts, s, hs⟩ := hbody line hline
    exact ⟨(ts, s), hs⟩
  have : Nonempty (List Token × Statement) := ⟨([], .includeFile "")⟩
  choose! f hf using hread
  let sentences : List (List Token × Statement) :=
    (libraryTokens .v3, .includeFile (libraryPath .v3)) ::
      (names.map (fun name => (inputTokens name, .input name)) ++
        (registerSentences .v3 qubits clbits ++ body.map f))
  have hlines : List.Forall₂ Line (declaringLines names qubits clbits body)
      (headerTokens .v3 :: sentences.map Prod.fst) := by
    have hinputs : List.Forall₂ Line (names.map fun name => s!"input float[64] {name};")
        ((names.map fun name => (inputTokens name, Statement.input name)).map Prod.fst) := by
      rw [List.map_map, List.forall₂_map_left_iff, List.forall₂_map_right_iff, List.forall₂_same]
      exact fun name hname => line_input (hnames name hname)
    have hlast : List.Forall₂ Line body ((body.map f).map Prod.fst) := by
      rw [List.map_map, List.forall₂_map_right_iff, List.forall₂_same]
      exact fun line hline => (hf line hline).1
    have hregisters := lines_registers .v3 (hq.trans hlimit) (hc.trans hlimit)
    rw [declaringLines, List.append_assoc, List.append_assoc, List.map_cons, List.map_append,
      List.map_append]
    exact .cons (line_header .v3) (.cons (line_library .v3)
      (List.rel_append hinputs (List.rel_append hregisters hlast)))
  have hsentences : ∀ s ∈ sentences, Sentence F s.1 s.2 := by
    refine List.forall_mem_cons.mpr ⟨sentence_include _, List.forall_mem_append.mpr ⟨?_,
      List.forall_mem_append.mpr ⟨fun s hs => sentence_of_mem_registers hq hc hs, ?_⟩⟩⟩
    · exact List.forall_mem_map.mpr fun name _ => sentence_input name
    · exact List.forall_mem_map.mpr fun line hline => (hf line hline).2.1
  have hspells := spells_of_lines hlines
  rw [List.flatten_cons, ← List.flatMap_def] at hspells
  obtain ⟨number, hparse⟩ := parse_of_spells hspells hsentences
  refine ⟨number, (body.map f).map Prod.snd, ?_, hparse.trans ?_⟩
  · rw [List.map_map]
    exact List.forall_mem_map.mpr fun line hline => (hf line hline).2.2
  · rw [List.map_cons, List.map_append, List.map_append, snd_registerSentences, List.map_map]
    rfl

theorem parse_programText_eq_duplicate_iff [Scalar F]
    (hnames : ∀ name ∈ names, IsName name.toList) (hnodup : names.Nodup)
    (hq : qubits < Number.indexLimit) (hc : clbits < Number.indexLimit)
    (hbody : ∀ line ∈ body, BodyLine F line) {name : String} :
    parse (F := F) (programText names qubits clbits body) = .error (.duplicateDeclaration name) ↔
      names.find? (fun name => decide (name ∈ registerNames qubits clbits)) = some name := by
  obtain ⟨number, acts, hacts, hparse⟩ := exists_parse_programText hnames hq hc hbody
  rw [parse, hparse]
  exact toCircuit_eq_duplicate_iff hq hc number _ hnodup hacts

theorem lineDemands_declarations (hnames : ∀ name ∈ names, IsName name.toList)
    (hbody : ∀ line ∈ body, LineDemands line True) :
    ∀ line ∈ declaringLines names qubits clbits body, LineDemands line True := by
  refine List.forall_mem_append.mpr ⟨List.forall_mem_append.mpr ⟨List.forall_mem_append.mpr
    ⟨?_, ?_⟩, lineDemands_registers⟩, hbody⟩
  · exact List.forall_mem_cons.mpr
      ⟨lineDemands_header, List.forall_mem_singleton.mpr lineDemands_library⟩
  · exact List.forall_mem_map.mpr fun name hname => lineDemands_input (hnames name hname)

end Text

theorem isName_of_mem_registerNames {qubits clbits : ℕ} {name : String}
    (h : name ∈ registerNames qubits clbits) :
    IsName name.toList ∧ '_' ∉ name.toList := by
  have hname : name = "q" ∨ name = "c" := by
    unfold registerNames at h
    split_ifs at h <;> simp_all
  rcases hname with rfl | rfl
  · exact ⟨isName_q, by decide⟩
  · exact ⟨isName_c, by decide⟩

def inputNames {F : Type} [Scalar F] (c : Circuit F) : List String :=
  (nameInputs c.freeParameters).map Prod.snd

theorem isName_of_mem_inputNames {F : Type} [Scalar F] {c : Circuit F} {name : String}
    (h : name ∈ inputNames c) : IsName name.toList := by
  obtain ⟨entry, hentry, rfl⟩ := List.mem_map.mp h
  exact isName_of_mem_nameInputs hentry

theorem write_eq_ok_iff {F : Type} [Scalar F] [Numeral F] {c : Circuit F} {text : String} :
    write .v3 c = .ok text ↔
      ∃ body, c.instructions.mapM (instructionLines .v3 (nameInputs c.freeParameters)) = .ok body ∧
        text = programText (inputNames c) c.qubits c.clbits body.flatten := by
  have hmap : (nameInputs c.freeParameters).map (fun n => s!"input float[64] {n.2};") =
      (inputNames c).map fun name => s!"input float[64] {name};" := by
    rw [inputNames, List.map_map]
    rfl
  unfold write
  dsimp only
  rw [bind_eq_ok_iff, hmap]
  exact exists_congr fun body => and_congr_right' ⟨fun h => (Except.ok.inj h).symm,
    fun h => congrArg Except.ok h.symm⟩

/-- The numbers in the gates of a circuit are written as texts that read back. -/
def GatesReadBack (c : Circuit Float) : Prop :=
  ∀ i ∈ c.instructions, i.tag ≠ .measure → ∀ p ∈ i.gate.params, NumbersReadBack p

section Circuits

variable {c : Circuit Float} {body : List (List String)}

theorem mem_body_iff
    (h : c.instructions.mapM (instructionLines .v3 (nameInputs c.freeParameters)) = .ok body)
    {line : String} : line ∈ body.flatten ↔
      (∃ i ∈ c.instructions, i.tag = .measure ∧
        ∃ m ∈ i.qubits.zip i.clbits, line = measureLine .v3 m.1 m.2) ∨
      ∃ i ∈ c.instructions, i.tag ≠ .measure ∧
        gateLine .v3 (nameInputs c.freeParameters) i = .ok line := by
  have hmeasure : ∀ i : Instruction Float, i.isMeasure = true ↔ i.tag = .measure :=
    fun i => beq_iff_eq
  constructor
  · intro hline
    obtain ⟨i, hi, lines, hlines, hline⟩ := exists_of_mem_flatten h hline
    unfold instructionLines at hlines
    split_ifs at hlines with hm
    · obtain rfl := Except.ok.inj hlines
      obtain ⟨m, hmem, rfl⟩ := List.mem_map.mp hline
      exact .inl ⟨i, hi, (hmeasure i).mp hm, m, hmem, rfl⟩
    · obtain ⟨text, htext, hlines⟩ := bind_eq_ok_iff.mp hlines
      obtain rfl := Except.ok.inj hlines
      obtain rfl := List.mem_singleton.mp hline
      exact .inr ⟨i, hi, mt (hmeasure i).mpr hm, htext⟩
  · have hlines := mapM_eq_ok_iff.mp h
    rintro (⟨i, hi, hm, m, hmem, rfl⟩ | ⟨i, hi, hm, htext⟩)
    all_goals
      obtain ⟨lines, hmem', hwritten⟩ := exists_of_forall₂_left hlines hi
      refine List.mem_flatten.mpr ⟨lines, hmem', ?_⟩
      unfold instructionLines at hwritten
    · rw [if_pos ((hmeasure i).mpr hm)] at hwritten
      obtain rfl := Except.ok.inj hwritten
      exact List.mem_map.mpr ⟨m, hmem, rfl⟩
    · rw [if_neg (mt (hmeasure i).mp hm), htext] at hwritten
      obtain rfl := Except.ok.inj hwritten
      exact List.mem_singleton_self _

/-- A text that is cut into tokens has no number in it that does not read back. -/
theorem gatesReadBack_of_scan
    (h : c.instructions.mapM (instructionLines .v3 (nameInputs c.freeParameters)) = .ok body)
    {tokens : List Placed}
    (hscan : scan (programText (inputNames c) c.qubits c.clbits body.flatten) = .ok tokens) :
    GatesReadBack c := by
  have hnames : ∀ e ∈ nameInputs c.freeParameters, IsName e.2.toList :=
    fun _ => isName_of_mem_nameInputs
  have hbody : ∀ line ∈ body.flatten, LineDemands line True := by
    intro line hline
    obtain ⟨-, -, -, m, -, rfl⟩ | ⟨i, hi, hm, htext⟩ := (mem_body_iff h).mp hline
    · exact lineDemands_measure m.1 m.2
    · exact (lineDemands_gate hnames hm htext).mono fun _ => trivial
  intro i hi hm
  obtain ⟨lines, -, hlines⟩ := exists_of_forall₂_left (mapM_eq_ok_iff.mp h) hi
  have hmeasure : ¬ i.isMeasure = true := mt beq_iff_eq.mp hm
  rw [instructionLines, if_neg hmeasure] at hlines
  obtain ⟨text, htext, -⟩ := bind_eq_ok_iff.mp hlines
  refine (lineDemands_gate hnames hm htext).of_spells ?_ (spells_of_scanFrom hscan)
    (lineDemands_declarations (fun _ => isName_of_mem_inputNames) hbody)
  exact List.mem_append_right _ ((mem_body_iff h).mpr (.inr ⟨i, hi, hm, htext⟩))

theorem bodyLine_of_gatesReadBack (hw : c.WellFormed)
    (hbits : ∀ i ∈ c.instructions, ∀ b ∈ i.clbits, b < c.clbits)
    (hq : c.qubits < Number.indexLimit) (hc : c.clbits < Number.indexLimit)
    (h : c.instructions.mapM (instructionLines .v3 (nameInputs c.freeParameters)) = .ok body)
    (hread : GatesReadBack c) : ∀ line ∈ body.flatten, BodyLine Float line := by
  intro line hline
  obtain ⟨i, hi, -, m, hmem, rfl⟩ | ⟨i, hi, hm, htext⟩ := (mem_body_iff h).mp hline
  · obtain ⟨hqmem, hbmem⟩ := List.of_mem_zip (a := m.1) (b := m.2) hmem
    exact bodyLine_measure (((hw i hi).lt _ hqmem).trans hq) ((hbits i hi _ hbmem).trans hc)
  · exact bodyLine_gate (fun _ => isName_of_mem_nameInputs) (hw i hi) hq hm htext (hread i hi hm)

end Circuits

/-- The inputs of a written program have different names, each a single identifier. A register's
name is among them just when a free parameter has it. Then, and in no other case, the program is
refused for a name that is declared twice, the first such name. Only a number that does not read
back comes before that: the text is then not cut into tokens at all. -/
theorem parse_write_eq_duplicate_iff {c : Circuit Float} {text : String} (hw : c.WellFormed)
    (hbits : ∀ i ∈ c.instructions, ∀ b ∈ i.clbits, b < c.clbits)
    (hq : c.qubits < Number.indexLimit) (hc : c.clbits < Number.indexLimit)
    (h : write .v3 c = .ok text) :
    (inputNames c).Nodup ∧
      (∀ name ∈ inputNames c, ∃ placed, scan name = .ok placed ∧
        placed.map Placed.token = [.identifier name]) ∧
      (∀ name ∈ registerNames c.qubits c.clbits,
        name ∈ inputNames c ↔ ∃ r ∈ c.freeParameters, r.name = name) ∧
      (GatesReadBack c → ∃ p, Program.parse (F := Float) text = .ok p ∧
        p.inputs = inputNames c ∧ p.registers = registerNames c.qubits c.clbits) ∧
      ∀ name, parse (F := Float) text = .error (.duplicateDeclaration name) ↔
        GatesReadBack c ∧ (inputNames c).find?
          (fun name => decide (name ∈ registerNames c.qubits c.clbits)) = some name := by
  have hnames : ∀ name ∈ inputNames c, IsName name.toList := fun _ => isName_of_mem_inputNames
  obtain ⟨body, hbody, rfl⟩ := write_eq_ok_iff.mp h
  have hlines := bodyLine_of_gatesReadBack hw hbits hq hc hbody
  refine ⟨nodup_nameInputs _, fun name hname => ?_, fun name hname => ?_, fun hread => ?_,
    fun name => ⟨fun hdup => ?_, fun hclash => ?_⟩⟩
  · have hchunk := Chunk.name (hnames name hname)
    rw [String.ofList_toList] at hchunk
    exact hchunk.scan
  · obtain ⟨hname, hplain⟩ := isName_of_mem_registerNames hname
    exact mem_nameInputs_iff hname hplain
  · obtain ⟨number, acts, hacts, hparse⟩ := exists_parse_programText hnames hq hc (hlines hread)
    exact ⟨_, hparse, inputs_programStatements _ _ hacts, registers_programStatements _ _ hacts⟩
  · cases hscan : scan (programText (inputNames c) c.qubits c.clbits body.flatten) with
    | ok tokens =>
      have hread := gatesReadBack_of_scan hbody hscan
      exact ⟨hread, (parse_programText_eq_duplicate_iff hnames (nodup_nameInputs _) hq hc
        (hlines hread)).mp hdup⟩
    | error e =>
      rw [parse, Program.parse, hscan] at hdup
      cases hdup
  · exact (parse_programText_eq_duplicate_iff hnames (nodup_nameInputs _) hq hc
      (hlines hclash.1)).mpr hclash.2

/-- Two free parameters, of which the second is named like the classical register. -/
def sharedName : Circuit Float where
  qubits := 1
  clbits := 1
  instructions :=
    [⟨⟨.rx, [.add (.ref ⟨0, "2 θ"⟩) .pi], none⟩, [0], []⟩,
      ⟨⟨.ry, [.ref ⟨1, "c"⟩], none⟩, [0], []⟩, .measure 0 0]

theorem wellFormed_sharedName : sharedName.WellFormed := by
  have hone : QubitList 1 1 [0] := ⟨rfl, by decide, by decide⟩
  simp only [Circuit.WellFormed, sharedName, List.forall_mem_cons, List.not_mem_nil,
    false_imp_iff, implies_true, and_true]
  exact ⟨hone, hone, hone⟩

theorem parse_write_sharedName : inputNames sharedName = ["_2__", "c"] ∧
    (∃ r ∈ sharedName.freeParameters, r.name = "c") ∧
    ∃ text, write .v3 sharedName = .ok text ∧
      parse (F := Float) text = .error (.duplicateDeclaration "c") := by
  have hnames : inputNames sharedName = ["_2__", "c"] := rfl
  have hfind : (inputNames sharedName).find? (fun name =>
      decide (name ∈ registerNames sharedName.qubits sharedName.clbits)) = some "c" := rfl
  have hread : GatesReadBack sharedName := by
    simp only [GatesReadBack, sharedName, List.forall_mem_cons, List.not_mem_nil,
      false_imp_iff, implies_true, and_true]
    exact ⟨fun _ => ⟨trivial, trivial⟩, fun _ => trivial, fun hm => absurd rfl hm⟩
  have hwrite := write_eq_ok_iff.mpr ⟨[["rx((_2__ + pi)) q[0];"], ["ry(c) q[0];"],
    ["c[0] = measure q[0];"]], (rfl : sharedName.instructions.mapM _ = _), rfl⟩
  obtain ⟨-, -, hshared, -, hparse⟩ := parse_write_eq_duplicate_iff wellFormed_sharedName
    (by decide) (by decide) (by decide) hwrite
  exact ⟨hnames, (hshared "c" (by decide)).mp (by simp [hnames]), _, hwrite,
    (hparse "c").mpr ⟨hread, hfind⟩⟩

/-- A free parameter that is named like the quantum register. -/
def inputNamedQ : Circuit Float where
  qubits := 1
  clbits := 0
  instructions := [⟨⟨.rx, [.ref ⟨0, "q"⟩], none⟩, [0], []⟩]

theorem parse_inputNamedQ : ∃ text, write .v3 inputNamedQ = .ok text ∧
    parse (F := Float) text = .error (.duplicateDeclaration "q") := by
  have hw : inputNamedQ.WellFormed :=
    List.forall_mem_singleton.mpr ⟨rfl, by decide, by decide⟩
  have hread : GatesReadBack inputNamedQ :=
    List.forall_mem_singleton.mpr fun _ => List.forall_mem_singleton.mpr trivial
  have hbody : inputNamedQ.instructions.mapM (instructionLines .v3
      (nameInputs inputNamedQ.freeParameters)) = .ok [["rx(q) q[0];"]] := rfl
  have hfind : (inputNames inputNamedQ).find? (fun name =>
      decide (name ∈ registerNames inputNamedQ.qubits inputNamedQ.clbits)) = some "q" := rfl
  refine ⟨_, write_eq_ok_iff.mpr ⟨_, hbody, rfl⟩, ?_⟩
  exact (parse_programText_eq_duplicate_iff (fun _ => isName_of_mem_inputNames)
    (nodup_nameInputs _) (by decide) (by decide)
    (bodyLine_of_gatesReadBack hw (by decide) (by decide) (by decide) hbody hread)).mpr hfind

end Interchange.Qasm
