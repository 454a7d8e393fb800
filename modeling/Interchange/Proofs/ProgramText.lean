import Mathlib.Data.List.Forall2
import Interchange.Proofs.AngleText
import Interchange.Proofs.InputNames
import Interchange.Proofs.Outcome
import Interchange.Proofs.StatementReading

namespace Interchange.Qasm
open Lexeme Qasm.Parser

/-- A line of a text, whatever follows the end of the line. -/
def Line (text : String) (ts : List Token) : Prop :=
  ∀ rest us, Spells rest us → Spells (text.toList ++ '\n' :: rest) (ts ++ us)

theorem Chunk.line {text : String} {cs : List Char} {ts : List Token} (h : Chunk cs ts)
    (htext : text.toList = cs ++ [';']) : Line text (ts ++ [.symbol .semicolon]) := by
  intro rest us hs
  have hsemicolon : Spells (';' :: '\n' :: rest) (.symbol .semicolon :: us) :=
    .symbol rfl (.space (by decide) hs)
  simpa [htext] using h _ _ (ends_cons (by decide)) hsemicolon

theorem spells_of_lines {lines : List String} {tokens : List (List Token)}
    (h : List.Forall₂ Line lines tokens) :
    Spells (String.join (lines.map (· ++ "\n"))).toList tokens.flatten := by
  rw [String.toList_join]
  induction h with
  | nil => exact .nil
  | cons hline _ ih => simpa using hline _ _ ih

theorem Lexeme.head_string {body : List Char} (h : '"' ∉ body) (rest : List Char) :
    head '"' (body ++ '"' :: rest) =
      (.token (.string (String.ofList body)), body.length + 1) := by
  have hbody : (body ++ '"' :: rest).takeWhile (· != '"') = body :=
    takeWhile_append_stop (fun c hc => bne_iff_ne.mpr (ne_of_mem_of_not_mem hc h)) (by simp)
  have hspace : isSpace '"' = false := rfl
  have hword : startsWord '"' = false := rfl
  simp [head, hspace, hword, Char.isDigit, hbody]

theorem isName_q : IsName ['q'] := ⟨⟨'q', [], rfl, by decide, by simp⟩, by decide⟩

theorem isName_c : IsName ['c'] := ⟨⟨'c', [], rfl, by decide, by simp⟩, by decide⟩

namespace Chunk

theorem string {body : List Char} (h : '"' ∉ body) :
    Chunk ('"' :: (body ++ ['"'])) [.string (String.ofList body)] := by
  intro rest us _ hs
  have hdrop : (body ++ '"' :: rest).drop (body.length + 1) = rest := by simp
  rw [List.cons_append, List.append_assoc]
  exact .token (head_string h rest) (hdrop.symm ▸ hs)

theorem name {cs : List Char} (h : IsName cs) : Chunk cs [.identifier (String.ofList cs)] :=
  .word h.starts (by rw [ofWord, h.free])

theorem nat {n : ℕ} (hn : n < integerLimit) : Chunk (toString n).toList [.int n] :=
  (isNumeral_nat hn).chunk

theorem brackets {a b : List Char} {ts us : List Token} (ha : Chunk a ts) (hb : Chunk b us) :
    Chunk (a ++ '[' :: (b ++ [']'])) (ts ++ .symbol .lbracket :: (us ++ [.symbol .rbracket])) :=
  ha.append ((hb.append (nil.symbol fun _ => rfl) (by decide)).symbol fun _ => rfl) (by decide)

theorem intercalate {texts : List String} {tokens : List (List Token)}
    (h : List.Forall₂ (fun text ts => Chunk text.toList ts) texts tokens) :
    Chunk (String.intercalate ", " texts).toList (separated tokens) := by
  induction h with
  | nil => exact nil
  | cons hfirst hrest ih =>
    cases hrest with
    | nil => simpa [separated] using hfirst
    | cons hnext hmore =>
      have hcomma := hfirst.append (ih.space.symbol (o := ',') (s := .comma) fun _ => rfl)
        (by decide)
      rw [String.intercalate_cons_cons]
      simpa [separated] using hcomma

theorem keyword (k : Keyword) : Chunk k.text.toList [.keyword k] := by
  refine .word ?_ (by cases k <;> decide)
  cases k
  all_goals exact ⟨_, _, rfl, by decide, List.all_eq_true.mp rfl⟩

theorem arrow {b : List Char} {us : List Token} (h : Chunk b us) :
    Chunk ('-' :: '>' :: b) (.symbol .arrow :: us) :=
  fun rest vs hrest hs => .token (n := 1) rfl (h rest vs hrest hs)

theorem element {c : Char} {i : ℕ} (hc : IsName [c]) (hi : i < integerLimit) :
    Chunk (c :: '[' :: ((toString i).toList ++ [']']))
      (elementTokens (String.ofList [c]) i) :=
  (name hc).brackets (.nat hi)

theorem qubit {q : ℕ} (hq : q < integerLimit) :
    Chunk (qubitText q).toList (elementTokens "q" q) := by
  rw [qubitText, String.toList_append, String.toList_append, List.append_assoc]
  exact element isName_q hq

theorem clbit {c : ℕ} (hc : c < integerLimit) :
    Chunk (clbitText c).toList (elementTokens "c" c) := by
  rw [clbitText, String.toList_append, String.toList_append, List.append_assoc]
  exact element isName_c hc

end Chunk

theorem line_header (version : Version) : Line version.header (headerTokens version) := by
  have hnumber : ∀ d : Char, d.isDigit = true → NumberText [d, '.', '0'] true := by
    intro d hd
    refine NumberText.decimal (List.cons_ne_nil d []) (by simpa using hd) (by simp)
  have hline : ∀ {d : Char} {t : Token}, d.isDigit = true → ofNumber [d, '.', '0'] true = .token t →
      Chunk ("OPENQASM".toList ++ [' ', d, '.', '0']) [.keyword .openqasm, t] :=
    fun hd ht => (Chunk.keyword .openqasm).append (Chunk.number (hnumber _ hd) ht).space (by decide)
  cases version with
  | v2 => exact (hline (d := '2') (by decide) (by decide)).line rfl
  | v3 => exact (hline (d := '3') (by decide) (by decide)).line rfl

def libraryPath : Version → String
  | .v2 => "qelib1.inc"
  | .v3 => "stdgates.inc"

def libraryTokens (version : Version) : List Token :=
  [.keyword .includeFile, .string (libraryPath version), .symbol .semicolon]

theorem line_library (version : Version) : Line version.library (libraryTokens version) := by
  have hline : ∀ path : String, '"' ∉ path.toList →
      Chunk ("include".toList ++ ' ' :: '"' :: (path.toList ++ ['"']))
        [.keyword .includeFile, .string path] := by
    intro path h
    have hstring := (Chunk.keyword .includeFile).append (Chunk.string h).space (by decide)
    rwa [String.ofList_toList] at hstring
  cases version with
  | v2 => exact (hline "qelib1.inc" (by decide)).line rfl
  | v3 => exact (hline "stdgates.inc" (by decide)).line rfl

theorem toList_inputLine (name : String) : (s!"input float[64] {name};").toList =
    Keyword.input.text.toList ++ ' ' :: (Keyword.float.text.toList ++
      '[' :: ((toString 64).toList ++ [']']) ++ ' ' :: name.toList) ++ [';'] := by
  rw [String.toList_append, String.toList_append]
  simp only [List.append_assoc, List.cons_append]
  rfl

theorem line_input {name : String} (h : IsName name.toList) :
    Line s!"input float[64] {name};" (inputTokens name) := by
  have hname : Chunk name.toList [.identifier name] := by simpa using Chunk.name h
  have htype := (Chunk.keyword .float).brackets (.nat (n := 64) (by decide))
  have hline := (Chunk.keyword .input).append (htype.append hname.space (by decide)).space
    (by decide)
  exact hline.line (toList_inputLine name)

theorem chunk_named (k : Keyword) {c : Char} {n : ℕ} (hc : IsName [c]) (hn : n < integerLimit) :
    Chunk (k.text.toList ++ ' ' :: c :: '[' :: ((toString n).toList ++ [']']))
      (.keyword k :: elementTokens (String.ofList [c]) n) :=
  (Chunk.keyword k).append (Chunk.element hc hn).space (by decide)

theorem chunk_typed (k : Keyword) {c : Char} {n : ℕ} (hc : IsName [c]) (hn : n < integerLimit) :
    Chunk (k.text.toList ++ '[' :: ((toString n).toList ++ [']']) ++ [' ', c])
      [.keyword k, .symbol .lbracket, .int n, .symbol .rbracket,
        .identifier (String.ofList [c])] :=
  ((Chunk.keyword k).brackets (.nat hn)).append (Chunk.name hc).space (by decide)

theorem lines_registers (version : Version) {qubits clbits : ℕ} (hq : qubits < integerLimit)
    (hc : clbits < integerLimit) : List.Forall₂ Line (registerLines version qubits clbits)
      ((registerSentences version qubits clbits).map Prod.fst) := by
  have hone : ∀ {n : ℕ} {line : String} {s : List Token × Statement}, Line line s.1 →
      List.Forall₂ Line (if n = 0 then [] else [line])
        ((if n = 0 then [] else [s]).map Prod.fst) := by
    intro n line s h
    split
    · exact .nil
    · exact .cons h .nil
  rw [registerSentences, List.map_append]
  refine List.rel_append (hone ?_) (hone ?_)
  · cases version with
    | v2 =>
      refine (chunk_named .qreg isName_q hq).line ?_
      rw [String.toList_append, String.toList_append]
      simp only [List.append_assoc, List.cons_append]
      rfl
    | v3 =>
      refine (chunk_typed .qubit isName_q hq).line ?_
      rw [String.toList_append, String.toList_append]
      simp only [List.append_assoc, List.cons_append]
      rfl
  · cases version with
    | v2 =>
      refine (chunk_named .creg isName_c hc).line ?_
      rw [String.toList_append, String.toList_append]
      simp only [List.append_assoc, List.cons_append]
      rfl
    | v3 =>
      refine (chunk_typed .bit isName_c hc).line ?_
      rw [String.toList_append, String.toList_append]
      simp only [List.append_assoc, List.cons_append]
      rfl

theorem line_measure (version : Version) {q c : ℕ} (hq : q < integerLimit)
    (hc : c < integerLimit) : Line (measureLine version q c) (measureTokens version q c) := by
  cases version with
  | v2 =>
    have hbit := (Chunk.clbit hc).space.arrow.space
    have hchunk := (Chunk.keyword .measure).append ((Chunk.qubit hq).append hbit (by decide)).space
      (by decide)
    refine hchunk.line ?_
    simp [measureLine, Keyword.text]
  | v3 =>
    have hkeyword := (Chunk.keyword .measure).append (Chunk.qubit hq).space (by decide)
    have hassigned := hkeyword.space.symbol (o := '=') (s := .eq) fun _ => rfl
    have hchunk := (Chunk.clbit hc).append hassigned.space (by decide)
    refine hchunk.line ?_
    simp [measureLine, Keyword.text]

theorem chunk_elements {qubits : List ℕ} (hq : ∀ q ∈ qubits, q < integerLimit) :
    Chunk (String.intercalate ", " (qubits.map qubitText)).toList (elementsTokens "q" qubits) := by
  refine .intercalate ?_
  rw [List.forall₂_map_left_iff, List.forall₂_map_right_iff, List.forall₂_same]
  exact fun q hmem => .qubit (hq q hmem)

section

variable {F : Type} [Scalar F] [Numeral F]

/-- A gate is written as its name, its parameters in parentheses and its qubits. -/
theorem gateLine_line {version : Version} {names : List (ℕ × String)} {i : Instruction F}
    {name : String} {texts : List String} {tokens : List (List Token)}
    (hnative : version.table.native? i.tag = some name) (hname : IsName name.toList)
    (hparams : i.gate.params.mapM (writeParam names) = .ok texts)
    (hchunks : List.Forall₂ (fun text ts => Chunk text.toList ts) texts tokens)
    (hq : ∀ q ∈ i.qubits, q < integerLimit) :
    ∃ text, gateLine version names i = .ok text ∧
      Line text (.identifier name :: callTokens tokens i.qubits) := by
  have hn : Chunk name.toList [.identifier name] := by
    simpa using Chunk.name hname
  let operands := String.intercalate ", " (i.qubits.map qubitText)
  have helements : Chunk operands.toList (elementsTokens "q" i.qubits) := chunk_elements hq
  have hforall := mapM_eq_ok_iff.mp hparams
  rw [gateLine, hnative]
  dsimp only
  cases hchunks with
  | nil =>
    rw [List.forall₂_nil_right_iff.mp hforall]
    refine ⟨_, rfl, ?_⟩
    have hline : Line (name ++ " " ++ operands ++ ";") _ :=
      (hn.append helements.space (by decide)).line (by simp [operands])
    simpa [callTokens] using hline
  | @cons text ts texts tokens hfirst hrest =>
    have hne : i.gate.params.isEmpty = false := by
      obtain ⟨p, ps, -, -, hps⟩ := List.forall₂_cons_right_iff.mp hforall
      rw [hps]
      rfl
    rw [hne, if_neg Bool.false_ne_true, hparams]
    refine ⟨_, rfl, ?_⟩
    have hlist := (Chunk.intercalate (.cons hfirst hrest)).append
      (helements.space.symbol (o := ')') (s := .rparen) fun _ => rfl) (by decide)
    have hline : Line (name ++ "(" ++ String.intercalate ", " (text :: texts) ++ ") " ++ operands ++
        ";") _ :=
      (hn.append (hlist.symbol (o := '(') (s := .lparen) fun _ => rfl) (by decide)).line
        (by simp [operands])
    simpa [callTokens] using hline

end

end Interchange.Qasm
