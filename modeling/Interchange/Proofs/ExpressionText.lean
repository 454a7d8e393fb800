import Mathlib.Data.List.TakeWhile
import Interchange.Param.Parser
import Interchange.Param.Printer
import Interchange.Proofs.AngleReading
import Interchange.Proofs.DoubleValue
import Interchange.Proofs.NumericGate
import Interchange.Proofs.SettledParam

namespace Interchange

namespace Text

theorem inRanges_eq_false {ranges : Array (ℕ × ℕ)} (low high : ℕ)
    (h : ranges.toList.all (fun r => decide (r.2 < low ∨ high < r.1)) = true) {c : Char}
    (hlow : low ≤ c.toNat) (hhigh : c.toNat ≤ high) : inRanges ranges c = false := by
  rw [inRanges, ← Array.any_toList, List.any_eq_false]
  intro r hr hin
  have hgap : r.2 < low ∨ high < r.1 := by simpa using List.all_eq_true.mp h r hr
  have hin := of_decide_eq_true hin
  omega

theorem isBlank_eq_false {c : Char} (hlow : 33 ≤ c.toNat) (hhigh : c.toNat ≤ 126) :
    isBlank c = false :=
  inRanges_eq_false 33 126 (by decide +kernel) hlow hhigh

end Text

namespace Param.Token
open Number (Decimal)
open Qasm.Lexeme (NumberText)

/-- What may follow a name or a number without becoming part of it. -/
def Stops (rest : List Char) : Prop := ∀ c ∈ rest.head?, c = ' ' ∨ c = ')'

theorem stops_nil : Stops [] := by rintro _ ⟨⟩

theorem stops_cons {c : Char} (h : c = ' ' ∨ c = ')') (rest : List Char) : Stops (c :: rest) := by
  rintro _ ⟨⟩
  exact h

theorem toNat_of_isAlpha {c : Char} (h : c.isAlpha = true) : 65 ≤ c.toNat ∧ c.toNat ≤ 122 := by
  have hupper : 'A'.toNat = 65 ∧ 'Z'.toNat = 90 := ⟨rfl, rfl⟩
  have hlower : 'a'.toNat = 97 ∧ 'z'.toNat = 122 := ⟨rfl, rfl⟩
  rcases Bool.or_eq_true_iff.mp h with hu | hl
  · have hge : 'A'.toNat ≤ c.toNat := (of_decide_eq_true hu).1
    have hle : c.toNat ≤ 'Z'.toNat := (of_decide_eq_true hu).2
    omega
  · have hge : 'a'.toNat ≤ c.toNat := of_decide_eq_true (Bool.and_eq_true_iff.mp hl).1
    have hle : c.toNat ≤ 'z'.toNat := of_decide_eq_true (Bool.and_eq_true_iff.mp hl).2
    omega

theorem continuesName_of_toNat_le {c : Char} (h : c.toNat ≤ 47) : continuesName c = false := by
  have hletter : Text.inRanges Text.letterRanges c = false :=
    Text.inRanges_eq_false 0 47 (by decide +kernel) (Nat.zero_le _) h
  have hnumeric : Text.inRanges Text.numericRanges c = false :=
    Text.inRanges_eq_false 0 47 (by decide +kernel) (Nat.zero_le _) h
  have halpha : c.isAlpha = false := by
    refine Bool.eq_false_iff.mpr fun halpha => ?_
    have := (toNat_of_isAlpha halpha).1
    omega
  have hdigit : c.isDigit = false := by
    refine Bool.eq_false_iff.mpr fun hdigit => ?_
    have : 48 ≤ c.toNat := (Char.isDigit_iff_toNat.mp hdigit).1
    omega
  have hmark : ∀ d : Char, 47 < d.toNat → (c == d) = false := by
    intro d hd
    refine beq_false_of_ne ?_
    rintro rfl
    omega
  rw [continuesName, Text.isLetterOrNumeric, Text.isLetter, Text.isNumeric, hletter, hnumeric,
    halpha, hdigit, hmark '_' (by decide), hmark '[' (by decide), hmark ']' (by decide)]
  rfl

theorem continuesName_of_stops {c : Char} (h : c = ' ' ∨ c = ')') : continuesName c = false :=
  continuesName_of_toNat_le (by rcases h with rfl | rfl <;> decide)

/-- The tokens of a text end where it ends, unless what follows goes on with the last one. -/
def Chunk (text : List Char) (ts : List Token) : Prop :=
  ∀ rest, Stops rest → scan (text ++ rest) = (scan rest).map (ts ++ ·)

theorem scan_space (cs : List Char) : scan (' ' :: cs) = scan cs := by
  rw [scan, if_pos (by decide +kernel)]

theorem scan_punctuation {c : Char} {t : Token} (h : ofPunctuation? c = some t) (cs : List Char) :
    scan (c :: cs) = (scan cs).map (t :: ·) := by
  have hblank : Text.isBlank c = false := by
    unfold ofPunctuation? at h
    split at h <;> first | exact Text.isBlank_eq_false (by decide) (by decide) | cases h
  rw [scan, if_neg (Bool.eq_false_iff.mp hblank), h]

theorem ofPunctuation?_of_isDigit {c : Char} (h : c.isDigit = true) : ofPunctuation? c = none := by
  unfold ofPunctuation?
  split <;> first | rfl | exact absurd h (by decide)

theorem spanNumber_append {w rest : List Char} (hw : ∀ c ∈ w, c.isDigit = true ∨ c = '.')
    (hr : Stops rest) (previous : Char) : spanNumber previous (w ++ rest) = (w, rest) := by
  induction w generalizing previous with
  | nil =>
    cases rest with
    | nil => rfl
    | cons c rest =>
      rw [List.nil_append, spanNumber]
      rcases hr c rfl with rfl | rfl <;> simp [Char.isDigit]
  | cons c w ih =>
    obtain ⟨hc, hw⟩ := List.forall_mem_cons.mp hw
    rw [List.cons_append, spanNumber, ih hw c, if_pos]
    rcases hc with hc | rfl
    · simp [hc]
    · simp

theorem digit_or_point_of_numberText {w : List Char} {isFloat : Bool} (h : NumberText w isFloat) :
    ∀ c ∈ w, c.isDigit = true ∨ c = '.' := by
  cases h with
  | int hne hd => exact fun c hc => .inl (hd c hc)
  | @decimal whole fraction hne hd hf =>
    intro c hc
    rcases List.mem_append.mp hc with hc | hc
    · exact .inl (hd c hc)
    · exact (List.mem_cons.mp hc).elim .inr fun hc => .inl (hf c hc)

theorem dropWhile_append_stop {p : Char → Bool} {w rest : List Char} (hw : ∀ c ∈ w, p c = true)
    (hr : ∀ c ∈ rest.head?, p c = false) : (w ++ rest).dropWhile p = rest := by
  rw [List.dropWhile_append_of_pos hw]
  cases rest with
  | nil => rfl
  | cons c rest => rw [List.dropWhile_cons_of_neg (by simp [hr c rfl])]

theorem spanDigits_append {w rest : List Char} (hw : ∀ c ∈ w, c.isDigit = true)
    (hr : ∀ c ∈ rest.head?, c.isDigit = false) : Number.spanDigits (w ++ rest) = (w, rest) := by
  rw [Number.spanDigits, Qasm.takeWhile_append_stop hw hr, dropWhile_append_stop hw hr]

theorem spanDigits_of_digits {w : List Char} (hw : ∀ c ∈ w, c.isDigit = true) :
    Number.spanDigits w = (w, []) := by
  have h : Number.spanDigits (w ++ []) = (w, []) := spanDigits_append hw (by rintro _ ⟨⟩)
  rwa [List.append_nil] at h

theorem exists_read_of_numberText {w : List Char} {isFloat : Bool} (h : NumberText w isFloat) :
    ∃ d, Decimal.read? w = some d := by
  cases h with
  | int hne hd => simp [Decimal.read?, spanDigits_of_digits hd, hne, Number.readExponent?]
  | @decimal whole fraction hne hd hf =>
    have hspan : Number.spanDigits (whole ++ '.' :: fraction) = (whole, '.' :: fraction) :=
      spanDigits_append hd (by rintro _ ⟨⟩; rfl)
    simp [Decimal.read?, hspan, spanDigits_of_digits hf, hne, Number.readExponent?]

theorem chunk_number {w : List Char} {isFloat : Bool} {d : Decimal} (h : NumberText w isFloat)
    (hd : Decimal.read? w = some d) : Chunk w [.number d] := by
  intro rest hr
  obtain ⟨c, tail, rfl, hc⟩ := h.head
  obtain ⟨hge, hle⟩ : 48 ≤ c.toNat ∧ c.toNat ≤ 57 := Char.isDigit_iff_toNat.mp hc
  have hblank : Text.isBlank c = false := Text.isBlank_eq_false (by omega) (by omega)
  have hspan : spanNumber c (tail ++ rest) = (tail, rest) :=
    spanNumber_append (fun d hd => digit_or_point_of_numberText h d (List.mem_cons_of_mem c hd))
      hr c
  rw [List.cons_append, scan, if_neg (Bool.eq_false_iff.mp hblank), ofPunctuation?_of_isDigit hc]
  simp [startsNumber, hc, hspan, hd]

/-- What a name is made of. Its first character starts no other token. -/
structure NameText (c : Char) (tail : List Char) : Prop where
  blank : Text.isBlank c = false
  punctuation : ofPunctuation? c = none
  number : startsNumber c = false
  start : startsName c = true
  tail : ∀ d ∈ tail, continuesName d = true

theorem NameText.scan_append {c : Char} {tail rest : List Char} (h : NameText c tail)
    (hr : ∀ d ∈ rest.head?, continuesName d = false) :
    scan (c :: tail ++ rest) = (scan rest).map (.name (String.ofList (c :: tail)) :: ·) := by
  rw [List.cons_append, scan, if_neg (Bool.eq_false_iff.mp h.blank), h.punctuation]
  simp [h.number, h.start, Qasm.takeWhile_append_stop h.tail hr, dropWhile_append_stop h.tail hr]

/-- A name among the tokens of a text has the shape of a name. -/
theorem exists_nameText_of_mem_scan {text : List Char} {ts : List Token} (h : scan text = .ok ts)
    {word : String} (hw : .name word ∈ ts) :
    ∃ c tail, word = String.ofList (c :: tail) ∧ NameText c tail := by
  have hmap : ∀ {r : Except ExpressionFault (List Token)} {t : Token} {us : List Token},
      r.map (t :: ·) = .ok us → ∃ vs, r = .ok vs ∧ us = t :: vs := by
    rintro (e | vs) t us hus
    · cases hus
    · exact ⟨vs, rfl, (Except.ok.inj hus).symm⟩
  fun_induction scan text generalizing ts with
  | case1 =>
    obtain rfl := Except.ok.inj h
    cases hw
  | case2 c cs hblank ih => exact ih h hw
  | case3 c cs hblank token hpunctuation ih =>
    obtain ⟨vs, hvs, rfl⟩ := hmap h
    rcases List.mem_cons.mp hw with rfl | hw
    · unfold ofPunctuation? at hpunctuation
      split at hpunctuation <;> cases hpunctuation
    · exact ih hvs hw
  | case4 => cases h
  | case5 c cs hblank hpunctuation hnumber literal value hvalue =>
    rename_i ih
    obtain ⟨vs, hvs, rfl⟩ := hmap h
    rcases List.mem_cons.mp hw with hw | hw
    · cases hw
    · exact ih hvs hw
  | case6 c cs hblank hpunctuation hnumber hname text =>
    rename_i ih
    obtain ⟨vs, hvs, rfl⟩ := hmap h
    rcases List.mem_cons.mp hw with hw | hw
    · refine ⟨c, cs.takeWhile continuesName, Token.name.inj hw, ?_⟩
      exact ⟨Bool.eq_false_iff.mpr hblank, hpunctuation, Bool.eq_false_iff.mpr hnumber, hname,
        fun d hd => List.mem_takeWhile_imp hd⟩
    · exact ih hvs hw
  | case7 => cases h

def IsIdentifier (text : String) : Prop := scan text.toList = .ok [.name text]

theorem isIdentifier_iff {text : String} : IsIdentifier text ↔
    ∃ c tail, text = String.ofList (c :: tail) ∧ NameText c tail := by
  constructor
  · intro h
    exact exists_nameText_of_mem_scan h List.mem_cons_self
  · rintro ⟨c, tail, rfl, h⟩
    have hscan : scan (c :: tail ++ []) = _ := h.scan_append (by rintro _ ⟨⟩)
    rw [List.append_nil, scan] at hscan
    rw [IsIdentifier, String.toList_ofList, hscan]
    rfl

/-- A word of plain letters, digits and underscores is a name unless it starts with a digit. -/
theorem isIdentifier_of_word (c : Char) (tail : List Char)
    (h : (Qasm.Lexeme.startsWord c && tail.all Qasm.Lexeme.continuesWord) = true) :
    IsIdentifier (String.ofList (c :: tail)) := by
  obtain ⟨hc, htail⟩ := Bool.and_eq_true_iff.mp h
  have hrange : 65 ≤ c.toNat ∧ c.toNat ≤ 122 := by
    rcases Bool.or_eq_true_iff.mp hc with hc | hc
    · exact toNat_of_isAlpha hc
    · rw [beq_iff_eq.mp hc]
      decide
  have hdigit : c.isDigit = false := by
    refine Bool.eq_false_iff.mpr fun hd => ?_
    have hnine : c.toNat ≤ 57 := (Char.isDigit_iff_toNat.mp hd).2
    omega
  have hpoint : (c == '.') = false := beq_false_of_ne (by rintro rfl; revert hrange; decide)
  refine isIdentifier_iff.mpr ⟨c, tail, rfl, ?_⟩
  refine ⟨Text.isBlank_eq_false (by omega) (by omega), ?_, ?_, ?_, ?_⟩
  · unfold ofPunctuation?
    split <;> first | rfl | exact absurd hc (by decide)
  · rw [startsNumber, hdigit, hpoint]
    rfl
  · rcases Bool.or_eq_true_iff.mp hc with hc | hc <;> simp [startsName, Text.isLetter, hc]
  · intro d hd
    have hd := List.all_eq_true.mp htail d hd
    rw [Qasm.Lexeme.continuesWord, Char.isAlphanum, Bool.or_eq_true, Bool.or_eq_true] at hd
    rcases hd with (hd | hd) | hd <;>
      simp [continuesName, Text.isLetterOrNumeric, Text.isLetter, Text.isNumeric, hd]

theorem IsIdentifier.chunk {text : String} (h : IsIdentifier text) :
    Chunk text.toList [.name text] := by
  intro rest hr
  obtain ⟨c, tail, rfl, hname⟩ := isIdentifier_iff.mp h
  rw [String.toList_ofList, hname.scan_append fun d hd => continuesName_of_stops (hr d hd)]
  rfl

namespace Chunk

variable {a b : List Char} {ts us : List Token}

theorem punctuation {c : Char} {t : Token} (h : ofPunctuation? c = some t) (ha : Chunk a ts) :
    Chunk (c :: a) (t :: ts) := by
  intro rest hr
  rw [List.cons_append, scan_punctuation h, ha rest hr]
  cases scan rest <;> rfl

theorem parens (ha : Chunk a ts) : Chunk ('(' :: (a ++ [')'])) (.lparen :: (ts ++ [.rparen])) := by
  refine punctuation rfl fun rest hr => ?_
  rw [List.append_assoc, List.singleton_append, ha _ (stops_cons (.inr rfl) rest),
    scan_punctuation (t := .rparen) rfl]
  cases scan rest <;> simp [Except.map]

theorem operator {c : Char} {t : Token} (h : ofPunctuation? c = some t) (ha : Chunk a ts)
    (hb : Chunk b us) : Chunk (a ++ ' ' :: c :: ' ' :: b) (ts ++ t :: us) := by
  intro rest hr
  rw [List.append_assoc, List.cons_append, ha _ (stops_cons (.inl rfl) _), scan_space,
    List.cons_append, scan_punctuation h, List.cons_append, scan_space, hb rest hr]
  cases scan rest <;> simp [Except.map]

end Chunk

end Param.Token

namespace Param

section Parser

variable {F : Type} {a b q : Param F} {ts us mid rest : List Token}

/-- An attempt reads an expression and leaves the rest. -/
def Yields {n : ℕ} (attempt : Attempt (Param F) n) (q : Param F) (rest : List Token) : Prop :=
  ∃ h, attempt = .ok ⟨q, rest, h⟩

theorem Yields.bind {m n : ℕ} {x : Attempt (Param F) m}
    {f : Parsed Token (Param F) m → Attempt (Param F) n} (h : Yields x a mid)
    (hf : ∀ hlt, Yields (f ⟨a, mid, hlt⟩) q rest) : Yields (x >>= f) q rest := by
  obtain ⟨hlt, rfl⟩ := h
  exact hf hlt

variable [Scalar F] {handle : String → Handle}

theorem yields_sum (h : Yields (parseProduct handle ts) a mid)
    (ht : Yields (parseSumTail handle a mid) q rest) : Yields (parseSum handle ts) q rest := by
  rw [parseSum]
  exact h.bind fun _ => ht.bind fun _ => ⟨_, rfl⟩

theorem yields_product (h : Yields (parseUnary handle ts) a mid)
    (ht : Yields (parseProductTail handle a mid) q rest) :
    Yields (parseProduct handle ts) q rest := by
  rw [parseProduct]
  exact h.bind fun _ => ht.bind fun _ => ⟨_, rfl⟩

/-! ### After an operand: an operator, or none -/

theorem yields_plus (h : Yields (parseProduct handle ts) b mid)
    (ht : Yields (parseSumTail handle (.add a b) mid) q rest) :
    Yields (parseSumTail handle a (.plus :: ts)) q rest := by
  rw [parseSumTail]
  exact h.bind fun _ => ht.bind fun _ => ⟨_, rfl⟩

theorem yields_minus (h : Yields (parseProduct handle ts) b mid)
    (ht : Yields (parseSumTail handle (.sub a b) mid) q rest) :
    Yields (parseSumTail handle a (.minus :: ts)) q rest := by
  rw [parseSumTail]
  exact h.bind fun _ => ht.bind fun _ => ⟨_, rfl⟩

theorem yields_star (h : Yields (parseUnary handle ts) b mid)
    (ht : Yields (parseProductTail handle (.mul a b) mid) q rest) :
    Yields (parseProductTail handle a (.star :: ts)) q rest := by
  rw [parseProductTail]
  exact h.bind fun _ => ht.bind fun _ => ⟨_, rfl⟩

theorem yields_slash (h : Yields (parseUnary handle ts) b mid)
    (ht : Yields (parseProductTail handle (.div a b) mid) q rest) :
    Yields (parseProductTail handle a (.slash :: ts)) q rest := by
  rw [parseProductTail]
  exact h.bind fun _ => ht.bind fun _ => ⟨_, rfl⟩

theorem yields_sumTail_stop (h : ∀ t ∈ ts.head?, t ≠ .plus ∧ t ≠ .minus) :
    Yields (parseSumTail handle a ts) a ts := by
  rw [parseSumTail.eq_def]
  split
  next => exact absurd rfl (h _ rfl).1
  next => exact absurd rfl (h _ rfl).2
  next => exact ⟨_, rfl⟩

theorem yields_productTail_stop (h : ∀ t ∈ ts.head?, t ≠ .star ∧ t ≠ .slash) :
    Yields (parseProductTail handle a ts) a ts := by
  rw [parseProductTail.eq_def]
  split
  next => exact absurd rfl (h _ rfl).1
  next => exact absurd rfl (h _ rfl).2
  next => exact ⟨_, rfl⟩

def Operand (handle : String → Handle) (ts : List Token) (q : Param F) : Prop :=
  ∀ rest, Yields (parseUnary handle (ts ++ rest)) q rest

def Enclosed (handle : String → Handle) (ts : List Token) (q : Param F) : Prop :=
  ∀ rest, Yields (parseSum handle (ts ++ .rparen :: rest)) q (.rparen :: rest)

namespace Operand

theorem number (d : Number.Decimal) :
    Operand handle [.number d] (.const (Scalar.ofDecimal d) : Param F) := by
  intro rest
  rw [List.singleton_append, parseUnary, parseAtom]
  · exact ⟨_, rfl⟩
  all_goals simp

theorem name (text : String) :
    Operand handle [.name text]
      (if Token.isPi text then .pi else .ref (handle text) : Param F) := by
  intro rest
  rw [List.singleton_append, parseUnary, parseAtom]
  · exact ⟨_, rfl⟩
  all_goals simp

theorem negated (h : Operand handle ts q) : Operand handle (.minus :: ts) (.neg q) := by
  intro rest
  rw [List.cons_append, parseUnary]
  exact (h rest).bind fun _ => ⟨_, rfl⟩

theorem of_enclosed (h : Enclosed handle ts q) :
    Operand handle (.lparen :: (ts ++ [.rparen])) q := by
  intro rest
  rw [List.cons_append, List.append_assoc, List.singleton_append, parseUnary, parseAtom]
  · exact (h rest).bind fun _ => ⟨_, rfl⟩
  all_goals simp

theorem product (h : Operand handle ts q) (hmid : ∀ t ∈ mid.head?, t ≠ .star ∧ t ≠ .slash) :
    Yields (parseProduct handle (ts ++ mid)) q mid :=
  yields_product (h mid) (yields_productTail_stop hmid)

/-! ### The forms between parentheses -/

theorem enclosed (h : Operand handle ts q) : Enclosed handle ts q :=
  fun _ => yields_sum (h.product (by simp)) (yields_sumTail_stop (by simp))

theorem enclosed_add (ha : Operand handle ts a) (hb : Operand handle us b) :
    Enclosed handle (ts ++ .plus :: us) (.add a b) := by
  intro rest
  rw [List.append_assoc]
  exact yields_sum (ha.product (by simp))
    (yields_plus (hb.product (by simp)) (yields_sumTail_stop (by simp)))

theorem enclosed_sub (ha : Operand handle ts a) (hb : Operand handle us b) :
    Enclosed handle (ts ++ .minus :: us) (.sub a b) := by
  intro rest
  rw [List.append_assoc]
  exact yields_sum (ha.product (by simp))
    (yields_minus (hb.product (by simp)) (yields_sumTail_stop (by simp)))

theorem enclosed_mul (ha : Operand handle ts a) (hb : Operand handle us b) :
    Enclosed handle (ts ++ .star :: us) (.mul a b) := by
  intro rest
  rw [List.append_assoc]
  refine yields_sum (yields_product (ha _) ?_) (yields_sumTail_stop (by simp))
  exact yields_star (hb _) (yields_productTail_stop (by simp))

theorem enclosed_div (ha : Operand handle ts a) (hb : Operand handle us b) :
    Enclosed handle (ts ++ .slash :: us) (.div a b) := by
  intro rest
  rw [List.append_assoc]
  refine yields_sum (yields_product (ha _) ?_) (yields_sumTail_stop (by simp))
  exact yields_slash (hb _) (yields_productTail_stop (by simp))

end Operand

end Parser

def names {F : Type} : Param F → List String
  | const _ | pi => []
  | ref r => [r.name]
  | neg e => e.names
  | add a b | sub a b | mul a b | div a b => a.names ++ b.names

end Param

namespace Number

/-- The text of a number is read as the same number. -/
def ReadsBack (x : Float) : Prop :=
  (Decimal.read? (plain.write x).toList).map Decimal.toDouble = some x

instance (x : Float) : Decidable (ReadsBack x) := inferInstanceAs (Decidable (_ = _))

/-- What the digits of a number are read as. -/
def reread (x : Float) : Float :=
  ((Decimal.read? (plain.magnitude (.ofBits x.toBits))).map Decimal.toDouble).getD 0

theorem readsBack_abs_iff {x : Float} (h : x.isFinite = true) :
    ReadsBack x.abs ↔ (Decimal.read? (plain.magnitude (.ofBits x.toBits))).map Decimal.toDouble =
      some x.abs := by
  rw [ReadsBack, toList_write (isFinite_abs h), isNegative_abs h, if_neg Bool.false_ne_true,
    ofBits_abs h]

theorem reread_of_readsBack {x : Float} (h : x.isFinite = true) (hx : ReadsBack x.abs) :
    reread x = x.abs := by
  rw [reread, (readsBack_abs_iff h).mp hx, Option.getD_some]

end Number

namespace Param
open Number Token

/-- The words in the text of an expression that are read as names. A number that is not finite is
written as such a word. -/
def words : Param Float → List String
  | const v => if v.isFinite then [] else if v.isNaN then ["NaN"] else ["inf"]
  | pi => []
  | ref r => [r.name]
  | neg e => e.words
  | add a b | sub a b | mul a b | div a b => a.words ++ b.words

theorem words_of_finite {e : Param Float} {R : Handle → Prop}
    (h : e.All (fun v => v.isFinite = true) R) : e.words = e.names := by
  induction e with
  | const v => exact if_pos h
  | pi | ref => rfl
  | neg e ih => exact ih h
  | add a b iha ihb | sub a b iha ihb | mul a b iha ihb | div a b iha ihb =>
    exact congrArg₂ _ (iha h.1) (ihb h.2)

def withSign (v : Float) (e : Param Float) : Param Float := if isNegative v then neg e else e

/-- What the text of an expression is read as: a negative number is a negated one, one that is not
finite is a parameter, and parameters are looked up by their names. -/
def reread (handle : String → Handle) : Param Float → Param Float
  | const v =>
    if v.isFinite then withSign v (const (Number.reread v))
    else if v.isNaN then ref (handle "NaN")
    else withSign v (ref (handle "inf"))
  | pi => pi
  | ref r => ref (handle r.name)
  | neg e => neg (e.reread handle)
  | add a b => add (a.reread handle) (b.reread handle)
  | sub a b => sub (a.reread handle) (b.reread handle)
  | mul a b => mul (a.reread handle) (b.reread handle)
  | div a b => div (a.reread handle) (b.reread handle)

/-- A name that is read as one: a token that does not stand for `π`. -/
def IsName (name : String) : Prop := IsIdentifier name ∧ isPi name = false

/-- The text of the expression can be read: its parameters have names that are read as such. -/
def Readable (e : Param Float) : Prop := e.RefsAll fun r => IsName r.name

/-- The tokens of an expression, what they are read as, and the names among them. -/
def Spelled (handle : String → Handle) (e : Param Float) (text : List Char) : Prop :=
  ∃ ts, Chunk text ts ∧ Operand handle ts (e.reread handle) ∧ Token.names ts = e.words

theorem names_append (ts us : List Token) :
    Token.names (ts ++ us) = Token.names ts ++ Token.names us := List.filterMap_append

theorem spelled_signed {handle : String → Handle} {v : Float} {e : Param Float} {text : List Char}
    {ts : List Token} (hchunk : Chunk text ts) (hread : Operand handle ts e) :
    ∃ us, Chunk (signed v text) us ∧ Operand handle us (withSign v e) ∧
      Token.names us = Token.names ts := by
  unfold signed withSign
  split_ifs
  · exact ⟨_, hchunk.punctuation (t := .minus) rfl, hread.negated, rfl⟩
  · exact ⟨_, hchunk, hread, rfl⟩

theorem spelled_const (handle : String → Handle) (v : Float) :
    Spelled handle (.const v) (plain.write v).toList := by
  have hNaN : IsIdentifier "NaN" := isIdentifier_of_word 'N' ['a', 'N'] rfl
  have hinf : IsIdentifier "inf" := isIdentifier_of_word 'i' ['n', 'f'] rfl
  rw [Spelled, reread, words, Style.write, String.toList_ofList, special]
  split_ifs
  · obtain ⟨isFloat, htext⟩ := exists_numberText_magnitude (.ofBits v.toBits)
    obtain ⟨d, hd⟩ := exists_read_of_numberText htext
    have hreread : Number.reread v = d.toDouble := by rw [Number.reread, hd]; rfl
    rw [hreread]
    exact spelled_signed (chunk_number htext hd) (Operand.number d)
  · exact ⟨_, hNaN.chunk, Operand.name "NaN", rfl⟩
  · exact spelled_signed hinf.chunk (Operand.name "inf")

theorem spelled_binary {handle : String → Handle} {a b e : Param Float} {s t : List Char}
    {c : Char} {o : Token} (hc : ofPunctuation? c = some o) (ho : Token.names [o] = [])
    (ha : Spelled handle a s) (hb : Spelled handle b t) (hwords : e.words = a.words ++ b.words)
    (henclosed : ∀ {ts us}, Operand handle ts (a.reread handle) →
      Operand handle us (b.reread handle) → Enclosed handle (ts ++ o :: us) (e.reread handle)) :
    Spelled handle e ('(' :: (s ++ ' ' :: c :: ' ' :: t ++ [')'])) := by
  obtain ⟨ts, hs, hta, hna⟩ := ha
  obtain ⟨us, ht, hub, hnb⟩ := hb
  refine ⟨_, (hs.operator hc ht).parens, .of_enclosed (henclosed hta hub), ?_⟩
  have hcons : ∀ vs, Token.names (o :: vs) = Token.names vs := fun vs => by
    rw [← List.singleton_append, names_append, ho, List.nil_append]
  rw [hwords, ← hna, ← hnb]
  change Token.names ([.lparen] ++ (ts ++ o :: us ++ [.rparen])) = _
  rw [names_append, names_append, names_append, hcons]
  exact List.append_nil _

theorem spelled_write (handle : String → Handle) {e : Param Float} (h : e.Readable) :
    Spelled handle e e.write.toList := by
  induction e with
  | const v => exact spelled_const handle v
  | pi =>
    have hpi : IsIdentifier "pi" := isIdentifier_of_word 'p' ['i'] rfl
    exact ⟨_, hpi.chunk, Operand.name "pi", rfl⟩
  | ref r =>
    have hread : Operand handle [.name r.name]
        (if isPi r.name then .pi else .ref (handle r.name) : Param Float) := .name r.name
    rw [h.2, if_neg Bool.false_ne_true] at hread
    exact ⟨_, h.1.chunk, hread, by simp [Token.names, h.2, words]⟩
  | neg e ih =>
    obtain ⟨ts, htext, hread, hnames⟩ := ih h
    refine ⟨.minus :: .lparen :: (ts ++ [.rparen]), ?_,
      (Operand.of_enclosed hread.enclosed).negated, ?_⟩
    · simpa [write] using htext.parens.punctuation (c := '-') rfl
    · change Token.names (ts ++ [.rparen]) = _
      rw [names_append, hnames]
      exact List.append_nil _
  | add a b iha ihb =>
    simpa [write] using spelled_binary (c := '+') rfl rfl (iha h.1) (ihb h.2) rfl
      Operand.enclosed_add
  | sub a b iha ihb =>
    simpa [write] using spelled_binary (c := '-') rfl rfl (iha h.1) (ihb h.2) rfl
      Operand.enclosed_sub
  | mul a b iha ihb =>
    simpa [write] using spelled_binary (c := '*') rfl rfl (iha h.1) (ihb h.2) rfl
      Operand.enclosed_mul
  | div a b iha ihb =>
    simpa [write] using spelled_binary (c := '/') rfl rfl (iha h.1) (ihb h.2) rfl
      Operand.enclosed_div

/-- The parameter that a name is read as once all names are registered. -/
def handleIn (registry : Registry) (name : String) : Handle :=
  (registry.lookup? name).getD ⟨registry.size, name⟩

/-- Reading the text of an expression registers the words in it. -/
theorem parse_write_of_readable (registry : Registry) {e : Param Float} (h : e.Readable) :
    parse registry e.write = (registry.registerAll e.words,
      .ok (e.reread (handleIn (registry.registerAll e.words))).simplify) := by
  obtain ⟨ts, htext, hread, hnames⟩ :=
    spelled_write (handleIn (registry.registerAll e.words)) h
  have hscan : scan e.write.toList = .ok ts := by
    have hnil := htext [] stops_nil
    rwa [List.append_nil, scan, Except.map, List.append_nil] at hnil
  obtain ⟨hlt, hsum⟩ : Yields (parseSum (handleIn (registry.registerAll e.words)) ts)
      (e.reread (handleIn (registry.registerAll e.words))) [] := by
    have hproduct : Yields (parseProduct _ (ts ++ [])) _ [] := hread.product (by rintro _ ⟨⟩)
    rw [List.append_nil] at hproduct
    exact yields_sum hproduct (yields_sumTail_stop (by rintro _ ⟨⟩))
  unfold parse
  rw [hscan]
  dsimp only
  rw [hnames]
  rw [show parseSum (fun name => ((registry.registerAll e.words).lookup? name).getD
    ⟨(registry.registerAll e.words).size, name⟩) ts = _ from hsum]

theorem All.exists_of_mem_names {F : Type} {number : F → Prop} {parameter : Handle → Prop}
    {e : Param F} (h : e.All number parameter) {name : String} (hname : name ∈ e.names) :
    ∃ r, parameter r ∧ r.name = name := by
  induction e with
  | const | pi => cases hname
  | ref r => exact ⟨r, h, (List.mem_singleton.mp hname).symm⟩
  | neg e ih => exact ih h hname
  | add a b iha ihb | sub a b iha ihb | mul a b iha ihb | div a b iha ihb =>
    exact (List.mem_append.mp hname).elim (iha h.1) (ihb h.2)

/-- Where the numbers read back and the parameters are found under their names, reading changes
neither the value of an expression nor its simplified form: a negative number, read as a negated
one, is folded again. -/
theorem reread_of_readsBack {handle : String → Handle} {e : Param Float}
    (h : e.All (fun v => v.isFinite = true ∧ ReadsBack v.abs) fun r => handle r.name = r) :
    (e.reread handle).value? = e.value? ∧ (e.reread handle).simplify = e.simplify := by
  induction e with
  | const v =>
    have hread := Number.reread_of_readsBack h.1 h.2
    rw [reread, if_pos h.1, withSign]
    by_cases hneg : isNegative v = true
    · rw [if_pos hneg, hread]
      have hvalue : (neg (const v.abs)).value? = some v := by
        rw [value?, value?, Option.map_some, neg_abs_of_negative h.1 hneg]
      refine ⟨hvalue, ?_⟩
      change (neg (const v.abs)).value?.elim _ const = _
      rw [hvalue]
      rfl
    · rw [if_neg hneg, hread, abs_of_not_negative h.1 (Bool.eq_false_iff.mpr hneg)]
      exact ⟨rfl, rfl⟩
  | pi => exact ⟨rfl, rfl⟩
  | ref r =>
    rw [reread, show handle r.name = r from h]
    exact ⟨rfl, rfl⟩
  | neg e ih =>
    obtain ⟨hvalue, hsimplify⟩ := ih h
    simp only [reread, value?, simplify, hvalue, hsimplify, and_self]
  | add a b iha ihb | sub a b iha ihb | mul a b iha ihb | div a b iha ihb =>
    obtain ⟨hva, hsa⟩ := iha h.1
    obtain ⟨hvb, hsb⟩ := ihb h.2
    simp only [reread, value?, simplify, hva, hsa, hvb, hsb, and_self]

end Param

theorem Registry.registerAll_of_lookup {registry : Registry} {names : List String}
    (h : ∀ name ∈ names, (registry.lookup? name).isSome = true) :
    registry.registerAll names = registry := by
  induction names with
  | nil => rfl
  | cons name names ih =>
    obtain ⟨hname, hnames⟩ := List.forall_mem_cons.mp h
    rw [lookup?, Option.isSome_map] at hname
    obtain ⟨id, hid⟩ := Option.isSome_iff_exists.mp hname
    have hregister : (registry.register name).1 = registry := by rw [register, hid]
    rw [registerAll, List.foldl_cons, hregister]
    exact ih hnames

namespace Param
open Number Token

/-- The text of an expression reads back: it is read as the simplified expression, and nothing is
registered. -/
theorem parse_write {registry : Registry} {e : Param Float}
    (h : e.All (fun v => v.isFinite = true ∧ ReadsBack v.abs) fun r =>
      registry.lookup? r.name = some r ∧ IsIdentifier r.name ∧ isPi r.name = false) :
    parse registry e.write = (registry, .ok e.simplify) := by
  have hreadable : e.Readable := h.imp (fun _ _ => trivial) fun _ hr => hr.2
  have hwords : e.words = e.names := words_of_finite (h.imp (fun _ hv => hv.1) fun _ => id)
  have hnames : registry.registerAll e.names = registry := by
    refine Registry.registerAll_of_lookup fun name hname => ?_
    obtain ⟨r, hr, rfl⟩ := h.exists_of_mem_names hname
    rw [hr.1]
    rfl
  have hfound : e.All (fun v => v.isFinite = true ∧ ReadsBack v.abs) fun r =>
      handleIn registry r.name = r := h.imp (fun _ hv => hv) fun r hr => by rw [handleIn, hr.1]; rfl
  rw [parse_write_of_readable registry hreadable, hwords, hnames, (reread_of_readsBack hfound).2]

/-- A sum, a quotient and a product with numbers of both signs. -/
def scaledShift : Param Float :=
  .mul (.const (-1.5)) (.sub (.neg (.ref ⟨1, "theta"⟩)) (.div .pi (.const (-2))))

theorem parse_write_scaledShift :
    parse ⟨["phi", "theta"]⟩ scaledShift.write =
      (⟨["phi", "theta"]⟩, .ok scaledShift.simplify) := by
  have htheta : IsIdentifier "theta" := isIdentifier_of_word 't' ['h', 'e', 't', 'a'] rfl
  refine parse_write ⟨⟨by decide +kernel, by decide +kernel⟩, ⟨by decide, htheta, by decide⟩,
    trivial, ?_⟩
  exact ⟨by decide +kernel, by decide +kernel⟩

end Param
end Interchange
