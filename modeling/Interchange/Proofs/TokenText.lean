import Mathlib.Data.List.TakeDrop
import Interchange.Qasm.Lexer

namespace Interchange.Qasm

/-- A text is cut into tokens, separators between them left out. -/
inductive Spells : List Char → List Token → Prop
  | nil : Spells [] []
  | separator {c : Char} {cs : List Char} {n : ℕ} {ts : List Token}
      (h : Lexeme.head c cs = (.separator, n)) (hr : Spells (cs.drop n) ts) : Spells (c :: cs) ts
  | token {c : Char} {cs : List Char} {n : ℕ} {t : Token} {ts : List Token}
      (h : Lexeme.head c cs = (.token t, n)) (hr : Spells (cs.drop n) ts) :
      Spells (c :: cs) (t :: ts)

theorem scanFrom_of_spells {text : List Char} {ts : List Token} (h : Spells text ts) (line : ℕ) :
    ∃ placed, scanFrom line text = .ok placed ∧ placed.map Placed.token = ts := by
  induction h generalizing line with
  | nil => exact ⟨[], by rw [scanFrom], rfl⟩
  | @separator c cs n ts h _ ih =>
    obtain ⟨placed, hp, ht⟩ := ih (line + (c :: cs.take n).count '\n')
    exact ⟨placed, by rw [scanFrom, h]; exact hp, ht⟩
  | @token c cs n t ts h _ ih =>
    obtain ⟨placed, hp, ht⟩ := ih (line + (c :: cs.take n).count '\n')
    refine ⟨⟨t, line⟩ :: placed, ?_, by rw [List.map_cons, ht]⟩
    rw [scanFrom, h]
    dsimp only
    rw [hp]
    rfl

theorem spells_of_scanFrom {text : List Char} {line : ℕ} {placed : List Placed}
    (h : scanFrom line text = .ok placed) : Spells text (placed.map Placed.token) := by
  fun_induction scanFrom line text generalizing placed with
  | case1 line =>
    obtain rfl := Except.ok.inj h
    exact .nil
  | case2 line c cs n after hhead =>
    rename_i ih
    exact .separator hhead (ih h)
  | case3 line c cs n after t hhead =>
    rename_i ih
    cases hrest : scanFrom after (cs.drop n) with
    | error e =>
      rw [hrest] at h
      cases h
    | ok rest =>
      rw [hrest] at h
      obtain rfl := Except.ok.inj h
      exact .token hhead (ih hrest)
  | case4 => cases h

/-- What may follow a word or a number without becoming part of it. -/
def Ends (rest : List Char) : Prop :=
  ∀ c ∈ rest.head?, Lexeme.continuesWord c = false ∧ c ≠ '.'

theorem takeWhile_append_stop {p : Char → Bool} {w rest : List Char} (hw : ∀ c ∈ w, p c = true)
    (hr : ∀ c ∈ rest.head?, p c = false) : (w ++ rest).takeWhile p = w := by
  rw [List.takeWhile_append_of_pos hw]
  cases rest with
  | nil => simp
  | cons c rest => simp [hr c (by simp)]

namespace Lexeme

theorem isSpace_of_startsWord {c : Char} (h : startsWord c = true) : isSpace c = false := by
  by_contra hs
  simp only [isSpace, Bool.not_eq_false, Bool.or_eq_true, beq_iff_eq] at hs
  rcases hs with ((rfl | rfl) | rfl) | rfl
  all_goals revert h; decide

theorem isSpace_of_isDigit {c : Char} (h : c.isDigit = true) : isSpace c = false := by
  by_contra hs
  simp only [isSpace, Bool.not_eq_false, Bool.or_eq_true, beq_iff_eq] at hs
  rcases hs with ((rfl | rfl) | rfl) | rfl
  all_goals revert h; decide

theorem startsWord_of_isDigit {c : Char} (h : c.isDigit = true) : startsWord c = false := by
  have hc : c ≠ '_' := by rintro rfl; revert h; decide
  have hle : c.toNat ≤ '9'.toNat := (Char.isDigit_iff_toNat.mp h).2
  have halpha : c.isAlpha = false := by
    refine Bool.eq_false_iff.mpr fun ha => ?_
    rcases Bool.or_eq_true_iff.mp ha with hu | hl
    · have hge : 'A'.toNat ≤ c.toNat := (of_decide_eq_true hu).1
      exact absurd (Nat.le_trans hge hle) (by decide)
    · have hge : 'a'.toNat ≤ c.toNat := of_decide_eq_true (Bool.and_eq_true_iff.mp hl).1
      exact absurd (Nat.le_trans hge hle) (by decide)
  rw [startsWord, halpha, beq_false_of_ne hc]
  rfl

theorem head_word {c : Char} {tail rest : List Char} (hc : startsWord c = true)
    (ht : ∀ d ∈ tail, continuesWord d = true) (hr : Ends rest) :
    head c (tail ++ rest) = (ofWord (String.ofList (c :: tail)), tail.length) := by
  have htail := takeWhile_append_stop ht fun d hd => (hr d hd).1
  simp only [head, isSpace_of_startsWord hc, hc, htail]
  rfl

/-- The text of a number without a sign or an exponent, and whether it has a point. -/
inductive NumberText : List Char → Bool → Prop
  | int {whole : List Char} (hne : whole ≠ []) (hd : ∀ c ∈ whole, c.isDigit = true) :
      NumberText whole false
  | decimal {whole fraction : List Char} (hne : whole ≠ [])
      (hd : ∀ c ∈ whole, c.isDigit = true) (hf : ∀ c ∈ fraction, c.isDigit = true) :
      NumberText (whole ++ '.' :: fraction) true

theorem isDigit_of_ends {rest : List Char} (hr : Ends rest) :
    ∀ c ∈ rest.head?, c.isDigit = false := by
  intro c hc
  have h := (hr c hc).1
  simp only [continuesWord, Char.isAlphanum, Bool.or_eq_false_iff] at h
  exact h.1.2

theorem exponentLength_of_ends {rest : List Char} (hr : Ends rest) : exponentLength rest = 0 := by
  cases rest with
  | nil => rfl
  | cons c rest =>
    have h := (hr c rfl).1
    have he : c ≠ 'e' := by rintro rfl; revert h; decide
    have hE : c ≠ 'E' := by rintro rfl; revert h; decide
    simp [exponentLength, he, hE]

theorem numberLength_append {w rest : List Char} {isFloat : Bool} (h : NumberText w isFloat)
    (hr : Ends rest) : numberLength (w ++ rest) = (w.length, isFloat) := by
  -- what follows is neither a digit nor a point, and no exponent starts there
  have he := exponentLength_of_ends hr
  unfold numberLength
  dsimp only
  cases h with
  | int hne hd =>
    rw [takeWhile_append_stop hd (isDigit_of_ends hr), List.drop_left]
    split
    next cs =>
      exact absurd rfl (hr '.' rfl).2
    next => simp [he]
  | @decimal whole fraction hne hd hf =>
    have hw : (whole ++ '.' :: (fraction ++ rest)).takeWhile Char.isDigit = whole :=
      takeWhile_append_stop hd (by simp)
    have hfr := takeWhile_append_stop hf (isDigit_of_ends hr)
    rw [List.append_assoc, List.cons_append, hw, List.drop_left]
    simp only [hfr, List.drop_left, he, List.length_append, List.length_cons]
    congr 1
    omega

theorem NumberText.head {w : List Char} {isFloat : Bool} (h : NumberText w isFloat) :
    ∃ c tail, w = c :: tail ∧ c.isDigit = true := by
  cases h with
  | @int whole hne hd =>
    obtain ⟨c, tail, rfl⟩ := List.exists_cons_of_ne_nil hne
    exact ⟨c, tail, rfl, hd c List.mem_cons_self⟩
  | @decimal whole fraction hne hd hf =>
    obtain ⟨c, tail, rfl⟩ := List.exists_cons_of_ne_nil hne
    exact ⟨c, _, rfl, hd c List.mem_cons_self⟩

theorem head_number {w rest : List Char} {isFloat : Bool} (h : NumberText w isFloat)
    (hr : Ends rest) :
    ∃ c tail, w = c :: tail ∧ head c (tail ++ rest) = (ofNumber w isFloat, tail.length) := by
  obtain ⟨c, tail, rfl, hc⟩ := h.head
  refine ⟨c, tail, rfl, ?_⟩
  have hlen := numberLength_append h hr
  rw [List.cons_append] at hlen
  simp [head, isSpace_of_isDigit hc, startsWord_of_isDigit hc, hc, hlen]

theorem head_minus {c : Char} (cs : List Char) (hc : c ≠ '>') :
    head '-' (c :: cs) = (.token (.symbol .minus), 0) := by
  have hspace : isSpace '-' = false := rfl
  have hword : startsWord '-' = false := rfl
  simp [head, hspace, hword, Char.isDigit, ofSymbol?, hc]

end Lexeme

namespace Spells
open Lexeme

theorem space {c : Char} {cs : List Char} {ts : List Token} (hc : isSpace c = true)
    (h : Spells cs ts) : Spells (c :: cs) ts :=
  .separator (n := 0) (by simp [head, hc]) h

theorem symbol {c : Char} {s : Symbol} {cs : List Char} {ts : List Token}
    (hs : head c cs = (.token (.symbol s), 0)) (h : Spells cs ts) :
    Spells (c :: cs) (.symbol s :: ts) := .token hs h

theorem word {w rest : List Char} {t : Token} {ts : List Token}
    (hw : ∃ c tail, w = c :: tail ∧ startsWord c = true ∧ ∀ d ∈ tail, continuesWord d = true)
    (ht : ofWord (String.ofList w) = .token t) (hr : Ends rest) (h : Spells rest ts) :
    Spells (w ++ rest) (t :: ts) := by
  obtain ⟨c, tail, rfl, hc, htail⟩ := hw
  refine .token ((head_word hc htail hr).trans (by rw [ht])) ?_
  change Spells ((tail ++ rest).drop tail.length) ts
  rwa [List.drop_left]

theorem number {w rest : List Char} {isFloat : Bool} {t : Token} {ts : List Token}
    (hw : NumberText w isFloat) (ht : ofNumber w isFloat = .token t) (hr : Ends rest)
    (h : Spells rest ts) : Spells (w ++ rest) (t :: ts) := by
  obtain ⟨c, tail, rfl, hhead⟩ := head_number hw hr
  refine .token (hhead.trans (by rw [ht])) ?_
  change Spells ((tail ++ rest).drop tail.length) ts
  rwa [List.drop_left]

end Spells

theorem numberText_toDigits (n : ℕ) : Lexeme.NumberText (Nat.toDigits 10 n) false :=
  .int Nat.toDigits_ne_nil fun _ => Nat.isDigit_of_mem_toDigits (by decide) (by decide)

theorem digitsValue_toDigits (n : ℕ) : Number.digitsValue (Nat.toDigits 10 n) = n := by
  rw [Number.digitsValue, ← Nat.ofDigitChars_eq_foldl, Nat.ofDigitChars_ten_toDigits]

/-- A text whose last token ends where the text ends, unless what follows goes on with it. -/
def Chunk (text : List Char) (ts : List Token) : Prop :=
  ∀ rest us, Ends rest → Spells rest us → Spells (text ++ rest) (ts ++ us)

theorem ends_cons {c : Char} {rest : List Char} (h : Lexeme.continuesWord c = false ∧ c ≠ '.') :
    Ends (c :: rest) := by
  rintro _ ⟨⟩
  exact h

namespace Chunk
open Lexeme

variable {a b : List Char} {ts us : List Token}

theorem word {t : Token}
    (hw : ∃ c tail, a = c :: tail ∧ startsWord c = true ∧ ∀ d ∈ tail, continuesWord d = true)
    (ht : ofWord (String.ofList a) = .token t) : Chunk a [t] :=
  fun _ _ hrest h => Spells.word hw ht hrest h

theorem number {isFloat : Bool} {t : Token} (hw : NumberText a isFloat)
    (ht : ofNumber a isFloat = .token t) : Chunk a [t] :=
  fun _ _ hrest h => Spells.number hw ht hrest h

theorem nil : Chunk [] [] := fun _ _ _ h => h

theorem space (h : Chunk a ts) : Chunk (' ' :: a) ts :=
  fun rest us hrest hs => .space (by decide) (h rest us hrest hs)

theorem symbol {o : Char} {s : Symbol} (h : Chunk a ts)
    (ho : ∀ rest, head o (a ++ rest) = (.token (.symbol s), 0)) :
    Chunk (o :: a) (.symbol s :: ts) :=
  fun rest us hrest hs => .symbol (ho rest) (h rest us hrest hs)

/-- A second text follows whose first character cannot go on with the first text. -/
theorem append {o : Char} (ha : Chunk a ts) (hb : Chunk (o :: b) us)
    (ho : continuesWord o = false ∧ o ≠ '.') : Chunk (a ++ o :: b) (ts ++ us) := by
  intro rest vs hrest hs
  rw [List.append_assoc, List.append_assoc]
  exact ha _ _ (ends_cons ho) (hb rest vs hrest hs)

theorem minus {c : Char} (h : Chunk (c :: a) ts) (hc : c ≠ '>') :
    Chunk ('-' :: c :: a) (.symbol .minus :: ts) :=
  h.symbol fun _ => head_minus _ hc

theorem spacedOperator {o : Char} {s : Symbol} (ha : Chunk a ts) (hb : Chunk b us)
    (ho : ∀ rest, head o (' ' :: rest) = (.token (.symbol s), 0)) :
    Chunk (a ++ ' ' :: o :: ' ' :: b) (ts ++ .symbol s :: us) :=
  ha.append (hb.space.symbol fun _ => ho _).space (by decide)

theorem parens (h : Chunk a ts) :
    Chunk ('(' :: (a ++ [')'])) (.symbol .lparen :: (ts ++ [.symbol .rparen])) :=
  (h.append (nil.symbol fun _ => rfl) (by decide)).symbol fun _ => rfl

end Chunk

end Interchange.Qasm
