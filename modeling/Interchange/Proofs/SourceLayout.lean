import Mathlib.Data.List.Infix
import Interchange.Proofs.TokenText
import Interchange.Proofs.UnplacedParsing

namespace Interchange.Qasm

/-- A run that stops inside of a text, or at its end before something else, stops there whatever
stood behind that text. -/
theorem takeWhile_append_swap {p : Char → Bool} {a b s : List Char}
    (h : ((a ++ b).takeWhile p).length ≤ a.length)
    (hs : ((a ++ b).takeWhile p).length = a.length → s.takeWhile p = []) :
    (a ++ s).takeWhile p = (a ++ b).takeWhile p := by
  induction a with
  | nil =>
    have hb : b.takeWhile p = [] := List.eq_nil_of_length_eq_zero (Nat.le_zero.mp h)
    rw [List.nil_append, List.nil_append, hb]
    exact hs (congrArg List.length hb)
  | cons c a ih =>
    rw [List.cons_append, List.takeWhile_cons] at h hs
    rw [List.cons_append, List.cons_append, List.takeWhile_cons, List.takeWhile_cons]
    split_ifs with hc
    · simp only [hc, if_true, List.length_cons, Nat.add_le_add_iff_right, Nat.add_right_cancel_iff]
        at h hs
      rw [ih h hs]
    · rfl

namespace Lexeme

def StartsBlank (text : List Char) : Prop := ∃ c rest, text = c :: rest ∧ isSpace c = true

variable {a b s cs : List Char} {n : ℕ}

theorem StartsBlank.append (h : StartsBlank s) : StartsBlank (s ++ b) := by
  obtain ⟨c, rest, rfl, hc⟩ := h
  exact ⟨c, rest ++ b, rfl, hc⟩

theorem StartsBlank.ends (h : StartsBlank s) : Ends s := by
  obtain ⟨c, rest, rfl, hc⟩ := h
  refine ends_cons ?_
  simp only [isSpace, Bool.or_eq_true, beq_iff_eq] at hc
  rcases hc with ((rfl | rfl) | rfl) | rfl <;> decide

theorem StartsBlank.takeWhile_continuesWord (h : StartsBlank s) : s.takeWhile continuesWord = [] :=
  takeWhile_append_stop (w := []) (by simp) fun c hc => (h.ends c hc).1

theorem StartsBlank.takeWhile_isDigit (h : StartsBlank s) : s.takeWhile Char.isDigit = [] :=
  takeWhile_append_stop (w := []) (by simp) (isDigit_of_ends h.ends)

section Comment

/-- A comment extends to the first place where it is closed. -/
theorem commentLength?_eq_some_iff :
    commentLength? cs = some n ↔
      ∃ body rest, cs = body ++ '*' :: '/' :: rest ∧ ¬ ['*', '/'] <:+: body ∧
        n = body.length + 2 := by
  constructor
  · intro h
    fun_induction commentLength? cs generalizing n with
    | case1 rest => exact ⟨[], rest, rfl, by simp, (Option.some.inj h).symm⟩
    | case2 c cs hopen ih =>
      obtain ⟨m, hm, rfl⟩ := Option.map_eq_some_iff.mp h
      obtain ⟨body, rest, rfl, hbody, rfl⟩ := ih hm
      refine ⟨c :: body, rest, rfl, fun hin => ?_, rfl⟩
      obtain hbegin | hin := List.infix_cons_iff.mp hin
      · obtain ⟨tail, htail⟩ := hbegin
        obtain ⟨rfl, hslash⟩ := List.cons_eq_cons.mp htail
        exact hopen (tail ++ '*' :: '/' :: rest) rfl (by rw [← hslash]; rfl)
      · exact hbody hin
    | case3 => cases h
  · rintro ⟨body, rest, rfl, hbody, rfl⟩
    induction body with
    | nil => rfl
    | cons c body ih =>
      have hrest := ih fun hin => hbody (hin.trans (List.suffix_cons c body).isInfix)
      rw [List.cons_append, commentLength?, hrest]
      · rfl
      · rintro tail rfl htail
        -- a slash cannot follow: the body would hold the closing, or be empty
        cases body with
        | nil => cases htail
        | cons d body =>
          obtain ⟨rfl, -⟩ := List.cons_eq_cons.mp htail
          exact hbody (List.prefix_append ['*', '/'] body).isInfix

theorem commentLength?_append_swap (h : commentLength? (a ++ b) = some n) (hn : n ≤ a.length) :
    commentLength? (a ++ s) = some n := by
  obtain ⟨body, rest, hab, hbody, rfl⟩ := commentLength?_eq_some_iff.mp h
  have hbegin : body ++ ['*', '/'] <+: a :=
    List.prefix_of_prefix_length_le ⟨rest, by simp [hab]⟩ (List.prefix_append a b)
      (by simpa using hn)
  obtain ⟨tail, rfl⟩ := hbegin
  exact commentLength?_eq_some_iff.mpr ⟨body, tail ++ s, by simp, hbody, rfl⟩

end Comment

section Number

/-- A run of digits that stops inside of a text, or at its end, stops there before a blank. -/
theorem digits_append_swap (hs : StartsBlank s)
    (h : ((a ++ b).takeWhile Char.isDigit).length ≤ a.length) :
    (a ++ s).takeWhile Char.isDigit = (a ++ b).takeWhile Char.isDigit :=
  takeWhile_append_swap h fun _ => hs.takeWhile_isDigit

/-- The digits of an exponent together with the characters before them; zero without a digit. -/
def exponentDigits (before : ℕ) (text : List Char) : ℕ :=
  let n := (text.takeWhile Char.isDigit).length
  if n = 0 then 0 else before + n

theorem exponentDigits_append_swap (hs : StartsBlank s)
    (h : exponentDigits n (a ++ b) ≤ n + a.length) :
    exponentDigits n (a ++ s) = exponentDigits n (a ++ b) := by
  have hdigits : ((a ++ b).takeWhile Char.isDigit).length ≤ a.length := by
    simp only [exponentDigits] at h
    split_ifs at h <;> omega
  rw [exponentDigits, exponentDigits, digits_append_swap hs hdigits]

theorem exponentLength_signed {mark sign : Char} (hmark : (mark == 'e' || mark == 'E') = true)
    (hsign : sign = '+' ∨ sign = '-') :
    exponentLength (mark :: sign :: cs) = exponentDigits 2 cs := by
  obtain rfl | rfl := hsign <;> simp only [exponentLength, exponentDigits, hmark, if_true]

theorem exponentLength_unsigned {mark : Char} (hmark : (mark == 'e' || mark == 'E') = true)
    (hcs : ∀ c ∈ cs.head?, ¬ (c = '+' ∨ c = '-')) :
    exponentLength (mark :: cs) = exponentDigits 1 cs := by
  rw [exponentLength, if_pos hmark]
  · rfl
  · rintro ds rfl
    exact hcs '+' rfl (.inl rfl)
  · rintro ds rfl
    exact hcs '-' rfl (.inr rfl)

theorem exponentLength_eq_zero (h : exponentLength cs < 2) : exponentLength cs = 0 := by
  cases cs with
  | nil => rfl
  | cons mark cs =>
    simp only [exponentLength] at h ⊢
    split_ifs at h ⊢ with hmark hdigits
    · rfl
    · omega
    · rfl

theorem exponentLength_append_swap (hs : StartsBlank s)
    (h : exponentLength (a ++ b) ≤ a.length) :
    exponentLength (a ++ s) = exponentLength (a ++ b) := by
  have hnosign : ∀ c ∈ s.head?, ¬ (c = '+' ∨ c = '-') := by
    obtain ⟨c, rest, rfl, hc⟩ := hs
    rintro _ ⟨⟩ (rfl | rfl) <;> cases hc
  match a with
  | [] => rw [List.nil_append, exponentLength_of_ends hs.ends, Nat.le_zero.mp h]
  | mark :: a =>
    by_cases hmark : (mark == 'e' || mark == 'E') = true
    · match a with
      | [] =>
        rw [exponentLength_eq_zero (Nat.lt_succ_of_le h)]
        refine (exponentLength_unsigned hmark hnosign).trans ?_
        rw [exponentDigits, hs.takeWhile_isDigit]
        rfl
      | sign :: a =>
        by_cases hsign : sign = '+' ∨ sign = '-'
        · have hlength (rest : List Char) :
              exponentLength (mark :: sign :: a ++ rest) = exponentDigits 2 (a ++ rest) :=
            exponentLength_signed hmark hsign
          rw [hlength] at h
          rw [hlength, hlength]
          exact exponentDigits_append_swap hs (by simp only [List.length_cons] at h; omega)
        · have hlength (rest : List Char) :
              exponentLength (mark :: sign :: a ++ rest) = exponentDigits 1 (sign :: a ++ rest) :=
            exponentLength_unsigned hmark (by rintro _ ⟨⟩; exact hsign)
          rw [hlength] at h
          rw [hlength, hlength]
          exact exponentDigits_append_swap hs (by simpa [Nat.add_comm] using h)
    · simp [exponentLength, hmark]

/-- What follows the digits before the point: a fraction, or an exponent. -/
def numberTail (text : List Char) : ℕ × Bool :=
  match text with
  | '.' :: rest =>
    let fraction := (rest.takeWhile Char.isDigit).length
    (1 + fraction + exponentLength (rest.drop fraction), true)
  | rest => (exponentLength rest, exponentLength rest != 0)

theorem numberTail_of_ne (h : ∀ c ∈ cs.head?, c ≠ '.') :
    numberTail cs = (exponentLength cs, exponentLength cs != 0) := by
  cases cs with
  | nil => rfl
  | cons c cs =>
    rw [numberTail]
    rintro rest ⟨⟩
    exact h '.' rfl rfl

theorem numberLength_eq (text : List Char) :
    numberLength text =
      let whole := (text.takeWhile Char.isDigit).length
      (whole + (numberTail (text.drop whole)).1, (numberTail (text.drop whole)).2) := by
  unfold numberLength
  dsimp only
  generalize text.drop _ = rest
  split
  · simp only [numberTail, Nat.add_assoc]
  next hpoint =>
    rw [numberTail_of_ne]
    rintro c hc rfl
    obtain ⟨tail, htail⟩ := List.head?_eq_some_iff.mp hc
    exact hpoint tail htail

theorem numberTail_append_swap (hs : StartsBlank s) (h : (numberTail (a ++ b)).1 ≤ a.length) :
    numberTail (a ++ s) = numberTail (a ++ b) := by
  match a with
  | [] =>
    have hb : ∀ c ∈ b.head?, c ≠ '.' := by
      rintro c hc rfl
      obtain ⟨tail, rfl⟩ := List.head?_eq_some_iff.mp hc
      simp [numberTail] at h
    rw [List.nil_append, numberTail_of_ne hb] at h
    have hzero : exponentLength b = 0 := Nat.le_zero.mp h
    rw [List.nil_append, List.nil_append, numberTail_of_ne hb, hzero,
      numberTail_of_ne fun c hc => (hs.ends c hc).2, exponentLength_of_ends hs.ends]
  | c :: a =>
    by_cases hc : c = '.'
    · subst hc
      simp only [List.cons_append, numberTail, List.length_cons] at h ⊢
      have hle : ((a ++ b).takeWhile Char.isDigit).length ≤ a.length := by omega
      rw [digits_append_swap hs hle]
      rw [List.drop_append_of_le_length hle] at h ⊢
      rw [List.drop_append_of_le_length hle,
        exponentLength_append_swap hs (b := b) (by rw [List.length_drop]; omega)]
    · have hpoint (rest : List Char) : ∀ d ∈ (c :: a ++ rest).head?, d ≠ '.' := by
        rintro _ ⟨⟩
        exact hc
      rw [numberTail_of_ne (hpoint b)] at h ⊢
      rw [numberTail_of_ne (hpoint s), exponentLength_append_swap hs h]

theorem numberLength_append_swap (hs : StartsBlank s)
    (h : (numberLength (a ++ b)).1 ≤ a.length) : numberLength (a ++ s) = numberLength (a ++ b) := by
  rw [numberLength_eq] at h
  dsimp only at h
  have hle : ((a ++ b).takeWhile Char.isDigit).length ≤ a.length := by omega
  rw [numberLength_eq, numberLength_eq, digits_append_swap hs hle]
  dsimp only
  rw [List.drop_append_of_le_length hle] at h ⊢
  rw [List.drop_append_of_le_length hle,
    numberTail_append_swap hs (b := b) (by rw [List.length_drop]; omega)]

end Number

section Head

variable {c : Char}

/-- A number starts with a digit, or with a point before a digit. -/
def startsNumber (c : Char) (cs : List Char) : Bool :=
  c.isDigit || (c == '.' && cs.head?.any Char.isDigit)

def single (c : Char) : Lexeme :=
  if c = 'π' then token (.keyword .pi)
  else if c = 'τ' then token (.keyword .tau)
  else match ofSymbol? c with
    | some symbol => token (.symbol symbol)
    | none => invalid

theorem head_blank (h : isSpace c = true) : head c cs = (separator, 0) := if_pos h

theorem head_startsWord (h : startsWord c = true) :
    head c cs = (ofWord (String.ofList (c :: cs.takeWhile continuesWord)),
      (cs.takeWhile continuesWord).length) := by
  unfold head
  rw [isSpace_of_startsWord h, h]
  rfl

theorem head_startsNumber (hspace : isSpace c = false) (hword : startsWord c = false)
    (h : startsNumber c cs = true) :
    head c cs = (ofNumber ((c :: cs).take (numberLength (c :: cs)).1) (numberLength (c :: cs)).2,
      (numberLength (c :: cs)).1 - 1) := by
  rw [startsNumber] at h
  unfold head
  rw [hspace, hword, if_neg Bool.false_ne_true, if_neg Bool.false_ne_true, if_pos h]

/-- The pairs of characters that are read together. -/
def pairs : List (Char × Char) := [('/', '/'), ('/', '*'), ('*', '*'), ('-', '>')]

theorem head_single (hspace : isSpace c = false) (hword : startsWord c = false)
    (hnumber : startsNumber c cs = false) (hquote : c ≠ '"')
    (hpair : ∀ d ∈ cs.head?, (c, d) ∉ pairs) : head c cs = (single c, 0) := by
  rw [startsNumber] at hnumber
  unfold head
  rw [hspace, hword, hnumber, if_neg Bool.false_ne_true, if_neg Bool.false_ne_true,
    if_neg Bool.false_ne_true]
  split
  · rfl
  · rfl
  · exact absurd rfl hquote
  iterate 4 exact absurd (by decide) (hpair _ rfl)
  next hpi htau _ _ _ _ _ =>
    rw [single, if_neg hpi, if_neg htau]
    cases ofSymbol? c <;> rfl

theorem head_quote :
    head '"' cs =
      let body := cs.takeWhile (· != '"')
      if body.length < cs.length then (token (.string (String.ofList body)), body.length + 1)
      else (invalid, cs.length) := rfl

theorem head_lineComment :
    head '/' ('/' :: cs) = (separator, 1 + (cs.takeWhile (· != '\n')).length) := rfl

theorem head_blockComment :
    head '/' ('*' :: cs) = match commentLength? cs with
      | some length => (separator, 1 + length)
      | none => (invalid, cs.length + 1) := rfl

theorem exists_of_mem_pairs {d : Char} (h : (c, d) ∈ pairs) :
    c = '/' ∧ d = '/' ∨ c = '/' ∧ d = '*' ∨ c = '*' ∧ d = '*' ∨ c = '-' ∧ d = '>' := by
  simpa [pairs] using h

/-- The ways in which a lexeme can start. -/
inductive Shape (c : Char) (cs : List Char) : Prop
  | blank (h : isSpace c = true)
  | word (h : startsWord c = true)
  | number (hspace : isSpace c = false) (hword : startsWord c = false)
      (h : startsNumber c cs = true)
  | quote (h : c = '"')
  | pair {d : Char} {rest : List Char} (h : (c, d) ∈ pairs) (hcs : cs = d :: rest)
  | single (hspace : isSpace c = false) (hword : startsWord c = false)
      (hnumber : startsNumber c cs = false) (hquote : c ≠ '"')
      (hpair : ∀ d ∈ cs.head?, (c, d) ∉ pairs)

theorem shape (c : Char) (cs : List Char) : Shape c cs := by
  by_cases hspace : isSpace c = true
  · exact .blank hspace
  by_cases hword : startsWord c = true
  · exact .word hword
  rw [Bool.not_eq_true] at hspace hword
  by_cases hnumber : startsNumber c cs = true
  · exact .number hspace hword hnumber
  rw [Bool.not_eq_true] at hnumber
  by_cases hquote : c = '"'
  · exact .quote hquote
  by_cases hpair : ∀ d ∈ cs.head?, (c, d) ∉ pairs
  · exact .single hspace hword hnumber hquote hpair
  · simp only [not_forall, not_not] at hpair
    obtain ⟨d, hd, hpair⟩ := hpair
    obtain ⟨rest, rfl⟩ := List.head?_eq_some_iff.mp hd
    exact .pair hpair rfl

theorem one_le_head {d : Char} (h : (c, d) ∈ pairs) : 1 ≤ (head c (d :: cs)).2 := by
  obtain ⟨rfl, rfl⟩ | ⟨rfl, rfl⟩ | ⟨rfl, rfl⟩ | ⟨rfl, rfl⟩ := exists_of_mem_pairs h
  · exact Nat.le_add_right 1 _
  · rw [head_blockComment]
    cases commentLength? cs with
    | none => exact Nat.le_add_left 1 _
    | some length => exact Nat.le_add_right 1 _
  · exact Nat.le_refl 1
  · exact Nat.le_refl 1

theorem exponentDigits_le (n : ℕ) (cs : List Char) : exponentDigits n cs ≤ n + cs.length := by
  have hle := (List.takeWhile_sublist (l := cs) Char.isDigit).length_le
  simp only [exponentDigits]
  split_ifs <;> omega

theorem exponentLength_le (cs : List Char) : exponentLength cs ≤ cs.length := by
  match cs with
  | [] => exact Nat.le_refl 0
  | mark :: cs =>
    by_cases hmark : (mark == 'e' || mark == 'E') = true
    · by_cases hsign : ∀ c ∈ cs.head?, ¬ (c = '+' ∨ c = '-')
      · rw [exponentLength_unsigned hmark hsign, List.length_cons, Nat.add_comm]
        exact exponentDigits_le _ _
      · simp only [not_forall, not_not] at hsign
        obtain ⟨sign, hc, hsign⟩ := hsign
        obtain ⟨rest, rfl⟩ := List.head?_eq_some_iff.mp hc
        rw [exponentLength_signed hmark hsign, List.length_cons, List.length_cons, Nat.add_assoc,
          Nat.add_comm]
        exact exponentDigits_le _ _
    · simp [exponentLength, hmark]

theorem numberTail_le (cs : List Char) : (numberTail cs).1 ≤ cs.length := by
  by_cases hpoint : ∀ c ∈ cs.head?, c ≠ '.'
  · rw [numberTail_of_ne hpoint]
    exact exponentLength_le cs
  · simp only [ne_eq, not_forall, not_not] at hpoint
    obtain ⟨_, hc, rfl⟩ := hpoint
    obtain ⟨rest, rfl⟩ := List.head?_eq_some_iff.mp hc
    have hle := (List.takeWhile_sublist (l := rest) Char.isDigit).length_le
    have hexponent := exponentLength_le (rest.drop (rest.takeWhile Char.isDigit).length)
    rw [List.length_drop] at hexponent
    simp only [numberTail, List.length_cons]
    omega

theorem numberLength_le (cs : List Char) : (numberLength cs).1 ≤ cs.length := by
  have hle := (List.takeWhile_sublist (l := cs) Char.isDigit).length_le
  have htail := numberTail_le (cs.drop (cs.takeWhile Char.isDigit).length)
  rw [List.length_drop] at htail
  simp only [numberLength_eq]
  omega

theorem head_le (c : Char) (cs : List Char) : (head c cs).2 ≤ cs.length := by
  cases shape c cs with
  | blank h =>
    rw [head_blank h]
    exact Nat.zero_le _
  | word h =>
    rw [head_startsWord h]
    exact (List.takeWhile_sublist _).length_le
  | number hspace hword h =>
    have hle := numberLength_le (c :: cs)
    rw [List.length_cons] at hle
    rw [head_startsNumber hspace hword h]
    exact Nat.sub_le_of_le_add hle
  | quote h =>
    rw [h, head_quote]
    dsimp only
    split_ifs with hclosed
    · exact hclosed
    · exact Nat.le_refl _
  | @pair d rest h hcs =>
    subst hcs
    obtain ⟨rfl, rfl⟩ | ⟨rfl, rfl⟩ | ⟨rfl, rfl⟩ | ⟨rfl, rfl⟩ := exists_of_mem_pairs h
    · rw [head_lineComment, List.length_cons, Nat.add_comm]
      exact Nat.add_le_add_right (List.takeWhile_sublist _).length_le 1
    · rw [head_blockComment]
      split
      next length hlength =>
        obtain ⟨body, tail, rfl, -, rfl⟩ := commentLength?_eq_some_iff.mp hlength
        simp only [List.length_cons, List.length_append]
        omega
      next => exact Nat.le_refl _
    · exact Nat.le_add_left 1 _
    · exact Nat.le_add_left 1 _
  | single hspace hword hnumber hquote hpair =>
    rw [head_single hspace hword hnumber hquote hpair]
    exact Nat.zero_le _

end Head

section Swap

variable {c : Char} {l : Lexeme}

theorem startsNumber_of_append_blank (hs : StartsBlank s) (h : startsNumber c (a ++ s) = true) :
    startsNumber c (a ++ b) = true := by
  cases a with
  | nil =>
    obtain ⟨d, rest, rfl, hd⟩ := hs
    have hdigit : d.isDigit = false := Bool.eq_false_iff.mpr fun hdigit => by
      rw [isSpace_of_isDigit hdigit] at hd
      cases hd
    have hc : c.isDigit = true := by simpa [startsNumber, hdigit] using h
    simp [startsNumber, hc]
  | cons d a => exact h

theorem head_number_swap (hspace : isSpace c = false) (hword : startsWord c = false)
    (hstart : startsNumber c (a ++ b) = true) (h : head c (a ++ b) = (l, n)) (hn : n ≤ a.length)
    (hs : StartsBlank s) : head c (a ++ s) = (l, n) := by
  rw [head_startsNumber hspace hword hstart, Prod.mk.injEq] at h
  obtain ⟨rfl, rfl⟩ := h
  have hlength : (numberLength (c :: a ++ b)).1 ≤ (c :: a).length := by
    rw [List.length_cons, List.cons_append]
    omega
  have hstart' : startsNumber c (a ++ s) = true := by
    cases a with
    | nil =>
      obtain hdigit | hpoint := Bool.or_eq_true_iff.mp hstart
      · simp [startsNumber, hdigit]
      -- a point with a digit behind it is two characters long
      obtain ⟨hc, hb⟩ := Bool.and_eq_true_iff.mp hpoint
      obtain rfl := beq_iff_eq.mp hc
      cases b with
      | nil => cases hb
      | cons d rest =>
        have hdigit : d.isDigit = true := hb
        simp only [List.nil_append, numberLength_eq, numberTail, List.length_nil] at hn
        simp [hdigit] at hn
        omega
    | cons d a => exact hstart
  rw [head_startsNumber hspace hword hstart', ← List.cons_append, ← List.cons_append,
    numberLength_append_swap hs hlength, List.take_append_of_le_length hlength,
    List.take_append_of_le_length hlength]

theorem head_quote_swap (h : head '"' (a ++ b) = (l, n)) (hl : l ≠ .invalid) (hn : n ≤ a.length) :
    head '"' (a ++ s) = (l, n) := by
  rw [head_quote] at h ⊢
  dsimp only at h ⊢
  split_ifs at h with hclosed
  · rw [Prod.mk.injEq] at h
    obtain ⟨rfl, rfl⟩ := h
    rw [takeWhile_append_swap (b := b) (by omega) (by omega), if_pos]
    rw [List.length_append]
    omega
  · rw [Prod.mk.injEq] at h
    exact absurd h.1.symm hl

theorem head_single_swap (hspace : isSpace c = false) (hword : startsWord c = false)
    (hstart : startsNumber c (a ++ b) = false) (hquote : c ≠ '"')
    (hpair : ∀ d ∈ (a ++ b).head?, (c, d) ∉ pairs) (h : head c (a ++ b) = (l, n))
    (hs : StartsBlank s) : head c (a ++ s) = (l, n) := by
  rw [head_single hspace hword hstart hquote hpair] at h
  rw [head_single hspace hword ?_ hquote ?_, h]
  · exact Bool.eq_false_iff.mpr fun hs' =>
      Bool.eq_false_iff.mp hstart (startsNumber_of_append_blank hs hs')
  · cases a with
    | nil =>
      obtain ⟨d, rest, rfl, hd⟩ := hs
      rintro _ ⟨⟩ hmem
      obtain ⟨-, rfl⟩ | ⟨-, rfl⟩ | ⟨-, rfl⟩ | ⟨-, rfl⟩ := exists_of_mem_pairs hmem <;> cases hd
    | cons d a => exact hpair

theorem head_pair_swap {d : Char} (hpair : (c, d) ∈ pairs) (h : head c (d :: a ++ b) = (l, n))
    (hl : l ≠ .invalid) (hn : n < (d :: a).length ∨ n = (d :: a).length ∧ l ≠ .separator) :
    head c (d :: a ++ s) = (l, n) := by
  obtain ⟨rfl, rfl⟩ | ⟨rfl, rfl⟩ | ⟨rfl, rfl⟩ | ⟨rfl, rfl⟩ := exists_of_mem_pairs hpair
  · rw [List.cons_append, head_lineComment, Prod.mk.injEq] at h
    obtain ⟨rfl, rfl⟩ := h
    have hlt : ((a ++ b).takeWhile (· != '\n')).length < a.length := by
      obtain hn | ⟨-, hn⟩ := hn
      · rw [List.length_cons] at hn
        omega
      · exact absurd rfl hn
    rw [List.cons_append, head_lineComment, takeWhile_append_swap hlt.le (absurd · hlt.ne)]
  · rw [List.cons_append, head_blockComment] at h ⊢
    split at h
    next length hlength =>
      rw [Prod.mk.injEq] at h
      obtain ⟨rfl, rfl⟩ := h
      rw [List.length_cons] at hn
      rw [commentLength?_append_swap hlength (by omega)]
    next =>
      rw [Prod.mk.injEq] at h
      exact absurd h.1.symm hl
  · exact h
  · exact h

/-- Where a lexeme ends before the end of a text, or a token at its end, it does so too when a
blank follows that text. -/
theorem head_append_swap (h : head c (a ++ b) = (l, n))
    (hl : l ≠ .invalid) (hn : n < a.length ∨ n = a.length ∧ l ≠ .separator)
    (hs : StartsBlank s) : head c (a ++ s) = (l, n) := by
  have hle : n ≤ a.length := by omega
  cases shape c (a ++ b) with
  | blank hc => rwa [head_blank hc] at h ⊢
  | word hc =>
    rw [head_startsWord hc, Prod.mk.injEq] at h
    obtain ⟨rfl, rfl⟩ := h
    rw [head_startsWord hc, takeWhile_append_swap hle fun _ => hs.takeWhile_continuesWord]
  | number hspace hword hstart => exact head_number_swap hspace hword hstart h hle hs
  | quote hc =>
    subst hc
    exact head_quote_swap h hl hle
  | @pair d rest hpair hab =>
    cases a with
    | nil =>
      -- the pair would have to end before it starts
      have hone : 1 ≤ (head c (d :: rest)).2 := one_le_head hpair
      rw [← hab, h] at hone
      exact absurd (hone.trans hle) (by decide)
    | cons _ a =>
      obtain ⟨rfl, -⟩ := List.cons_eq_cons.mp hab
      exact head_pair_swap hpair h hl hn
  | single hspace hword hstart hquote hpair =>
    exact head_single_swap hspace hword hstart hquote hpair h hs

end Swap

end Lexeme

open Lexeme

/-- What may stand between tokens: white space, comments up to the end of a line, and comments
that are closed. -/
inductive Gap : List Char → Prop
  | nil : Gap []
  | blank {c : Char} {gap : List Char} (hc : isSpace c = true) (h : Gap gap) : Gap (c :: gap)
  | lineComment {body gap : List Char} (hbody : '\n' ∉ body) (h : Gap gap) :
      Gap ('/' :: '/' :: (body ++ '\n' :: gap))
  | blockComment {body gap : List Char} (hbody : ¬ ['*', '/'] <:+: body) (h : Gap gap) :
      Gap ('/' :: '*' :: (body ++ '*' :: '/' :: gap))

theorem Spells.lineComment {body rest : List Char} {ts : List Token} (hbody : '\n' ∉ body)
    (h : Spells rest ts) : Spells ('/' :: '/' :: (body ++ '\n' :: rest)) ts := by
  have hrun : (body ++ '\n' :: rest).takeWhile (· != '\n') = body :=
    takeWhile_append_stop (fun c hc => bne_iff_ne.mpr (ne_of_mem_of_not_mem hc hbody)) (by simp)
  refine .separator (n := 1 + body.length) (by rw [head_lineComment, hrun]) ?_
  rw [Nat.add_comm, List.drop_succ_cons, List.drop_left]
  exact h.space rfl

theorem Spells.blockComment {body rest : List Char} {ts : List Token}
    (hbody : ¬ ['*', '/'] <:+: body) (h : Spells rest ts) :
    Spells ('/' :: '*' :: (body ++ '*' :: '/' :: rest)) ts := by
  have hlength : commentLength? (body ++ '*' :: '/' :: rest) = some (body.length + 2) :=
    commentLength?_eq_some_iff.mpr ⟨body, rest, rfl, hbody, rfl⟩
  refine .separator (n := 1 + (body.length + 2)) (by rw [head_blockComment, hlength]) ?_
  rw [Nat.add_comm, List.drop_succ_cons, ← List.drop_drop, List.drop_left]
  exact h

theorem Gap.spells {gap rest : List Char} {ts : List Token} (h : Gap gap) (hr : Spells rest ts) :
    Spells (gap ++ rest) ts := by
  induction h with
  | nil => exact hr
  | blank hc h ih => exact ih.space hc
  | lineComment hbody h ih => simpa using ih.lineComment hbody
  | blockComment hbody h ih => simpa using ih.blockComment hbody

/-- A token in a text: its characters, and what stands before and after them. -/
structure Cut where
  before : List Char
  lexeme : List Char
  token : Token
  after : List Char

def Cut.behind (text : List Char) (cut : Cut) : Cut := { cut with before := text ++ cut.before }

def Cut.insert (gap : List Char) (cut : Cut) : List Char :=
  cut.before ++ (cut.lexeme ++ (gap ++ cut.after))

theorem Cut.insert_behind (gap text : List Char) (cut : Cut) :
    (cut.behind text).insert gap = text ++ cut.insert gap := List.append_assoc _ _ _

/-- The tokens of a text, up to the first characters that form none. -/
def cuts : List Char → List Cut
  | [] => []
  | c :: cs => match head c cs with
    | (.separator, n) => (cuts (cs.drop n)).map (.behind (c :: cs.take n))
    | (.token t, n) => ⟨[], c :: cs.take n, t, cs.drop n⟩ ::
        (cuts (cs.drop n)).map (.behind (c :: cs.take n))
    | (.invalid, _) => []
termination_by text => text.length
decreasing_by
  all_goals
    simp only [List.length_drop, List.length_cons]
    omega

namespace Cut

/-- The line on which a token stands in a text that starts on a line. -/
def placed (line : ℕ) (cut : Cut) : Placed := ⟨cut.token, line + cut.before.count '\n'⟩

theorem placed_behind (line : ℕ) (text : List Char) (cut : Cut) :
    (cut.behind text).placed line = cut.placed (line + text.count '\n') := by
  simp [placed, behind, List.count_append, Nat.add_assoc]

end Cut

/-- Each token stands on the line that the line breaks before it give. -/
theorem scanFrom_eq_cuts {text : List Char} {line : ℕ} {placed : List Placed}
    (h : scanFrom line text = .ok placed) : placed = (cuts text).map (Cut.placed line) := by
  have hbehind (line : ℕ) (c : Char) (cs : List Char) (later : List Cut) :
      (later.map (Cut.behind (c :: cs))).map (Cut.placed line) =
        later.map (Cut.placed (line + (c :: cs).count '\n')) := by
    rw [List.map_map]
    exact List.map_congr_left fun cut _ => cut.placed_behind line (c :: cs)
  fun_induction scanFrom line text generalizing placed with
  | case1 line =>
    rw [cuts]
    exact (Except.ok.inj h).symm
  | case2 line c cs n after hhead =>
    rename_i ih
    rw [cuts, hhead, ih h]
    exact (hbehind line c (cs.take n) _).symm
  | case3 line c cs n after t hhead =>
    rename_i ih
    cases hrest : scanFrom after (cs.drop n) with
    | error e =>
      rw [hrest] at h
      cases h
    | ok rest =>
      rw [hrest] at h
      obtain rfl := Except.ok.inj h
      rw [cuts, hhead, ih hrest]
      exact congrArg (_ :: ·) (hbehind line c (cs.take n) _).symm
  | case4 => cases h

/-- A cut of a text leaves the text, and its token has a character. -/
theorem insert_nil_of_mem_cuts {text : List Char} {cut : Cut} (h : cut ∈ cuts text) :
    cut.insert [] = text ∧ cut.lexeme ≠ [] := by
  fun_induction cuts text generalizing cut with
  | case1 => cases h
  | case2 c cs n hhead ih =>
    obtain ⟨later, hlater, rfl⟩ := List.mem_map.mp h
    rw [Cut.insert_behind, (ih hlater).1, List.cons_append, List.take_append_drop]
    exact ⟨rfl, (ih hlater).2⟩
  | case3 c cs t n hhead ih =>
    obtain rfl | h := List.mem_cons.mp h
    · exact ⟨congrArg (c :: ·) (List.take_append_drop n cs), List.cons_ne_nil _ _⟩
    · obtain ⟨later, hlater, rfl⟩ := List.mem_map.mp h
      rw [Cut.insert_behind, (ih hlater).1, List.cons_append, List.take_append_drop]
      exact ⟨rfl, (ih hlater).2⟩
  | case4 => cases h

section Insert

variable {c : Char} {cs gap : List Char} {n : ℕ} {l : Lexeme} {cut : Cut}

/-- A lexeme before a token is read alike when a gap stands after that token. -/
theorem head_insert_later (h : head c cs = (l, n)) (hl : l ≠ .invalid)
    (hcut : cut ∈ cuts (cs.drop n)) (hblank : StartsBlank gap) :
    head c (cs.take n ++ cut.insert gap) = (l, n) := by
  obtain ⟨hdrop, hlexeme⟩ := insert_nil_of_mem_cuts hcut
  have hcs : cs.take n ++ cut.before ++ cut.lexeme ++ cut.after = cs := by
    rw [List.append_assoc, List.append_assoc]
    exact (congrArg (cs.take n ++ ·) hdrop).trans (List.take_append_drop n cs)
  have hlt : n < (cs.take n ++ cut.before ++ cut.lexeme).length := by
    have hpos := List.length_pos_of_ne_nil hlexeme
    have hlength := congrArg List.length hdrop
    simp only [Cut.insert, List.length_drop, List.length_append] at hlength
    simp only [List.length_append, List.length_take]
    omega
  rw [← hcs] at h
  simpa [Cut.insert] using head_append_swap h hl (.inl hlt) hblank.append

theorem length_take_head (h : head c cs = (l, n)) : (cs.take n).length = n := by
  have hle := head_le c cs
  rw [h] at hle
  exact List.length_take_of_le hle

/-- A gap after a token leaves all tokens as they are. -/
theorem Spells.insert {text : List Char} {ts : List Token} (h : Spells text ts)
    (hcut : cut ∈ cuts text) (hgap : Gap gap) (hblank : StartsBlank gap) :
    Spells (cut.insert gap) ts := by
  induction h generalizing cut with
  | nil =>
    rw [cuts] at hcut
    cases hcut
  | @separator c cs n ts h hr ih =>
    rw [cuts, h] at hcut
    obtain ⟨later, hlater, rfl⟩ := List.mem_map.mp hcut
    rw [Cut.insert_behind, List.cons_append]
    refine .separator (head_insert_later h (by simp) hlater hblank) ?_
    rw [List.drop_left' (length_take_head h)]
    exact ih hlater
  | @token c cs n t ts h hr ih =>
    have htake := length_take_head h
    rw [cuts, h] at hcut
    obtain rfl | hcut := List.mem_cons.mp hcut
    · have hhead : head c (cs.take n ++ (gap ++ cs.drop n)) = (.token t, n) :=
        head_append_swap (b := cs.drop n) (by rwa [List.take_append_drop]) (by simp)
          (.inr ⟨htake.symm, by simp⟩) hblank.append
      rw [Cut.insert, List.nil_append, List.cons_append]
      refine .token hhead ?_
      rw [List.drop_left' htake]
      exact hgap.spells hr
    · obtain ⟨later, hlater, rfl⟩ := List.mem_map.mp hcut
      rw [Cut.insert_behind, List.cons_append]
      refine .token (head_insert_later h (by simp) hlater hblank) ?_
      rw [List.drop_left' htake]
      exact ih hlater

end Insert

/-- A place in a text, at its start or right after a token: what stands before it and after it. -/
inductive Boundary (text : List Char) : List Char → List Char → Prop
  | start : Boundary text [] text
  | token {cut : Cut} (h : cut ∈ cuts text) : Boundary text (cut.before ++ cut.lexeme) cut.after

namespace Boundary

variable {text before after : List Char}

theorem append_eq (h : Boundary text before after) : before ++ after = text := by
  cases h with
  | start => rfl
  | token hcut =>
    rw [List.append_assoc]
    exact (insert_nil_of_mem_cuts hcut).1

theorem spells (h : Boundary text before after) {gap : List Char} {ts : List Token}
    (hts : Spells text ts) (hgap : Gap gap) (hblank : StartsBlank gap) :
    Spells (before ++ gap ++ after) ts := by
  rw [List.append_assoc]
  cases h with
  | start => exact hgap.spells hts
  | token hcut =>
    rw [List.append_assoc]
    exact hts.insert hcut hgap hblank

end Boundary

/-- Layout does not matter: with a gap at its start or after a token, a text has the same tokens
and is the same program, or the same error up to the line. The line of a token is that of the line
breaks before it. -/
theorem scan_insert_gap {source : String} {placed : List Placed} (h : scan source = .ok placed) :
    placed = (cuts source.toList).map (fun cut => ⟨cut.token, 1 + cut.before.count '\n'⟩) ∧
    ∀ before after gap, Boundary source.toList before after → Gap gap → StartsBlank gap →
      before ++ after = source.toList ∧
      (∃ placed', scan (String.ofList (before ++ gap ++ after)) = .ok placed' ∧
        placed'.map Placed.token = placed.map Placed.token) ∧
      ∀ F, (Program.parse (F := F) (String.ofList (before ++ gap ++ after))).mapError
          Error.unplaced = (Program.parse source).mapError Error.unplaced := by
  refine ⟨scanFrom_eq_cuts h, fun before after gap hplace hgap hblank => ⟨hplace.append_eq, ?_⟩⟩
  obtain ⟨placed', hscan, htokens⟩ := scanFrom_of_spells
    (hplace.spells (spells_of_scanFrom h) hgap hblank) 1
  have hscan' : scan (String.ofList (before ++ gap ++ after)) = .ok placed' := by
    rwa [scan, String.toList_ofList]
  exact ⟨⟨placed', hscan', htokens⟩,
    fun F => (agree_parse hscan' h (sameTokens_of_map_eq htokens)).mapError_eq⟩

/-- The tokens of `2e-x` stay as they are with a comment and a line break after the second. -/
theorem scan_insert_gap_exponent :
    Boundary "2e-x".toList "2e".toList "-x".toList ∧ Gap " /*5*/\n".toList ∧
    ∃ placed, scan "2e /*5*/\n-x" = .ok placed ∧
      placed.map Placed.token = [.int 2, .identifier "e", .symbol .minus, .identifier "x"] := by
  have hspells : Spells "2e-x".toList [.int 2, .identifier "e", .symbol .minus, .identifier "x"] :=
    .token (n := 0) rfl (.token (n := 0) rfl (.token (n := 0) rfl (.token (n := 0) rfl .nil)))
  obtain ⟨placed, hscan, htokens⟩ := scanFrom_of_spells hspells 1
  have hcut : (⟨['2'], ['e'], .identifier "e", ['-', 'x']⟩ : Cut) ∈ cuts "2e-x".toList := by
    have hlater : (⟨[], ['e'], .identifier "e", ['-', 'x']⟩ : Cut) ∈ cuts ['e', '-', 'x'] := by
      rw [cuts, show head 'e' ['-', 'x'] = (.token (.identifier "e"), 0) from rfl]
      exact List.mem_cons_self
    change _ ∈ cuts ['2', 'e', '-', 'x']
    rw [cuts, show head '2' ['e', '-', 'x'] = (.token (.int 2), 0) from rfl]
    exact List.mem_cons_of_mem _ (List.mem_map_of_mem hlater)
  have hplace : Boundary "2e-x".toList "2e".toList "-x".toList := .token hcut
  have hgap : Gap " /*5*/\n".toList :=
    .blank rfl (@Gap.blockComment ['5'] _ (by decide) (.blank rfl .nil))
  obtain ⟨-, ⟨placed', hscan', htokens'⟩, -⟩ :=
    (scan_insert_gap hscan).2 _ _ _ hplace hgap ⟨' ', _, rfl, rfl⟩
  exact ⟨hplace, hgap, placed', hscan', htokens'.trans htokens⟩

end Interchange.Qasm
