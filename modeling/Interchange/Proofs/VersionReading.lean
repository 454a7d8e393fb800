import Interchange.Proofs.DoubleValue
import Interchange.Proofs.ProgramReading
import Interchange.Proofs.RegularParser

namespace Interchange

namespace Number

/-- Halves go to the even neighbour, so an even number is reached from half a unit below it on. -/
theorem le_roundDiv_iff {num den r : ℕ} (hden : 0 < den) (hr : r % 2 = 0) :
    r ≤ roundDiv num den ↔ 2 * r * den ≤ 2 * num + den := by
  have hsplit : den * (num / den) + num % den = num := Nat.div_add_mod num den
  have hrest : num % den < den := Nat.mod_lt _ hden
  unfold roundDiv
  dsimp only
  generalize num / den = q at hsplit ⊢
  generalize num % den = m at hsplit hrest ⊢
  subst hsplit
  rcases lt_trichotomy r (q + 1) with h | rfl | h
  · have hle : r * den ≤ q * den := Nat.mul_le_mul_right den (Nat.lt_succ_iff.mp h)
    refine iff_of_true ?_ (by linarith)
    split_ifs <;> omega
  · -- Here the quotient is odd, so a half goes up.
    have hodd : q % 2 = 1 := by omega
    have hright : 2 * (q + 1) * den ≤ 2 * (den * q + m) + den ↔ den ≤ 2 * m := by
      constructor <;> intro h <;> linarith
    rw [hright]
    split_ifs <;> omega
  · have hlt : (q + 2) * den ≤ r * den := Nat.mul_le_mul_right den h
    refine iff_of_false ?_ (by linarith)
    split_ifs <;> omega

def tenths (b : Binary) : ℕ := roundDiv (b.numerator * 10) b.denominator

theorem le_tenths_iff (b : Binary) (k : ℕ) : 10 * k ≤ tenths b ↔ (k : ℚ) - 1 / 20 ≤ b.value := by
  have hden : (0 : ℚ) < b.denominator := Nat.cast_pos.mpr b.denominator_pos
  rw [tenths, le_roundDiv_iff b.denominator_pos (by omega), Binary.value_eq_div, le_div_iff₀ hden]
  rw [← Nat.cast_le (α := ℚ)]
  push_cast
  constructor <;> intro h <;> linarith

theorem padded_toDigits (n : ℕ) :
    List.replicate (2 - (Nat.toDigits 10 n).length) '0' ++ Nat.toDigits 10 n =
      Nat.toDigits 10 (n / 10) ++ [Nat.digitChar (n % 10)] := by
  by_cases h : n < 10
  · rw [Nat.toDigits_of_lt_base h, Nat.div_eq_of_lt h, Nat.mod_eq_of_lt h]
    rfl
  · have hpos : 0 < (Nat.toDigits 10 (n / 10)).length := Nat.length_toDigits_pos
    rw [Nat.toDigits_of_base_le (by decide) (not_lt.mp h), List.length_append,
      List.length_singleton, Nat.sub_eq_zero_of_le (by omega), List.replicate_zero,
      List.nil_append]

/-- With one place, a finite double is written as its whole tenths. -/
theorem fixed_one {x : Float} (h : x.isFinite = true) :
    fixed 1 x = String.ofList (signed x (Nat.toDigits 10 (tenths (.ofBits x.toBits) / 10) ++
      '.' :: [Nat.digitChar (tenths (.ofBits x.toBits) % 10)])) := by
  unfold fixed
  dsimp only
  rw [if_pos h, Nat.pow_eq, pow_one, ← tenths, padded_toDigits]
  simp

/-- Digits before a point start with one given digit and the point only if they are that digit. -/
theorem digit_point_isPrefix_iff {k m : ℕ} (hk : k < 10) (rest : List Char) :
    [Nat.digitChar k, '.'] <+: Nat.toDigits 10 m ++ '.' :: rest ↔ m = k := by
  have hone : Nat.toDigits 10 k = [Nat.digitChar k] := Nat.toDigits_of_lt_base hk
  have hdigits : ∀ {n : ℕ} {c : Char}, c ∈ Nat.toDigits 10 n → c ≠ '.' := by
    rintro n c hc rfl
    have hdigit : '.'.isDigit = true := Nat.isDigit_of_mem_toDigits (by decide) (by decide) hc
    cases hdigit
  constructor
  · intro h
    have hm : Nat.toDigits 10 m = [Nat.digitChar k] := by
      cases hms : Nat.toDigits 10 m with
      | nil => exact absurd hms Nat.toDigits_ne_nil
      | cons c cs =>
        rw [hms, List.cons_append, List.cons_prefix_cons] at h
        cases cs with
        | nil => rw [h.1]
        | cons d ds =>
          rw [List.cons_append, List.cons_prefix_cons] at h
          have hd : d ∈ Nat.toDigits 10 m := by simp [hms]
          exact absurd h.2.1.symm (hdigits hd)
    rw [← Qasm.digitsValue_toDigits m, hm, ← hone, Qasm.digitsValue_toDigits]
  · rintro rfl
    rw [hone]
    exact ⟨rest, rfl⟩

end Number

namespace Qasm
open Number (value?)

namespace Version

def major : Version → ℕ
  | v2 => 2
  | v3 => 3

theorem accepts_iff {v : Version} {text : List Char} :
    v.accepts (String.ofList text) = true ↔ [Nat.digitChar v.major, '.'] <+: text := by
  have hstart : v.accepts (String.ofList text) =
      (String.ofList text).startsWith (String.ofList [Nat.digitChar v.major, '.']) := by
    cases v <;> rfl
  rw [hstart, String.startsWith_string_iff, String.toList_ofList, String.toList_ofList]

theorem two_le_major (v : Version) : 2 ≤ v.major := by cases v <;> decide

theorem major_le_three (v : Version) : v.major ≤ 3 := by cases v <;> decide

theorem accepts_whole_iff {v : Version} {n : ℕ} : v.accepts s!"{n}.0" = true ↔ n = v.major := by
  have htext : s!"{n}.0" = String.ofList (Nat.toDigits 10 n ++ '.' :: ['0']) := by
    rw [← String.toList_inj]
    simp [toString]
  rw [htext, accepts_iff, Number.digit_point_isPrefix_iff (v.major_le_three.trans_lt (by decide))]

/-- Rounding to one place moves the interval of a version down by a twentieth. -/
theorem accepts_fixed_iff {v : Version} {x : Float} :
    v.accepts (Number.fixed 1 x) = true ↔
      ∃ q, value? x = some q ∧ (v.major : ℚ) - 1 / 20 ≤ q ∧ q < v.major + 19 / 20 := by
  have hmajor : (2 : ℚ) ≤ v.major := by exact_mod_cast v.two_le_major
  by_cases hx : x.isFinite = true
  · rw [Number.fixed_one hx, accepts_iff, value?, if_pos hx]
    simp only [Option.some.injEq, exists_eq_left']
    generalize Number.Binary.ofBits x.toBits = b
    cases hneg : Number.isNegative x with
    | true =>
      rw [Number.signed, if_pos hneg]
      have hle : b.signedValue true ≤ 0 := neg_nonpos.mpr b.value_nonneg
      refine iff_of_false ?_ fun h => by linarith [h.1]
      rw [List.cons_prefix_cons]
      cases v <;> simp [major]
    | false =>
      have htenths : Number.tenths b / 10 = v.major ↔
          10 * v.major ≤ Number.tenths b ∧ ¬10 * (v.major + 1) ≤ Number.tenths b := by omega
      rw [Number.signed, if_neg (Bool.eq_false_iff.mp hneg),
        Number.digit_point_isPrefix_iff (v.major_le_three.trans_lt (by decide)), htenths,
        Number.le_tenths_iff, Number.le_tenths_iff, not_le]
      change _ ↔ _ ≤ b.value ∧ b.value < _
      push_cast
      constructor <;> rintro ⟨hlow, hhigh⟩ <;> constructor <;> linarith
  · rw [Number.fixed, if_neg hx, accepts_iff, value?, if_neg hx]
    refine iff_of_false (fun h => ?_) (by simp)
    unfold Number.special Number.signed at h
    split_ifs at h <;> cases v <;> simp [major] at h

theorem value?_of_magnitude {x : Float} {b : Number.Binary} (hfinite : x.isFinite = true)
    (hneg : Number.isNegative x = false) (hb : .ofBits x.toBits = b) : value? x = some b.value := by
  rw [value?, if_pos hfinite, hneg, hb]
  rfl

theorem value?_two : value? 2.0 = some 2 := by
  rw [value?_of_magnitude (b := ⟨4503599627370496, -51, true⟩) (by decide) (by decide) (by decide)]
  norm_num [Number.Binary.value]

theorem value?_three : value? 3.0 = some 3 := by
  rw [value?_of_magnitude (b := ⟨6755399441055744, -51, false⟩) (by decide) (by decide) (by decide)]
  norm_num [Number.Binary.value]

theorem value?_four : value? 4.0 = some 4 := by
  rw [value?_of_magnitude (b := ⟨4503599627370496, -50, true⟩) (by decide) (by decide) (by decide)]
  norm_num [Number.Binary.value]

theorem ofToken?_float_iff {v : Version} {d : Number.Decimal} :
    ofToken? (.float d) = some v ↔
      ∃ q, value? d.toDouble = some q ∧ (v.major : ℚ) ≤ q ∧ q < v.major + 1 := by
  have htwo := Number.between_iff (x := d.toDouble) value?_two (by norm_num) value?_three
    (by norm_num)
  have hthree := Number.between_iff (x := d.toDouble) value?_three (by norm_num) value?_four
    (by norm_num)
  rw [ofToken?]
  simp only [htwo, hthree]
  cases value? d.toDouble with
  | none => simp
  | some q =>
    simp only [Option.some.injEq, exists_eq_left']
    cases v with
    | v2 =>
      have hnext : ((2 : ℕ) : ℚ) + 1 = 3 := by norm_num
      rw [major, hnext, Nat.cast_ofNat]
      split_ifs with h h' <;> simp [h]
    | v3 =>
      have hnext : ((3 : ℕ) : ℚ) + 1 = 4 := by norm_num
      rw [major, hnext, Nat.cast_ofNat]
      split_ifs with h h'
      · refine iff_of_false (by simp) fun h' => by linarith [h.2, h'.1]
      · simp [h']
      · simp [h']

def number? : Token → Option ℚ
  | .float d => value? d.toDouble
  | .int n => some n
  | _ => none

def written? : Token → Option String
  | .float d => some (Number.fixed 1 d.toDouble)
  | .int n => some s!"{n}.0"
  | _ => none

theorem ofToken?_iff {v : Version} {t : Token} :
    ofToken? t = some v ↔ ∃ q, number? t = some q ∧ (v.major : ℚ) ≤ q ∧ q < v.major + 1 := by
  cases t with
  | float d => exact ofToken?_float_iff
  | int n =>
    have hwhole : ((v.major : ℚ) ≤ n ∧ (n : ℚ) < v.major + 1) ↔ n = v.major := by
      norm_cast
      omega
    simp only [number?, Option.some.injEq, exists_eq_left', hwhole]
    match n with
    | 0 | 1 => cases v <;> simp [ofToken?, major]
    | 2 | 3 => cases v <;> simp [ofToken?, major]
    | n + 4 => cases v <;> simp [ofToken?, major]
  | _ => simp [ofToken?, number?]

theorem accepts_written_iff {v : Version} {t : Token} :
    (∃ text, written? t = some text ∧ v.accepts text = true) ↔
      ∃ q, number? t = some q ∧ (v.major : ℚ) - 1 / 20 ≤ q ∧ q < v.major + 19 / 20 := by
  cases t with
  | float d =>
    simp only [written?, Option.some.injEq, exists_eq_left']
    exact accepts_fixed_iff
  | int n =>
    simp only [written?, number?, Option.some.injEq, exists_eq_left', accepts_whole_iff]
    constructor
    · rintro rfl
      constructor <;> linarith
    · rintro ⟨hlow, hhigh⟩
      have hle : v.major < n + 1 := by exact_mod_cast (by linarith : (v.major : ℚ) < n + 1)
      have hlt : n < v.major + 1 := by exact_mod_cast (by linarith : (n : ℚ) < v.major + 1)
      omega
  | _ => simp [written?, number?]

def headerToken? (source : String) : Option Token :=
  match firstToken? source.toList with
  | some (.ok (.keyword .openqasm), rest) => match firstToken? rest with
    | some (.ok token, _) => some token
    | _ => none
  | _ => none

theorem detect?_eq (source : String) : detect? source = (headerToken? source).bind ofToken? := by
  unfold detect? headerToken?
  rcases firstToken? source.toList with _ | ⟨_ | token, rest⟩
  · rfl
  · rfl
  · cases token with
    | keyword k =>
      cases k with
      | openqasm =>
        dsimp only
        rcases firstToken? rest with _ | ⟨_ | _, _⟩ <;> rfl
      | _ => rfl
    | _ => rfl

end Version

section Header

variable {F : Type}

open Qasm.Parser Version

theorem firstToken?_of_spells_nil {text : List Char} (h : Spells text []) :
    firstToken? text = none := by
  generalize hts : [] = ts at h
  induction h with
  | nil => rw [firstToken?]
  | separator hhead _ ih =>
    rw [firstToken?, hhead]
    exact ih hts
  | token => cases hts

theorem headerToken?_eq_some_iff {source : String} {tokens : List Placed} {t : Token}
    (h : scan source = .ok tokens) :
    headerToken? source = some t ↔
      ∃ first second rest, tokens = first :: second :: rest ∧
        first.token = .keyword .openqasm ∧ second.token = t := by
  have hspells := spells_of_scanFrom h
  unfold headerToken?
  match tokens, hspells with
  | [], hspells => simp [firstToken?_of_spells_nil hspells]
  | [first], hspells =>
    obtain ⟨rest, hfirst, hrest⟩ := firstToken?_of_spells hspells
    have hsecond := firstToken?_of_spells_nil hrest
    rw [hfirst]
    split <;> simp_all
  | first :: second :: more, hspells =>
    obtain ⟨rest, hfirst, hrest⟩ := firstToken?_of_spells hspells
    obtain ⟨rest', hsecond, -⟩ := firstToken?_of_spells hrest
    rw [hfirst]
    split <;> simp_all

theorem seq_eq_error_iff {α β : Type} {p : Parser F α} {f : α → Parser F β} {ts : List Placed}
    {e : Error F} : (p >>= f) ts = .error e ↔
      p ts = .error e ∨ ∃ a rest, p ts = .ok (a, rest) ∧ f a rest.val = .error e := by
  constructor
  · intro h
    rcases bind_eq_error_iff.mp h with hp | ⟨⟨a, rest⟩, hp, h⟩
    · exact .inl hp
    · rcases bind_eq_error_iff.mp h with hf | ⟨_, _, h⟩
      · exact .inr ⟨a, rest, hp, hf⟩
      · cases h
  · rintro (hp | ⟨a, rest, hp, hf⟩)
    · exact bind_eq_error_iff.mpr (.inl hp)
    · exact bind_eq_error_iff.mpr (.inr ⟨_, hp, bind_eq_error_iff.mpr (.inl hf)⟩)

theorem keyword_of_token {k : Keyword} {first : Placed} (h : first.token = .keyword k)
    (ts : List Placed) : keyword (F := F) k (first :: ts) = .ok ((), ⟨ts, Nat.le_succ _⟩) := by
  change (if first.token = .keyword k then _ else _ : Parser F Unit) ts >>= _ = _
  rw [if_pos h]
  rfl

theorem exists_of_keyword {k : Keyword} {ts : List Placed}
    {rest : { rest : List Placed // rest.length ≤ ts.length }}
    (h : keyword (F := F) k ts = .ok ((), rest)) :
    ∃ first, ts = first :: rest.val ∧ first.token = .keyword k := by
  cases ts with
  | nil => cases h
  | cons first ts =>
    by_cases htoken : first.token = .keyword k
    · rw [keyword_of_token htoken] at h
      cases h
      exact ⟨first, rfl, htoken⟩
    · change (if first.token = .keyword k then _ else _ : Parser F Unit) ts >>= _ = _ at h
      rw [if_neg htoken] at h
      cases h

theorem known_iff (text : String) : ("2.".isPrefixOf text || "3.".isPrefixOf text) = true ↔
    ∃ v : Version, v.accepts text = true := by
  rw [Bool.or_eq_true]
  constructor
  · rintro (h | h)
    · exact ⟨v2, h⟩
    · exact ⟨v3, h⟩
  · rintro ⟨_ | _, h⟩
    · exact .inl h
    · exact .inr h

theorem version_of_written {second : Placed} {text : String}
    (h : written? second.token = some text) (rest : List Placed) :
    version (F := F) (second :: rest) = (version.known text rest >>= fun r =>
      .ok (r.1, ⟨r.2.val, Nat.le_succ_of_le r.2.property⟩)) := by
  obtain ⟨t, line⟩ := second
  cases t with
  | float d | int n =>
    obtain rfl := Option.some.inj h
    rfl
  | _ => cases h

theorem version_of_accepts {second : Placed} {text : String}
    (hw : written? second.token = some text) (hv : ∃ v : Version, v.accepts text = true)
    (rest : List Placed) :
    version (F := F) (second :: rest) = .ok (text, ⟨rest, Nat.le_succ _⟩) := by
  rw [version_of_written hw, version.known, if_pos ((known_iff text).mpr hv)]
  rfl

theorem version_of_not_accepts {second : Placed}
    (h : ¬∃ text, written? second.token = some text ∧ ∃ v : Version, v.accepts text = true)
    (rest : List Placed) :
    ∃ text, version (F := F) (second :: rest) = .error (.invalidVersion text) := by
  cases hw : written? second.token with
  | none =>
    obtain ⟨t, line⟩ := second
    cases t with
    | float | int => cases hw
    | _ => exact ⟨_, rfl⟩
  | some text =>
    refine ⟨text, ?_⟩
    rw [version_of_written hw, version.known,
      if_neg fun hv => h ⟨text, hw, (known_iff text).mp hv⟩]
    rfl

theorem exists_of_header {ts : List Placed} {text : String}
    {rest : { rest : List Placed // rest.length ≤ ts.length }}
    (h : header (F := F) ts = .ok (text, rest)) :
    ∃ first second more, ts = first :: second :: more ∧ first.token = .keyword .openqasm ∧
      written? second.token = some text ∧ ∃ v : Version, v.accepts text = true := by
  obtain ⟨_, ⟨after, _⟩, _, hkeyword, h, -⟩ := seq_eq_ok h
  obtain ⟨found, _, _, hversion, h, -⟩ := seq_eq_ok h
  obtain ⟨first, hts, hfirst⟩ := exists_of_keyword hkeyword
  obtain rfl : found = text := by
    obtain ⟨_, _, _, _, hpure, -⟩ := seq_eq_ok h
    cases hpure
    rfl
  dsimp only at hversion
  cases after with
  | nil => cases hversion
  | cons second more =>
    refine ⟨first, second, more, hts, hfirst, ?_⟩
    by_cases hknown : ∃ text, written? second.token = some text ∧
        ∃ v : Version, v.accepts text = true
    · obtain ⟨text, hw, hv⟩ := hknown
      rw [version_of_accepts hw hv] at hversion
      cases hversion
      exact ⟨hw, hv⟩
    · obtain ⟨text, hinvalid⟩ := version_of_not_accepts (F := F) hknown more
      rw [hinvalid] at hversion
      cases hversion

/-- A header is refused for its version exactly when no version accepts the text for its token. -/
theorem header_eq_invalidVersion_iff {ts : List Placed} :
    (∃ text, header (F := F) ts = .error (.invalidVersion text)) ↔
      ∃ first second more, ts = first :: second :: more ∧ first.token = .keyword .openqasm ∧
        ¬∃ text, written? second.token = some text ∧ ∃ v : Version, v.accepts text = true := by
  constructor
  · rintro ⟨text, h⟩
    rcases seq_eq_error_iff.mp h with h | ⟨_, ⟨after, _⟩, hkeyword, h⟩
    · cases (Regular.keyword .openqasm ts).2 _ h
    · obtain ⟨first, hts, hfirst⟩ := exists_of_keyword hkeyword
      dsimp only at h
      cases after with
      | nil => cases h
      | cons second more =>
        refine ⟨first, second, more, hts, hfirst, ?_⟩
        rintro ⟨text, hw, hv⟩
        rcases seq_eq_error_iff.mp h with h | ⟨_, _, _, h⟩
        · rw [version_of_accepts hw hv] at h
          cases h
        · cases (Regular.terminated _ _).2 _ h
  · rintro ⟨first, second, more, rfl, hfirst, hunknown⟩
    obtain ⟨text, hversion⟩ := version_of_not_accepts (F := F) hunknown more
    exact ⟨text, seq_eq_error_iff.mpr (.inr ⟨_, _, keyword_of_token hfirst _,
      seq_eq_error_iff.mpr (.inl hversion)⟩)⟩

/-- A program is refused for its version exactly when its header is. -/
theorem parse_eq_invalidVersion_iff {source : String} :
    (∃ text, Program.parse (F := F) source = .error (.invalidVersion text)) ↔
      ∃ tokens, scan source = .ok tokens ∧
        ∃ text, header (F := F) tokens = .error (.invalidVersion text) := by
  rw [Program.parse]
  cases hscan : scan source with
  | error e =>
    obtain ⟨line, text⟩ := e
    simp
  | ok tokens =>
    simp only [Except.ok.injEq, exists_eq_left']
    refine exists_congr fun text => ?_
    rw [bind_eq_error_iff]
    refine or_iff_left ?_
    rintro ⟨⟨number, rest⟩, -, h⟩
    rcases bind_eq_error_iff.mp h with h | ⟨_, _, h⟩
    · cases raises_statements rest.val _ h
    · cases h

theorem exists_of_parse {source : String} {program : Program}
    (h : Program.parse (F := F) source = .ok program) :
    ∃ tokens rest, scan source = .ok tokens ∧
      header (F := F) tokens = .ok (program.version, rest) := by
  rw [Program.parse] at h
  cases hscan : scan source with
  | error e =>
    obtain ⟨line, text⟩ := e
    rw [hscan] at h
    cases h
  | ok tokens =>
    rw [hscan] at h
    obtain ⟨⟨number, rest⟩, hheader, h⟩ := bind_eq_ok_iff.mp h
    obtain ⟨statements, -, h⟩ := bind_eq_ok_iff.mp h
    cases h
    exact ⟨tokens, rest, rfl, hheader⟩

theorem parse_of_only_header {source : String} {t : Token} {text : String}
    (hscan : scan source = .ok [⟨.keyword .openqasm, 1⟩, ⟨t, 1⟩, ⟨.symbol .semicolon, 1⟩])
    (hw : written? t = some text) (hv : ∃ v : Version, v.accepts text = true) :
    Program.parse (F := F) source = .ok ⟨text, []⟩ := by
  have hversion : version (F := F) [⟨t, 1⟩, ⟨.symbol .semicolon, 1⟩] = _ :=
    version_of_accepts hw hv [⟨.symbol .semicolon, 1⟩]
  rw [Program.parse, hscan]
  change (header _ >>= _) = _
  have hheader : header (F := F) [⟨.keyword .openqasm, 1⟩, ⟨t, 1⟩, ⟨.symbol .semicolon, 1⟩] =
      .ok (text, ⟨[], Nat.zero_le _⟩) := by
    change ((version _ >>= _) >>= _) = _
    rw [hversion]
    rfl
  rw [hheader]
  change (statements [] >>= _) = _
  rw [statements]
  rfl

end Header

namespace Version

def headerNumber? (source : String) : Option ℚ := (headerToken? source).bind number?

theorem detect?_eq_some_iff {source : String} {v : Version} :
    detect? source = some v ↔
      ∃ q, headerNumber? source = some q ∧ (v.major : ℚ) ≤ q ∧ q < v.major + 1 := by
  rw [detect?_eq, headerNumber?]
  cases headerToken? source with
  | none => simp
  | some t => exact ofToken?_iff

variable {F : Type} {source : String}

theorem accepts_of_parse {program : Program} (h : Program.parse (F := F) source = .ok program) :
    ∃ q, headerNumber? source = some q ∧ (∃ v : Version, v.accepts program.version = true) ∧
      ∀ v : Version, v.accepts program.version = true ↔
        (v.major : ℚ) - 1 / 20 ≤ q ∧ q < v.major + 19 / 20 := by
  obtain ⟨tokens, rest, hscan, hheader⟩ := exists_of_parse h
  obtain ⟨first, second, more, htokens, hfirst, hwritten, hknown⟩ := exists_of_header hheader
  have htoken : headerToken? source = some second.token :=
    (headerToken?_eq_some_iff hscan).mpr ⟨first, second, more, htokens, hfirst, rfl⟩
  have haccepts : ∀ v : Version, v.accepts program.version = true ↔
      ∃ q, number? second.token = some q ∧ (v.major : ℚ) - 1 / 20 ≤ q ∧ q < v.major + 19 / 20 := by
    intro v
    rw [← accepts_written_iff, hwritten]
    simp
  obtain ⟨w, hw⟩ := hknown
  obtain ⟨q, hq, -⟩ := (haccepts w).mp hw
  refine ⟨q, by rw [headerNumber?, htoken]; exact hq, ⟨w, hw⟩, fun v => ?_⟩
  rw [haccepts, hq]
  simp

/-- The versions after rounding cover one interval. -/
theorem exists_rounded_iff {q : ℚ} :
    (∃ v : Version, (v.major : ℚ) - 1 / 20 ≤ q ∧ q < v.major + 19 / 20) ↔
      39 / 20 ≤ q ∧ q < 79 / 20 := by
  constructor
  · rintro ⟨_ | _, hlow, hhigh⟩ <;> norm_num [major] at hlow hhigh <;> constructor <;> linarith
  · rintro ⟨hlow, hhigh⟩
    rcases lt_or_ge q (59 / 20) with h | h
    · refine ⟨v2, ?_⟩
      constructor <;> norm_num [major] <;> linarith
    · refine ⟨v3, ?_⟩
      constructor <;> norm_num [major] <;> linarith

theorem invalidVersion_of_headerNumber? {q : ℚ} (h : headerNumber? source = some q) :
    (∃ text, Program.parse (F := F) source = .error (.invalidVersion text)) ↔
      (∃ tokens, scan source = .ok tokens) ∧ ¬(39 / 20 ≤ q ∧ q < 79 / 20) := by
  obtain ⟨t, ht, hq⟩ := Option.bind_eq_some_iff.mp h
  have hknown : (∃ text, written? t = some text ∧ ∃ v : Version, v.accepts text = true) ↔
      39 / 20 ≤ q ∧ q < 79 / 20 := by
    rw [← exists_rounded_iff]
    constructor
    · rintro ⟨text, hw, v, hv⟩
      obtain ⟨q', hq', hbounds⟩ := accepts_written_iff.mp ⟨text, hw, hv⟩
      obtain rfl := Option.some.inj (hq.symm.trans hq')
      exact ⟨v, hbounds⟩
    · rintro ⟨v, hbounds⟩
      obtain ⟨text, hw, hv⟩ := accepts_written_iff.mpr ⟨q, hq, hbounds⟩
      exact ⟨text, hw, v, hv⟩
  rw [parse_eq_invalidVersion_iff, ← hknown]
  constructor
  · rintro ⟨tokens, hscan, hheader⟩
    obtain ⟨first, second, more, htokens, hfirst, hunknown⟩ :=
      header_eq_invalidVersion_iff.mp hheader
    have hsecond : headerToken? source = some second.token :=
      (headerToken?_eq_some_iff hscan).mpr ⟨first, second, more, htokens, hfirst, rfl⟩
    obtain rfl := Option.some.inj (ht.symm.trans hsecond)
    exact ⟨⟨tokens, hscan⟩, hunknown⟩
  · rintro ⟨⟨tokens, hscan⟩, hunknown⟩
    obtain ⟨first, second, more, htokens, hfirst, rfl⟩ := (headerToken?_eq_some_iff hscan).mp ht
    exact ⟨tokens, hscan,
      header_eq_invalidVersion_iff.mpr ⟨first, second, more, htokens, hfirst, hunknown⟩⟩

/-- The numbers that one place rounds up to a whole number. -/
def RoundsUpTo (k : ℕ) (q : ℚ) : Prop := (k : ℚ) - 1 / 20 ≤ q ∧ q < k

/-- A program that is read has the detected version unless its number rounds up to a version. -/
theorem exists_detect?_iff {program : Program} (h : Program.parse (F := F) source = .ok program) :
    (∃ v, detect? source = some v ∧ v.accepts program.version = true) ↔
      ∃ q, headerNumber? source = some q ∧ ∀ v : Version, ¬RoundsUpTo v.major q := by
  obtain ⟨q, hq, ⟨w, hw⟩, haccepts⟩ := accepts_of_parse h
  have hbounds := (haccepts w).mp hw
  simp only [detect?_eq_some_iff, hq, Option.some.injEq, exists_eq_left', haccepts, RoundsUpTo]
  constructor
  · rintro ⟨v, hdetected, haccepted⟩ u ⟨hlow, hhigh⟩
    have hlt : v.major < u.major := by exact_mod_cast hdetected.1.trans_lt hhigh
    have hle : (v.major : ℚ) + 1 ≤ u.major := by exact_mod_cast hlt
    linarith [haccepted.2]
  · intro h
    have hle : (w.major : ℚ) ≤ q := not_lt.mp fun hlt => h w ⟨hbounds.1, hlt⟩
    exact ⟨w, ⟨hle, by linarith [hbounds.2]⟩, hbounds⟩

/-- The two readings of a header agree unless its number lies in the last twentieth below a whole
one: there the program is of the version above, and below 4 it is of none. -/
theorem readings_agree_iff (source : String) :
    (∀ program, Program.parse (F := F) source = .ok program →
      ((∃ v, detect? source = some v ∧ v.accepts program.version = true) ↔
        ∃ q, headerNumber? source = some q ∧ ∀ v : Version, ¬RoundsUpTo v.major q)) ∧
    ∀ v, detect? source = some v →
      ((∃ text, Program.parse (F := F) source = .error (.invalidVersion text)) ↔
        (∃ tokens, scan source = .ok tokens) ∧
          ∃ q, headerNumber? source = some q ∧ RoundsUpTo 4 q) := by
  refine ⟨fun program h => exists_detect?_iff h, fun v h => ?_⟩
  obtain ⟨q, hq, hlow, hhigh⟩ := detect?_eq_some_iff.mp h
  have htwo : (2 : ℚ) ≤ v.major := by exact_mod_cast v.two_le_major
  have hthree : (v.major : ℚ) ≤ 3 := by exact_mod_cast v.major_le_three
  have hfour : ¬(39 / 20 ≤ q ∧ q < 79 / 20) ↔ RoundsUpTo 4 q := by
    rw [RoundsUpTo, not_and, not_lt]
    constructor
    · intro h
      have hle := h (by linarith)
      constructor <;> push_cast <;> linarith
    · rintro ⟨hle, -⟩ -
      push_cast at hle
      linarith
  rw [invalidVersion_of_headerNumber? hq, hfour, hq]
  simp

theorem parse_roundedUp : Program.parse (F := F) "OPENQASM 2.97;" = .ok ⟨"3.0", []⟩ := by
  refine parse_of_only_header (t := .float ⟨297, -2⟩) (by decide +kernel) ?_ ⟨v3, by decide +kernel⟩
  exact congrArg some (by decide +kernel)

theorem detect?_roundedUp : detect? "OPENQASM 2.97;" = some v2 := by decide +kernel

theorem not_accepts_roundedUp :
    ¬∃ v, detect? "OPENQASM 2.97;" = some v ∧ v.accepts "3.0" = true := by
  rintro ⟨v, hv, haccepts⟩
  obtain rfl := Option.some.inj (detect?_roundedUp.symm.trans hv)
  exact absurd haccepts (by decide +kernel)

theorem readings_agree_iff_roundedUp :
    Program.parse (F := Unit) "OPENQASM 2.97;" = .ok ⟨"3.0", []⟩ ∧
    detect? "OPENQASM 2.97;" = some v2 ∧
    (¬∃ q, headerNumber? "OPENQASM 2.97;" = some q ∧ ∀ v : Version, ¬RoundsUpTo v.major q) ∧
    ¬((∃ tokens, scan "OPENQASM 2.97;" = .ok tokens) ∧
      ∃ q, headerNumber? "OPENQASM 2.97;" = some q ∧ RoundsUpTo 4 q) := by
  obtain ⟨hread, hdetected⟩ := readings_agree_iff (F := Unit) "OPENQASM 2.97;"
  refine ⟨parse_roundedUp, detect?_roundedUp,
    (hread _ parse_roundedUp).not.mp not_accepts_roundedUp,
    (hdetected _ detect?_roundedUp).not.mp ?_⟩
  rintro ⟨text, h⟩
  rw [parse_roundedUp] at h
  cases h

/-- At 2.97 reading finds version 3 and detection does not; at 3.97 detection finds version 3 and
reading finds none. -/
theorem readings_disagree :
    (Program.parse (F := Unit) "OPENQASM 2.97;" = .ok ⟨"3.0", []⟩ ∧
      ¬∃ v, detect? "OPENQASM 2.97;" = some v ∧ v.accepts "3.0" = true) ∧
    detect? "OPENQASM 3.97;" = some v3 ∧
      ∃ text, Program.parse (F := Unit) "OPENQASM 3.97;" = .error (.invalidVersion text) := by
  have hscan : scan "OPENQASM 3.97;" =
      .ok [⟨.keyword .openqasm, 1⟩, ⟨.float ⟨397, -2⟩, 1⟩, ⟨.symbol .semicolon, 1⟩] := by
    decide +kernel
  have hunknown : ¬∃ v : Version,
      v.accepts (Number.fixed 1 (Number.Decimal.toDouble ⟨397, -2⟩)) = true := by
    rintro ⟨_ | _, h⟩ <;> exact absurd h (by decide +kernel)
  refine ⟨⟨parse_roundedUp, not_accepts_roundedUp⟩, by decide +kernel,
    parse_eq_invalidVersion_iff.mpr ⟨_, hscan,
      header_eq_invalidVersion_iff.mpr ⟨_, _, _, rfl, rfl, ?_⟩⟩⟩
  rintro ⟨text, hw, hv⟩
  obtain rfl := Option.some.inj hw
  exact hunknown hv

end Version

end Qasm

end Interchange
