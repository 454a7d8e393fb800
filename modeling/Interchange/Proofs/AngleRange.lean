import Interchange.Proofs.ShortestDecimal

namespace Interchange

namespace Number

namespace Binary

variable {a b : Binary}

theorem signed_congr (hmantissa : a.mantissa = b.mantissa) (hexponent : a.exponent = b.exponent)
    (negative : Bool) : a.signed negative = b.signed negative := by
  by_cases hzero : a.mantissa = 0
  · rw [signed_of_eq_zero hzero, signed_of_eq_zero (hmantissa ▸ hzero)]
  · rw [signed_of_ne_zero hzero, signed_of_ne_zero (hmantissa ▸ hzero)]
    exact finite_congr hmantissa hexponent

/-- Zero aside, numbers that compare equal have one form. -/
theorem eq_of_compare_signed {s t : Bool} (hne : a.mantissa ≠ 0)
    (h : (a.signed s).compare (b.signed t) = some .eq) :
    s = t ∧ a.mantissa = b.mantissa ∧ a.exponent = b.exponent := by
  rw [signed_of_ne_zero hne] at h
  by_cases hzero : b.mantissa = 0
  · rw [signed_of_eq_zero hzero] at h
    cases s <;> cases h
  rw [signed_of_ne_zero hzero] at h
  have hsame : s = t ∧
      (compare a.exponent b.exponent).then (compare a.mantissa b.mantissa) = .eq := by
    cases s <;> cases t
    · exact ⟨rfl, Option.some.inj h⟩
    · cases h
    · cases h
    · exact ⟨rfl, Ordering.swap_inj.mp (Option.some.inj h)⟩
  rw [Ordering.then_eq_eq, compare_eq_iff_eq, compare_eq_iff_eq] at hsame
  exact ⟨hsame.1, hsame.2.2, hsame.2.1⟩

end Binary

theorem float_eq_of_beq {x y : Float} (hx : x.isFinite = true) (hy : y.isFinite = true)
    (hne : (Binary.ofBits x.toBits).mantissa ≠ 0) (h : (x == y) = true) : x = y := by
  have hcompare : x.toModel.unpack.compare y.toModel.unpack = some .eq := by
    change (x.toModel.unpack.compare y.toModel.unpack == some .eq) = true at h
    simpa using h
  rw [unpack_of_isFinite hx, unpack_of_isFinite hy] at hcompare
  obtain ⟨hsign, hmantissa, hexponent⟩ := Binary.eq_of_compare_signed hne hcompare
  have habs : x.abs = y.abs := by
    rw [toModel_of_isFinite (isFinite_abs hx) (isNegative_abs hx),
      toModel_of_isFinite (isFinite_abs hy) (isNegative_abs hy), ofBits_abs hx, ofBits_abs hy,
      Binary.signed_congr hmantissa hexponent]
  cases hn : isNegative x with
  | false =>
    rw [← abs_of_not_negative hx hn, habs, abs_of_not_negative hy (hsign ▸ hn)]
  | true =>
    rw [← neg_abs_of_negative hx hn, habs, neg_abs_of_negative hy (hsign ▸ hn)]

theorem Decimal.power_le_strip (digits : ℕ) (power : ℤ) :
    power ≤ (strip digits power).power := by
  fun_induction strip digits power with
  | case1 _ _ _ ih => omega
  | case2 => exact le_rfl

namespace Binary

variable {b : Binary}

theorem two_pow_le_zpow {n : ℕ} {e : ℤ} (h : n ≤ e) : (2 : ℚ) ^ n ≤ 2 ^ e := by
  rw [← zpow_natCast]
  exact zpow_le_zpow_right₀ one_le_two h

/-- What a double covers is below `2 ^ 64` if its last bit stands for less than `2 ^ 12`. -/
theorem Covers.lt_limit {v : ℚ} (h : b.Covers v) (hb : b.Canonical) (hlt : b.exponent < 12) :
    v < 2 ^ 64 := by
  have hmantissa : (b.mantissa : ℚ) + 1 ≤ 2 ^ 53 := by exact_mod_cast hb.mantissa_lt
  have hpow : (2 : ℚ) ^ b.exponent ≤ 2 ^ 11 := by
    exact_mod_cast zpow_le_zpow_right₀ (one_le_two (α := ℚ)) (by omega : b.exponent ≤ 11)
  calc v ≤ (b.mantissa + 1 / 2) * 2 ^ b.exponent := h.le.2
    _ ≤ (2 ^ 53 - 1 / 2) * 2 ^ 11 :=
      mul_le_mul (by linarith) hpow (by positivity) (by norm_num)
    _ < 2 ^ 64 := by norm_num

theorem limit_le_value_iff (hb : b.Canonical) : 2 ^ 64 ≤ b.value ↔ 12 ≤ b.exponent := by
  refine ⟨fun h => ?_, fun h => ?_⟩
  · by_contra hlt
    exact h.not_gt (b.covers_value.lt_limit hb (not_le.mp hlt))
  · have hmantissa : (2 : ℚ) ^ 52 ≤ b.mantissa := by exact_mod_cast hb.normal (by omega)
    calc (2 : ℚ) ^ 64 = 2 ^ 52 * 2 ^ 12 := by norm_num
      _ ≤ b.value := mul_le_mul hmantissa (two_pow_le_zpow h) (by positivity) (by positivity)

/-- Only at the limit itself does a double cover something on the other side. -/
theorem Covers.limit_le {v : ℚ} (h : b.Covers v) (hb : b.Canonical) (hle : 12 ≤ b.exponent)
    (hne : ¬(b.mantissa = 4503599627370496 ∧ b.exponent = 12)) : 2 ^ 64 ≤ v := by
  have hgap := b.gap_le
  have hnormal := hb.normal (by omega)
  refine le_trans ?_ h.le.1
  rcases hnormal.eq_or_lt with hleast | hlt
  -- a power of two above the limit is twice as large, so the gap below it does not matter
  · have hmantissa : (2 : ℚ) ^ 52 ≤ b.mantissa := by exact_mod_cast hnormal
    have hpow : (2 : ℚ) ^ 13 ≤ 2 ^ b.exponent := two_pow_le_zpow (by omega)
    calc (2 : ℚ) ^ 64 ≤ (2 ^ 52 - 1 / 2) * 2 ^ 13 := by norm_num
      _ ≤ (b.mantissa - b.gap) * 2 ^ b.exponent :=
        mul_le_mul (by linarith) hpow (by positivity) (by linarith)
  · have hmantissa : (2 : ℚ) ^ 52 + 1 ≤ b.mantissa := by exact_mod_cast hlt
    calc (2 : ℚ) ^ 64 = 2 ^ 52 * 2 ^ 12 := by norm_num
      _ ≤ (b.mantissa - b.gap) * 2 ^ b.exponent :=
        mul_le_mul (by linarith) (two_pow_le_zpow hle) (by positivity) (by linarith)

theorem power_shortest_nonneg (hb : b.Canonical) (h : 12 ≤ b.exponent) (tie : Tie) :
    0 ≤ (b.shortest tie).power := by
  have hnormal := hb.normal (by omega)
  have hlog : 52 ≤ b.mantissa.log2 := (Nat.le_log2 (by omega)).mpr hnormal
  -- the scale is not below the estimate it starts from, and no grid is finer by more than 17
  have hscale : 17 ≤ b.scale := by
    unfold scale
    dsimp only
    split_ifs <;> omega
  obtain ⟨d, hd, hfound⟩ := b.exists_shortest tie
  rw [hd]
  refine le_trans ?_ (Decimal.power_le_strip _ _)
  rcases hfound with rfl | ⟨n, hn, hgrid⟩
  · rw [exact, if_pos (by omega)]
  · rw [(readsBack_of_onGrid? hgrid).2]
    omega

/-- The fewest digits stand on the same side of the limit as the double. At the limit itself what
reads back reaches below it, but the digits do not. -/
theorem limit_le_shortest_iff (hb : b.IsDouble) (hne : b.mantissa ≠ 0) :
    2 ^ 64 ≤ (b.shortest .up).value ↔ 12 ≤ b.exponent := by
  have hcovers := covers_shortest hne .up
  refine ⟨fun h => ?_, fun h => ?_⟩
  · by_contra hlt
    exact h.not_gt (hcovers.lt_limit hb.toCanonical (not_le.mp hlt))
  by_cases hlimit : b.mantissa = 4503599627370496 ∧ b.exponent = 12
  · have hnarrow := hb.narrow_iff.mpr ⟨hlimit.1, by omega⟩
    obtain ⟨mantissa, exponent, narrow⟩ := b
    obtain ⟨rfl, rfl⟩ := hlimit
    obtain rfl : narrow = true := hnarrow
    rw [show shortest _ .up = ⟨18446744073709552, 3⟩ by decide +kernel]
    norm_num [Decimal.value]
  · exact hcovers.limit_le hb.toCanonical h hlimit

end Binary

section Text

open Qasm Lexeme

variable {b : Binary} {x : Float} {w : List Char}

theorem Decimal.eq_of_read?_digits {d : Decimal} (hw : NumberText w false)
    (h : read? w = some d) : d = ⟨digitsValue w, 0⟩ := by
  cases hw with
  | int hnil hd =>
    rw [read?_whole hnil hd] at h
    exact (Option.some.inj h).symm

theorem digitsValue_magnitude (hne : b.mantissa ≠ 0) (hw : NumberText (plain.magnitude b) false) :
    (digitsValue (plain.magnitude b) : ℚ) = (b.shortest .up).value := by
  obtain ⟨d, hread, hvalue⟩ := Decimal.read?_magnitude hne
  obtain rfl := Decimal.eq_of_read?_digits hw hread
  rw [← hvalue, Decimal.value, zpow_zero, mul_one]

theorem ofNumber_of_limit_le (hb : b.IsDouble) (h : 12 ≤ b.exponent) :
    NumberText (plain.magnitude b) false ∧ ofNumber (plain.magnitude b) false = .invalid := by
  have hne : b.mantissa ≠ 0 := by
    have := hb.normal (by omega)
    omega
  have hpower := Binary.power_shortest_nonneg hb.toCanonical h .up
  have hw := numberText_magnitude hne
  rw [decide_eq_false (not_lt.mpr hpower)] at hw
  refine ⟨hw, ?_⟩
  have hlimit := (Binary.limit_le_shortest_iff hb hne).mpr h
  rw [← digitsValue_magnitude hne hw] at hlimit
  have hlarge : integerLimit ≤ digitsValue (plain.magnitude b) := by exact_mod_cast hlimit
  rw [ofNumber, if_neg Bool.false_ne_true, if_neg (not_lt.mpr hlarge)]

theorem exists_token_of_lt_limit (hb : b.IsDouble) (h : b.exponent < 12) {isFloat : Bool}
    (hw : NumberText (plain.magnitude b) isFloat) :
    ∃ t, ofNumber (plain.magnitude b) isFloat = .token t := by
  cases isFloat with
  | true =>
    obtain ⟨d, hd⟩ := Param.Token.exists_read_of_numberText hw
    exact ⟨_, by rw [ofNumber, if_pos rfl, hd]⟩
  | false =>
    have hsmall : digitsValue (plain.magnitude b) < integerLimit := by
      by_cases hzero : b.mantissa = 0
      · rw [Style.magnitude, if_pos hzero]
        decide
      · by_contra hlarge
        have hlimit : (2 : ℚ) ^ 64 ≤ digitsValue (plain.magnitude b) := by
          exact_mod_cast not_lt.mp hlarge
        rw [digitsValue_magnitude hzero hw, Binary.limit_le_shortest_iff hb hzero] at hlimit
        exact h.not_ge hlimit
    exact ⟨_, by rw [ofNumber, if_neg Bool.false_ne_true, if_pos hsmall]⟩

theorem Decimal.toDouble_natural {n : ℕ} (hn : n < integerLimit) :
    (⟨n, 0⟩ : Decimal).toDouble = Float.ofNat n := by
  rcases Nat.eq_zero_or_pos n with rfl | hpos
  · decide +kernel
  have hlength : (Nat.toDigits 10 n).length ≤ 20 :=
    (Nat.length_toDigits_le_iff (by decide) (by decide)).mpr (hn.trans (by decide))
  unfold toDouble
  dsimp only
  rw [if_neg (by omega), if_neg (by omega), if_neg (lt_irrefl 0)]
  rfl

/-- The expression of a number token has the value that the digits are read as. -/
theorem exists_leaf_of_token {isFloat : Bool} {t : Token} (hw : NumberText w isFloat)
    (ht : ofNumber w isFloat = .token t)
    (hread : (Decimal.read? w).map Decimal.toDouble = some x) :
    ∃ e, leaf? t = some e ∧
      ∀ (env : Environment Float) (scope : Scope Float), e.toParam env scope = .ok (.const x) := by
  obtain ⟨d, hd, rfl⟩ := Option.map_eq_some_iff.mp hread
  cases isFloat with
  | true =>
    rw [ofNumber, if_pos rfl, hd] at ht
    obtain rfl := Lexeme.token.inj ht
    exact ⟨.float d, rfl, fun _ _ => by rw [Expression.toParam]; rfl⟩
  | false =>
    obtain rfl := Decimal.eq_of_read?_digits hw hd
    rw [ofNumber, if_neg Bool.false_ne_true] at ht
    split_ifs at ht with hsmall
    obtain rfl := Lexeme.token.inj ht
    refine ⟨.int (digitsValue w), rfl, fun _ _ => ?_⟩
    rw [Expression.toParam, Decimal.toDouble_natural hsmall]
    rfl

theorem exists_abs_value_iff (p : ℚ → Prop) :
    (∃ v, value? x = some v ∧ p |v|) ↔ x.isFinite = true ∧ p (Binary.ofBits x.toBits).value := by
  have habs : |(Binary.ofBits x.toBits).signedValue (isNegative x)| =
      (Binary.ofBits x.toBits).value := by
    rw [Binary.signedValue, apply_ite abs, abs_neg, ite_self, abs_of_nonneg (Binary.value_nonneg _)]
  rw [value?]
  split_ifs with hx <;> simp [hx, habs]

end Text

end Number

namespace Qasm

open Number Lexeme

namespace PiForm

theorem exists_toParam (f : PiForm) :
    ∃ q : Param Float, f.expression.toParam {} {} = .ok q ∧ q.value? = some f.value := by
  have hvalue {p : Param Float} (h : p.value? = some f.value) : p.simplify.value? = some f.value :=
    Param.value?_simplify h
  cases f with
  | pi => exact ⟨.pi, rfl, rfl⟩
  | minusPi | half | minusHalf | quarter | minusQuarter | twice =>
    refine ⟨_, by simp only [expression, Expression.toParam]; rfl, hvalue ?_⟩
    decide +kernel

theorem ofBits_value (f : PiForm) : (f.value : Float).isFinite = true ∧
    (Binary.ofBits (f.value : Float).toBits).mantissa ≠ 0 ∧
      (Binary.ofBits (f.value : Float).toBits).exponent < 12 := by
  cases f <;> decide +kernel

/-- An angle that is written with `pi` is the very double of its form. -/
theorem value_eq_of_isFinite {v : Float} {f : PiForm} (hv : v.isFinite = true)
    (h : of? v = some f) : f.value = v := by
  have hbeq : (f.value == v) = true := List.find?_some (p := fun f : PiForm => f.value == v) h
  obtain ⟨hfinite, hne, -⟩ := f.ofBits_value
  exact float_eq_of_beq hfinite hv hne hbeq

end PiForm

variable {v : Float}

theorem PiForm.of?_of_limit_le (hv : v.isFinite = true)
    (h : 12 ≤ (Binary.ofBits v.toBits).exponent) : PiForm.of? v = none := by
  refine Option.eq_none_iff_forall_ne_some.mpr fun f hf => ?_
  obtain rfl := PiForm.value_eq_of_isFinite hv hf
  exact f.ofBits_value.2.2.not_ge h

theorem scan_writeAngle_of_limit_le (hv : v.isFinite = true)
    (h : 12 ≤ (Binary.ofBits v.toBits).exponent) :
    ∃ text fault, writeAngle v = .ok text ∧ scan text = .error fault := by
  have hform := PiForm.of?_of_limit_le hv h
  obtain ⟨hw, hinvalid⟩ := ofNumber_of_limit_le (Binary.isDouble_ofBits v.toBits) h
  cases hscan : scan (Numeral.write v) with
  | error fault => exact ⟨_, fault, writeAngle_of_none hv hform, hscan⟩
  | ok placed =>
    obtain ⟨t, ht⟩ := exists_token_of_spells hw (toList_write hv) (spells_of_scanFrom hscan)
    rw [hinvalid] at ht
    cases ht

theorem angleReadsBack_of_lt_limit (hv : v.isFinite = true)
    (h : (Binary.ofBits v.toBits).exponent < 12) : AngleReadsBack v := by
  cases hform : PiForm.of? v with
  | some f =>
    obtain rfl := PiForm.value_eq_of_isFinite hv hform
    obtain ⟨q, hq, hvalue⟩ := f.exists_toParam
    exact ⟨_, q, writeAngle_of_form hv hform, readsAs_of_chunk f.chunk (.sumOf f.derives) hq,
      hvalue⟩
  | none =>
    obtain ⟨isFloat, hw⟩ := exists_numberText_magnitude (.ofBits v.toBits)
    obtain ⟨t, ht⟩ := exists_token_of_lt_limit (Binary.isDouble_ofBits v.toBits) h hw
    obtain ⟨e, he, hleaf⟩ :=
      exists_leaf_of_token hw ht ((readsBack_abs_iff hv).mp (readsBack_abs hv))
    have htext : IsNumeral (Numeral.write v).toList (isNegative v) t :=
      ⟨_, isFloat, hw, ht, toList_write hv⟩
    have hsigned : ∃ q : Param Float,
        (signedExpression (isNegative v) e).toParam {} {} = .ok q ∧ q.value? = some v := by
      cases hn : isNegative v with
      | false => exact ⟨_, hleaf {} {}, congrArg some (abs_of_not_negative hv hn)⟩
      | true =>
        have hneg : (Param.neg (.const v.abs)).value? = some v :=
          congrArg some (neg_abs_of_negative hv hn)
        refine ⟨_, ?_, Param.value?_simplify hneg⟩
        rw [signedExpression, if_pos rfl, Expression.toParam, hleaf]
        rfl
    obtain ⟨q, hq, hvalue⟩ := hsigned
    exact ⟨_, q, writeAngle_of_none hv hform,
      readsAs_of_chunk htext.chunk (.sumOf (.productOf (derives_signed he _))) hq, hvalue⟩

theorem AngleReadsBack.isFinite (h : AngleReadsBack v) : v.isFinite = true := by
  obtain ⟨text, q, hwrite, -⟩ := h
  exact isFinite_of_writeAngle hwrite

theorem AngleReadsBack.scan_ne_error (h : AngleReadsBack v) {text : String} {fault : ℕ × String}
    (hwrite : writeAngle v = .ok text) : scan text ≠ .error fault := by
  obtain ⟨text', q, hwrite', ⟨tokens, -, -, hscan, -⟩, -⟩ := h
  obtain rfl := Except.ok.inj (hwrite'.symm.trans hwrite)
  intro herror
  rw [hscan] at herror
  cases herror

/-- The angles that are read as the double they were written from are those below `2 ^ 64`. Every
other finite angle is written too, as an integer beyond the limit for tokens. -/
theorem angleReadsBack_iff (v : Float) :
    (AngleReadsBack v ↔ ∃ x, value? v = some x ∧ |x| < 2 ^ 64) ∧
      ((∃ text fault, writeAngle v = .ok text ∧ scan text = .error fault) ↔
        ∃ x, value? v = some x ∧ 2 ^ 64 ≤ |x|) := by
  have hlimit := Binary.limit_le_value_iff (Binary.canonical_ofBits v.toBits)
  refine ⟨Iff.trans ⟨fun h => ?_, fun h => ?_⟩ (exists_abs_value_iff (· < 2 ^ 64)).symm,
    Iff.trans ⟨fun h => ?_, fun h => ?_⟩ (exists_abs_value_iff (2 ^ 64 ≤ ·)).symm⟩
  · refine ⟨h.isFinite, lt_of_not_ge fun hle => ?_⟩
    obtain ⟨text, fault, hwrite, hscan⟩ := scan_writeAngle_of_limit_le h.isFinite (hlimit.mp hle)
    exact h.scan_ne_error hwrite hscan
  · exact angleReadsBack_of_lt_limit h.1 (lt_of_not_ge fun hle => h.2.not_ge (hlimit.mpr hle))
  · obtain ⟨text, fault, hwrite, hscan⟩ := h
    have hv : v.isFinite = true := isFinite_of_writeAngle hwrite
    refine ⟨hv, hlimit.mpr (le_of_not_gt fun hlt => ?_)⟩
    exact (angleReadsBack_of_lt_limit hv hlt).scan_ne_error hwrite hscan
  · exact scan_writeAngle_of_limit_le h.1 (hlimit.mp h.2)

theorem writeAngle_twentyOneDigits :
    writeAngle (1e20 : Float) = .ok "100000000000000000000" ∧
      (∃ fault, scan "100000000000000000000" = .error fault) ∧ ¬AngleReadsBack (1e20 : Float) := by
  have hfinite : (1e20 : Float).isFinite = true := by decide +kernel
  have hform : PiForm.of? (1e20 : Float) = none := by decide +kernel
  have htext : Numeral.write (1e20 : Float) = "100000000000000000000" := by decide +kernel
  have hwrite := writeAngle_of_none hfinite hform
  rw [htext] at hwrite
  obtain ⟨text, fault, hwritten, hscan⟩ := scan_writeAngle_of_limit_le hfinite (by decide +kernel)
  obtain rfl := Except.ok.inj (hwrite.symm.trans hwritten)
  exact ⟨hwrite, ⟨fault, hscan⟩, fun h => h.scan_ne_error hwrite hscan⟩

end Qasm

end Interchange
