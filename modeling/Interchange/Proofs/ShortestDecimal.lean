import Mathlib.Tactic.ByContra
import Interchange.Proofs.DecimalRounding
import Interchange.Proofs.ExpressionText

namespace Interchange.Number

def Decimal.value (d : Decimal) : ℚ := d.digits * 10 ^ d.power

/-- An integer power by the two natural powers that exact comparisons use. -/
theorem zpow_mul_pow_neg {a : ℚ} (ha : a ≠ 0) (z : ℤ) : a ^ z * a ^ (-z).toNat = a ^ z.toNat := by
  have hsplit : z + ((-z).toNat : ℤ) = z.toNat := by omega
  rw [← zpow_natCast, ← zpow_natCast, ← zpow_add₀ ha, hsplit]

namespace Binary

variable {b : Binary} {d : Decimal} {tie : Tie}

/-- The comparison with the midpoints is exact. -/
theorem covers_of_readsBack (hb : b.mantissa ≠ 0) (h : b.readsBack d = true) :
    b.Covers d.value := by
  have hscale : (0 : ℚ) < 4 * (2 ^ (-b.exponent).toNat * 10 ^ (-d.power).toNat) := by positivity
  have hvalue : d.value * (4 * (2 ^ (-b.exponent).toNat * 10 ^ (-d.power).toNat)) =
      (4 * d.digits * Nat.pow 10 d.power.toNat * b.denominator : ℕ) := by
    rw [Decimal.value, denominator, Nat.pow_eq, Nat.pow_eq]
    push_cast
    rw [← zpow_mul_pow_neg (by norm_num : (10 : ℚ) ≠ 0) d.power]
    ring
  have hunit {k : ℚ} {n : ℕ} (hk : 4 * k = n) :
      k * 2 ^ b.exponent * (4 * (2 ^ (-b.exponent).toNat * 10 ^ (-d.power).toNat)) =
        (n * (Nat.pow 2 b.exponent.toNat * Nat.pow 10 (-d.power).toNat) : ℕ) := by
    rw [Nat.pow_eq, Nat.pow_eq]
    push_cast
    rw [← hk, ← zpow_mul_pow_neg (two_ne_zero (α := ℚ)) b.exponent]
    ring
  have hlow : 4 * (b.mantissa - b.gap) =
      ((4 * b.mantissa - if b.narrowBelow then 1 else 2 : ℕ) : ℚ) := by
    rw [Nat.cast_sub (by split_ifs <;> omega), gap]
    split_ifs <;> push_cast <;> ring
  have hhigh : 4 * (b.mantissa + 1 / 2) = ((4 * b.mantissa + 2 : ℕ) : ℚ) := by
    push_cast
    ring
  unfold readsBack at h
  unfold Covers
  by_cases heven : b.mantissa % 2 = 0
  · rw [if_pos heven, decide_eq_true_iff] at h
    rw [if_pos heven]
    refine ⟨(mul_le_mul_iff_left₀ hscale).mp ?_, (mul_le_mul_iff_left₀ hscale).mp ?_⟩
    · rw [hvalue, hunit hlow]
      exact_mod_cast h.1
    · rw [hvalue, hunit hhigh]
      exact_mod_cast h.2
  · rw [if_neg heven, decide_eq_true_iff] at h
    rw [if_neg heven]
    refine ⟨(mul_lt_mul_iff_left₀ hscale).mp ?_, (mul_lt_mul_iff_left₀ hscale).mp ?_⟩
    · rw [hvalue, hunit hlow]
      exact_mod_cast h.1
    · rw [hvalue, hunit hhigh]
      exact_mod_cast h.2

theorem readsBack_of_onGrid? {power : ℤ} (h : b.onGrid? tie power = some d) :
    b.readsBack d = true ∧ d.power = power := by
  unfold onGrid? at h
  dsimp only at h
  split at h
  · next hlow _ => exact Option.some.inj h ▸ ⟨hlow, rfl⟩
  · next _ hhigh => exact Option.some.inj h ▸ ⟨hhigh, rfl⟩
  · cases h
  · next hlow hhigh =>
    cases tie <;> split_ifs at h <;> exact Option.some.inj h ▸ ⟨by assumption, rfl⟩

/-- Where the fewest digits come from: a grid on which some read back, or the exact value. -/
theorem exists_shortest (b : Binary) (tie : Tie) :
    ∃ d, b.shortest tie = Decimal.strip d.digits d.power ∧
      (d = b.exact ∨ ∃ n < 17, b.onGrid? tie (b.scale - (n + 1 : ℕ)) = some d) := by
  cases hfound : ((List.range 17).map fun n => b.scale - (n + 1 : ℕ)).findSome? (b.onGrid? tie) with
  | none => exact ⟨b.exact, by rw [shortest, hfound]; rfl, .inl rfl⟩
  | some d =>
    obtain ⟨power, hpower, hd⟩ := List.exists_of_findSome?_eq_some hfound
    obtain ⟨n, hn, rfl⟩ := List.mem_map.mp hpower
    exact ⟨d, by rw [shortest, hfound]; rfl, .inr ⟨n, List.mem_range.mp hn, hd⟩⟩

theorem value_exact (b : Binary) : b.exact.value = b.value := by
  unfold exact
  split_ifs with h
  · have hden : b.denominator = 1 := by rw [denominator, Int.toNat_of_nonpos (by omega)]
    rw [value_eq_div, hden, Decimal.value, zpow_zero, mul_one, Nat.cast_one, div_one]
  · obtain ⟨k, hk⟩ : ∃ k : ℕ, b.exponent = -k := ⟨(-b.exponent).toNat, by omega⟩
    rw [Decimal.value, value, hk, neg_neg, Int.toNat_natCast, Nat.pow_eq]
    push_cast
    rw [zpow_neg, zpow_neg, zpow_natCast, zpow_natCast, show (10 : ℚ) = 5 * 2 by norm_num, mul_pow]
    field_simp

end Binary

theorem Decimal.value_strip (digits : ℕ) (power : ℤ) :
    (strip digits power).value = (⟨digits, power⟩ : Decimal).value := by
  fun_induction strip digits power with
  | case1 digits power h ih =>
    have hdigits : (digits : ℚ) = 10 * (digits / 10 : ℕ) := by exact_mod_cast by omega
    rw [ih, value, value, zpow_add_one₀ (by norm_num), hdigits]
    ring
  | case2 => rfl

/-- The fewest digits that read back lie where the magnitude covers them. -/
theorem Binary.covers_shortest {b : Binary} (hb : b.mantissa ≠ 0) (tie : Tie) :
    b.Covers (b.shortest tie).value := by
  obtain ⟨d, hd, hfound⟩ := b.exists_shortest tie
  rw [hd, Decimal.value_strip]
  rcases hfound with rfl | ⟨n, -, hgrid⟩
  · exact b.value_exact ▸ b.covers_value
  · exact covers_of_readsBack hb (readsBack_of_onGrid? hgrid).1

theorem Decimal.digits_bounds {n : ℕ} (hn : n ≠ 0) :
    10 ^ ((Nat.toDigits 10 n).length - 1) ≤ n ∧ n < 10 ^ (Nat.toDigits 10 n).length := by
  have hpos : 0 < (Nat.toDigits 10 n).length := Nat.length_toDigits_pos
  refine ⟨?_, (Nat.length_toDigits_le_iff (by decide) hpos).mp le_rfl⟩
  by_contra! h
  by_cases hone : (Nat.toDigits 10 n).length - 1 = 0
  · rw [hone, pow_zero] at h
    omega
  · have := (Nat.length_toDigits_le_iff (by decide) (Nat.pos_of_ne_zero hone)).mpr h
    omega

section Reading

variable {d : Decimal}

theorem Decimal.value_bounds (hd : d.digits ≠ 0) :
    (10 : ℚ) ^ ((Nat.toDigits 10 d.digits).length + d.power - 1) ≤ d.value ∧
      d.value < 10 ^ ((Nat.toDigits 10 d.digits).length + d.power) := by
  have hten : (0 : ℚ) < 10 ^ d.power := by positivity
  have hpos : 0 < (Nat.toDigits 10 d.digits).length := Nat.length_toDigits_pos
  obtain ⟨hlow, hhigh⟩ := digits_bounds hd
  constructor
  · rw [add_sub_right_comm, zpow_add₀ (by norm_num), ← Nat.cast_pred hpos, zpow_natCast]
    exact mul_le_mul_of_nonneg_right (by exact_mod_cast hlow) hten.le
  · rw [zpow_add₀ (by norm_num), zpow_natCast]
    exact mul_lt_mul_of_pos_right (by exact_mod_cast hhigh) hten

variable {x : Float}

theorem exponent_le (hx : x.isFinite = true) : (Binary.ofBits x.toBits).exponent ≤ 971 := by
  have hfield := isFinite_iff.mp hx
  have hlt : x.toBits.toNat / 4503599627370496 % 2048 < 2048 := Nat.mod_lt _ (by decide)
  rw [Binary.exponent_ofBits]
  split_ifs <;> omega

/-- What a double covers lies within the range that is expanded. -/
theorem Binary.Covers.bounds {b : Binary} {v : ℚ} (h : b.Covers v) (hb : b.Canonical)
    (hne : b.mantissa ≠ 0) (hmax : b.exponent ≤ 971) :
    (10 : ℚ) ^ (-331 : ℤ) ≤ v ∧ v < (10 : ℚ) ^ (310 : ℤ) := by
  have hpow : (2 : ℚ) ^ 1075 ≤ 10 ^ 331 := by
    exact_mod_cast (by decide +kernel : 2 ^ 1075 ≤ 10 ^ 331)
  have hpow' : (2 : ℚ) ^ 1024 ≤ 10 ^ 310 := by
    exact_mod_cast (by decide +kernel : 2 ^ 1024 ≤ 10 ^ 310)
  have hone : (1 : ℚ) ≤ b.mantissa := by exact_mod_cast Nat.pos_of_ne_zero hne
  have hmantissa : (b.mantissa : ℚ) + 1 ≤ 2 ^ 53 := by exact_mod_cast hb.mantissa_lt
  have hgap := b.gap_le
  obtain ⟨hlow, hhigh⟩ := h.le
  constructor
  · calc (10 : ℚ) ^ (-331 : ℤ) ≤ 2 ^ (-1075 : ℤ) := by
          rw [zpow_neg, zpow_neg]
          exact inv_anti₀ (by positivity) (by exact_mod_cast hpow)
      _ = 1 / 2 * 2 ^ (-1074 : ℤ) := by
          rw [show (-1075 : ℤ) = -1 + -1074 from rfl, zpow_add₀ two_ne_zero, zpow_neg_one, one_div]
      _ ≤ (b.mantissa - b.gap) * 2 ^ b.exponent := by
          refine mul_le_mul (by linarith) ?_ (by positivity) (by linarith)
          exact zpow_le_zpow_right₀ one_le_two hb.le_exponent
      _ ≤ v := hlow
  · calc v ≤ (b.mantissa + 1 / 2) * 2 ^ b.exponent := hhigh
      _ < 2 ^ 53 * 2 ^ (971 : ℤ) := by
          refine mul_lt_mul (by linarith) ?_ (by positivity) (by positivity)
          exact zpow_le_zpow_right₀ one_le_two hmax
      _ = 2 ^ 1024 := by rw [← zpow_natCast, ← zpow_natCast, ← zpow_add₀ two_ne_zero]; rfl
      _ ≤ 10 ^ (310 : ℤ) := by exact_mod_cast hpow'

theorem Decimal.toDouble_of_covers (hx : x.isFinite = true) (hsign : isNegative x = false)
    (hne : (Binary.ofBits x.toBits).mantissa ≠ 0)
    (hv : (Binary.ofBits x.toBits).Covers d.value) : d.toDouble = x := by
  have hd : d.digits ≠ 0 := fun h => by
    have hpos := hv.pos hne
    rw [value, h, Nat.cast_zero, zero_mul] at hpos
    exact hpos.false
  obtain ⟨hlow, hhigh⟩ := value_bounds hd
  obtain ⟨hleast, hgreatest⟩ := hv.bounds (Binary.canonical_ofBits _) hne (exponent_le hx)
  have hten : (1 : ℚ) < 10 := by norm_num
  have hsmall := (zpow_lt_zpow_iff_right₀ hten).mp (hleast.trans_lt hhigh)
  have hlarge := (zpow_lt_zpow_iff_right₀ hten).mp (hlow.trans_lt hgreatest)
  have hlog : (Nat.toDigits 10 d.digits).length - 1 ≤ d.digits.log2 :=
    (Nat.le_log2 hd).mpr ((Nat.pow_le_pow_left (by decide) _).trans (digits_bounds hd).1)
  have hread : Float.ofScientific d.digits (decide (d.power < 0)) d.power.natAbs = x :=
    float_ofScientific_of_covers hd hx hsign (by omega) (by omega) hv
  unfold toDouble
  dsimp only
  rw [if_neg (by omega), if_neg (by omega)]
  split_ifs with hneg
  · rwa [decide_eq_true hneg] at hread
  · rwa [decide_eq_false hneg] at hread

end Reading

section Layout

variable {whole fraction : List Char}

theorem Decimal.read?_whole (hne : whole ≠ []) (hd : ∀ c ∈ whole, c.isDigit = true) :
    read? whole = some ⟨digitsValue whole, 0⟩ := by
  simp [read?, Param.Token.spanDigits_of_digits hd, hne, readExponent?]

theorem Decimal.read?_point (hne : whole ≠ []) (hd : ∀ c ∈ whole, c.isDigit = true)
    (hf : ∀ c ∈ fraction, c.isDigit = true) : read? (whole ++ '.' :: fraction) =
      some ⟨digitsValue (whole ++ fraction), -fraction.length⟩ := by
  have hspan : spanDigits (whole ++ '.' :: fraction) = (whole, '.' :: fraction) :=
    Param.Token.spanDigits_append hd (by rintro _ ⟨⟩; rfl)
  simp [read?, hspan, Param.Token.spanDigits_of_digits hf, hne, readExponent?]

/-- Positional digits are read as the value they are laid out from. -/
theorem Decimal.read?_layoutPositional (n : ℕ) (power : ℤ) :
    ∃ d, read? (layoutPositional false (Nat.toDigits 10 n) power) = some d ∧
      d.value = n * 10 ^ power := by
  have hdigit : ∀ c ∈ Nat.toDigits 10 n, c.isDigit = true := fun _ =>
    Nat.isDigit_of_mem_toDigits (by decide) (by decide)
  have hzeros (k : ℕ) : ∀ c ∈ List.replicate k '0', c.isDigit = true := fun c hc => by
    rw [List.eq_of_mem_replicate hc]
    rfl
  have hvalue (text : List Char) : digitsValue text = Nat.ofDigitChars 10 text 0 :=
    Nat.ofDigitChars_eq_foldl.symm
  unfold layoutPositional
  dsimp only
  rw [if_neg Bool.false_ne_true, List.append_nil]
  split_ifs with hpower hpoint
  · lift power to ℕ using hpower
    refine ⟨_, read?_whole (by simp [Nat.toDigits_ne_nil]) ?_, ?_⟩
    · exact fun c hc => (List.mem_append.mp hc).elim (hdigit c) (hzeros _ c)
    · rw [value, hvalue, Nat.ofDigitChars_append, Nat.ofDigitChars_ten_toDigits,
        Nat.ofDigitChars_replicate_zero, Int.toNat_natCast, zpow_natCast, zpow_zero, mul_one]
      push_cast
      exact mul_comm _ _
  · refine ⟨_, read?_point ?_ (fun c hc => hdigit c (List.mem_of_mem_take hc))
      (fun c hc => hdigit c (List.mem_of_mem_drop hc)), ?_⟩
    · rw [Ne, List.take_eq_nil_iff, not_or]
      exact ⟨by omega, Nat.toDigits_ne_nil⟩
    · rw [value, List.take_append_drop, hvalue, Nat.ofDigitChars_ten_toDigits, List.length_drop]
      congr 2
      exact show -((_ : ℕ) : ℤ) = power by omega
  · refine ⟨_, read?_point (List.cons_ne_nil '0' []) (hzeros 1) ?_, ?_⟩
    · exact fun c hc => (List.mem_append.mp hc).elim (hzeros _ c) (hdigit c)
    · rw [value, ← List.append_assoc, ← List.replicate_one, List.replicate_append_replicate,
        hvalue, Nat.ofDigitChars_append, Nat.ofDigitChars_replicate_zero, mul_zero,
        Nat.ofDigitChars_ten_toDigits, List.length_append, List.length_replicate]
      congr 2
      exact show -((_ : ℕ) : ℤ) = power by omega

end Layout

theorem Decimal.read?_magnitude {b : Binary} (hne : b.mantissa ≠ 0) :
    ∃ d, read? (plain.magnitude b) = some d ∧ d.value = (b.shortest .up).value := by
  rw [Style.magnitude, if_neg hne]
  exact read?_layoutPositional _ _

/-- The text of a double is read as the same double. -/
theorem readsBack_of_isFinite {x : Float} (hx : x.isFinite = true) (hsign : isNegative x = false) :
    ReadsBack x := by
  rw [ReadsBack, toList_write hx, hsign, if_neg Bool.false_ne_true]
  by_cases hzero : (Binary.ofBits x.toBits).mantissa = 0
  · have hlt := x.toBits.toNat_lt
    have hpositive : x.toBits.toNat / 9223372036854775808 ≠ 1 := by simpa [isNegative] using hsign
    have hbits : x.toBits.toNat = (0.0 : Float).toBits.toNat := by
      change _ = 0
      rw [Binary.mantissa_ofBits] at hzero
      split_ifs at hzero <;> omega
    rw [Style.magnitude, if_pos hzero, eq_of_toBits hbits]
    rfl
  · have hcovers := Binary.covers_shortest hzero .up
    obtain ⟨d, hread, hvalue⟩ := Decimal.read?_magnitude hzero
    rw [← hvalue] at hcovers
    rw [hread, Option.map_some, Decimal.toDouble_of_covers hx hsign hzero hcovers]

theorem readsBack_abs {x : Float} (hx : x.isFinite = true) : ReadsBack x.abs :=
  readsBack_of_isFinite (isFinite_abs hx) (isNegative_abs hx)

end Interchange.Number
