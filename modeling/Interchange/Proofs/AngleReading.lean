import Interchange.Proofs.AngleText
import Interchange.Scalar.Double

namespace Interchange
open Qasm Lexeme

namespace Number

theorem numberText_layoutPositional {digits : List Char} (hne : digits ≠ [])
    (hd : ∀ c ∈ digits, c.isDigit = true) (power : ℤ) :
    NumberText (layoutPositional false digits power) (decide (power < 0)) := by
  have hzeros : ∀ n, ∀ c ∈ List.replicate n '0', c.isDigit = true := by
    intro n c hc
    rw [List.eq_of_mem_replicate hc]
    rfl
  by_cases hpower : 0 ≤ power
  · rw [decide_eq_false (Int.not_lt.mpr hpower), layoutPositional, if_pos hpower,
      if_neg Bool.false_ne_true, List.append_nil]
    refine .int (by simp [hne]) fun c hc => ?_
    exact (List.mem_append.mp hc).elim (hd c) (hzeros _ c)
  rw [decide_eq_true (Int.not_le.mp hpower), layoutPositional, if_neg hpower]
  by_cases hpoint : 0 < (digits.length : ℤ) + power
  · rw [if_pos hpoint]
    refine .decimal ?_ (fun c hc => hd c (List.mem_of_mem_take hc)) fun c hc =>
      hd c (List.mem_of_mem_drop hc)
    rw [Ne, List.take_eq_nil_iff]
    simp only [hne, or_false]
    omega
  · rw [if_neg hpoint]
    exact NumberText.decimal (List.cons_ne_nil '0' []) (by simp) fun c hc =>
      (List.mem_append.mp hc).elim (hzeros _ c) (hd c)

theorem numberText_magnitude {b : Binary} (hne : b.mantissa ≠ 0) :
    NumberText (plain.magnitude b) (decide ((b.shortest .up).power < 0)) := by
  rw [Style.magnitude, if_neg hne]
  exact numberText_layoutPositional Nat.toDigits_ne_nil
    (fun _ => Nat.isDigit_of_mem_toDigits (b := 10) (by decide) (by decide)) _

theorem exists_numberText_magnitude (b : Binary) :
    ∃ isFloat, NumberText (plain.magnitude b) isFloat := by
  by_cases hzero : b.mantissa = 0
  · rw [Style.magnitude, if_pos hzero]
    exact ⟨false, numberText_toDigits 0⟩
  · exact ⟨_, numberText_magnitude hzero⟩

theorem toList_write {x : Float} (hx : x.isFinite = true) :
    (plain.write x).toList = if isNegative x then '-' :: plain.magnitude (.ofBits x.toBits)
      else plain.magnitude (.ofBits x.toBits) := by
  rw [Style.write, if_pos hx, String.toList_ofList]
  rfl

/-- A finite number is written as digits, with a point or not, and with a minus when negative. -/
theorem exists_numberText_plain {x : Float} (hx : x.isFinite = true) :
    ∃ w isFloat, NumberText w isFloat ∧
      (plain.write x).toList = if isNegative x then '-' :: w else w := by
  obtain ⟨isFloat, htext⟩ := exists_numberText_magnitude (.ofBits x.toBits)
  exact ⟨_, isFloat, htext, toList_write hx⟩

end Number

namespace Qasm

theorem Lexeme.NumberText.exists_token {w : List Char} {isFloat : Bool} {ts : List Token}
    (hw : NumberText w isFloat) (hs : Spells w ts) : ∃ t, ofNumber w isFloat = .token t := by
  have hend : Ends [] := by rintro _ ⟨⟩
  obtain ⟨c, tail, rfl, hhead⟩ := head_number hw hend
  rw [List.append_nil] at hhead
  cases hs with
  | separator h =>
    rw [hhead] at h
    unfold ofNumber at h
    split_ifs at h
    · split at h <;> cases h
    · cases h
    · cases h
  | token h => exact ⟨_, congrArg Prod.fst (hhead.symm.trans h)⟩

theorem leaf?_of_ofNumber {w : List Char} {isFloat : Bool} {t : Token}
    (h : ofNumber w isFloat = .token t) : ∃ e, leaf? t = some e := by
  unfold ofNumber at h
  split_ifs at h
  · split at h
    next value _ =>
      obtain rfl := Lexeme.token.inj h
      exact ⟨.float value, rfl⟩
    next => cases h
  · obtain rfl := Lexeme.token.inj h
    exact ⟨.int _, rfl⟩

theorem ReadsAs.toParam {F : Type} [Scalar F] {env : Environment F} {text : String} {q : Param F}
    (h : ReadsAs env text q) {ts : List Token} {e : Expression} (hchunk : Chunk text.toList ts)
    (he : Derives .sum ts e) : e.toParam env {} = .ok q := by
  obtain ⟨placed, e', rest', hscan, hread, -, hq⟩ := h
  obtain ⟨placed', hscan', hplaced⟩ := hchunk.scan
  obtain rfl := Except.ok.inj (hscan.symm.trans hscan')
  subst hplaced
  obtain ⟨rest, hrest, -⟩ := he.expression (F := F)
  obtain rfl := congrArg Prod.fst (Except.ok.inj (hread.symm.trans hrest))
  exact hq

/-- The text of an angle is read as a parameter of the same value. -/
def AngleReadsBack {F : Type} [Scalar F] [Numeral F] (v : F) : Prop :=
  ∃ text q, writeAngle v = .ok text ∧ ReadsAs {} text q ∧ q.value? = some v

theorem isFinite_of_writeAngle {F : Type} [Scalar F] [Numeral F] {v : F} {text : String}
    (h : writeAngle v = .ok text) : Scalar.isFinite v = true := by
  by_contra hv
  rw [Bool.not_eq_true] at hv
  rw [writeAngle, hv] at h
  cases h

section

variable {F : Type} [Scalar F] {env env' : Environment F}

mutual

/-- Environments with the same inputs read an expression alike. -/
theorem toParam_of_inputs_eq (h : env.inputs = env'.inputs) (scope : Scope F) (e : Expression) :
    e.toParam env scope = e.toParam env' scope :=
  match e with
  | .int _ | .float _ | .pi | .tau | .euler => by simp only [Expression.toParam]
  | .identifier _ => by simp only [Expression.toParam, h]
  | .neg e | .paren e => by simp only [Expression.toParam, toParam_of_inputs_eq h scope e]
  | .binary l _ r => by
    simp only [Expression.toParam, toParam_of_inputs_eq h scope l, toParam_of_inputs_eq h scope r]
  | .call _ args => by simp only [Expression.toParam, toParams_of_inputs_eq h scope args]

theorem toParams_of_inputs_eq (h : env.inputs = env'.inputs) (scope : Scope F)
    (es : List Expression) :
    Expression.toParams env scope es = Expression.toParams env' scope es :=
  match es with
  | [] => by simp only [Expression.toParams]
  | e :: es => by
    simp only [Expression.toParams, toParam_of_inputs_eq h scope e,
      toParams_of_inputs_eq h scope es]

end

end

theorem exists_token_of_spells {text : List Char} {negative isFloat : Bool} {w : List Char}
    {ts : List Token} (hw : NumberText w isFloat) (htext : text = if negative then '-' :: w else w)
    (hs : Spells text ts) : ∃ t, ofNumber w isFloat = .token t := by
  cases negative with
  | false =>
    subst htext
    exact hw.exists_token hs
  | true =>
    obtain ⟨c, tail, rfl, hc⟩ := hw.head
    subst htext
    have hhead := head_minus tail (c := c) (by rintro rfl; cases hc)
    cases hs with
    | separator h _ => exact absurd (hhead.symm.trans h) (by simp)
    | token h hr =>
      obtain rfl := congrArg Prod.snd (hhead.symm.trans h)
      exact hw.exists_token hr

theorem numeralExpression_of_spells {text : List Char} {negative isFloat : Bool} {w : List Char}
    {ts : List Token} (hw : NumberText w isFloat) (htext : text = if negative then '-' :: w else w)
    (hs : Spells text ts) : ∃ t e, IsNumeral text negative t ∧ leaf? t = some e := by
  obtain ⟨t, ht⟩ := exists_token_of_spells hw htext hs
  obtain ⟨e, he⟩ := leaf?_of_ofNumber ht
  exact ⟨t, e, ⟨w, isFloat, hw, ht, htext⟩, he⟩

/-- The text of an angle that reads back is an expression in the middle of a text too. -/
theorem AngleReadsBack.isExpression {v : Float} {text : String} (h : AngleReadsBack v)
    (hwrite : writeAngle v = .ok text) : IsExpression text := by
  obtain ⟨_, q, hwrite', hread, -⟩ := h
  obtain rfl := Except.ok.inj (hwrite.symm.trans hwrite')
  have hfin := isFinite_of_writeAngle hwrite
  cases hf : PiForm.of? v with
  | some f =>
    obtain rfl := Except.ok.inj (hwrite.symm.trans (writeAngle_of_form hfin hf))
    exact ⟨_, f.chunk, .piForm f⟩
  | none =>
    obtain rfl := Except.ok.inj (hwrite.symm.trans (writeAngle_of_none hfin hf))
    obtain ⟨w, isFloat, hw, htext⟩ := Number.exists_numberText_plain hfin
    -- the text is cut into tokens by assumption: an integer beyond the limit is not
    obtain ⟨placed, _, _, hscan, -⟩ := hread
    obtain ⟨t, e, ht, he⟩ := numeralExpression_of_spells hw htext (spells_of_scanFrom hscan)
    exact ⟨_, ht.chunk, .of_power (derives_signed he _)⟩

theorem AngleReadsBack.exists_expression {v : Float} (h : AngleReadsBack v) :
    ∃ text ts e q, writeAngle v = .ok text ∧ Chunk text.toList ts ∧ Derives .sum ts e ∧
      e.toParam {} {} = .ok q ∧ q.value? = some v := by
  obtain ⟨text, q, hwrite, hread, hv⟩ := h
  obtain ⟨ts, hchunk, hoperand⟩ := AngleReadsBack.isExpression ⟨text, q, hwrite, hread, hv⟩ hwrite
  obtain ⟨e, he⟩ := hoperand.alone
  exact ⟨text, ts, e, q, hwrite, hchunk, .sumOf he, hread.toParam hchunk (.sumOf he), hv⟩

end Qasm

end Interchange
