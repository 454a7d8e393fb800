import Interchange.Proofs.AngleText
import Interchange.Proofs.InputNames
import Interchange.Proofs.ParamValue

namespace Interchange
open Qasm

namespace Param

variable {F : Type} [Scalar F]

/-- The factors of an angle that is written as a product or a quotient: the first, whether it is
divided, and by what it is divided or multiplied. -/
def factors? : PiForm → Option (Param F × Bool × Param F)
  | .pi | .minusPi => none
  | .half => some (pi, true, const (Scalar.ofNat 2))
  | .minusHalf => some (neg pi, true, const (Scalar.ofNat 2))
  | .quarter => some (pi, true, const (Scalar.ofNat 4))
  | .minusQuarter => some (neg pi, true, const (Scalar.ofNat 4))
  | .twice => some (const (Scalar.ofNat 2), false, pi)

def scaled (divides : Bool) (a b : Param F) : Param F := if divides then div a b else mul a b

/-- What a quotient is read as: the divisor stands without parentheses, so that only its first
factor divides. -/
def quotient (a b : Param F) : Param F :=
  match b with
  | const v => match (PiForm.of? v).bind factors? with
    | some (first, divides, second) => scaled divides (div a first) second
    | none => div a b
  | _ => div a b

/-- What the text of an expression is read as. -/
def regrouped : Param F → Param F
  | const v => const v
  | pi => pi
  | ref r => ref r
  | neg e => neg e.regrouped
  | add a b => add a.regrouped b.regrouped
  | sub a b => sub a.regrouped b.regrouped
  | mul a b => mul a.regrouped b.regrouped
  | div a b => quotient a.regrouped b.regrouped

/-- No divisor is one of the angles that are written as a product or a quotient. -/
def DividesPlainly : Param F → Prop
  | const _ | pi | ref _ => True
  | neg e => e.DividesPlainly
  | add a b | sub a b | mul a b => a.DividesPlainly ∧ b.DividesPlainly
  | div a b => a.DividesPlainly ∧ b.DividesPlainly ∧
      ∀ v ∈ [Scalar.halfPi, -Scalar.halfPi, Scalar.quarterPi, -Scalar.quarterPi, Scalar.tau],
        b ≠ const v

theorem quotient_eq_scaled (a b : Param F) : ∃ divides x y, quotient a b = scaled divides x y := by
  cases b with
  | const v =>
    rw [quotient]
    split
    · exact ⟨_, _, _, rfl⟩
    · exact ⟨true, _, _, rfl⟩
  | _ => exact ⟨true, _, _, rfl⟩

theorem quotient_quotient (q a b : Param F) :
    quotient q (quotient a b) = div q (quotient a b) := by
  obtain ⟨_ | _, x, y, h⟩ := quotient_eq_scaled a b
  all_goals
    rw [h]
    rfl

section Exact

variable [ExactArithmetic F]

theorem scaled_mul_equivalent (divides : Bool) (q a c : Param F) :
    Equivalent (scaled divides (mul q a) c) (mul q (scaled divides a c)) := by
  intro b v
  cases divides with
  | false =>
    simp only [scaled, Bool.false_eq_true, if_false, evaluate_mul_eq_ok]
    constructor
    · rintro ⟨_, z, ⟨x, y, hx, hy, rfl⟩, hz, rfl⟩
      exact ⟨x, y * z, hx, ⟨y, z, hy, hz, rfl⟩, (ExactArithmetic.mul_assoc x y z).symm⟩
    · rintro ⟨x, _, hx, ⟨y, z, hy, hz, rfl⟩, rfl⟩
      exact ⟨x * y, z, ⟨x, y, hx, hy, rfl⟩, hz, ExactArithmetic.mul_assoc x y z⟩
  | true =>
    simp only [scaled, if_true, evaluate_mul_eq_ok, evaluate_div_eq_ok]
    constructor
    · rintro ⟨_, z, ⟨x, y, hx, hy, rfl⟩, hz, hne, rfl⟩
      exact ⟨x, y / z, hx, ⟨y, z, hy, hz, hne, rfl⟩, (ExactArithmetic.mul_div_assoc x y z).symm⟩
    · rintro ⟨x, _, hx, ⟨y, z, hy, hz, hne, rfl⟩, rfl⟩
      exact ⟨x * y, z, ⟨x, y, hx, hy, rfl⟩, hz, hne, ExactArithmetic.mul_div_assoc x y z⟩

theorem value?_div {p q : Param F} {x y : F} (hp : p.value? = some x) (hq : q.value? = some y)
    (hy : y ≠ 0) : (div p q).value? = some (x / y) := by
  simp [value?, hp, hq, beq_zero hy]

theorem factors?_equivalent {f : PiForm} {first second : Param F} {divides : Bool}
    (h : factors? f = some (first, divides, second)) :
    (scaled divides first second).Equivalent (const f.value) := by
  have htwo : (Scalar.ofNat 2 : F) ≠ 0 :=
    ExactArithmetic.ofNat_two (F := F) ▸ ExactArithmetic.two_ne_zero
  cases f with
  | pi | minusPi => cases h
  | half =>
    cases h
    refine .of_value? (value?_div rfl rfl htwo) ?_
    rw [ExactArithmetic.ofNat_two]
    rfl
  | minusHalf =>
    cases h
    refine .of_value? (value?_div rfl rfl htwo) ?_
    rw [ExactArithmetic.ofNat_two, ExactArithmetic.neg_div]
    rfl
  | quarter =>
    cases h
    exact .of_value? (value?_div rfl rfl ExactArithmetic.four_ne_zero) rfl
  | minusQuarter =>
    cases h
    refine .of_value? (value?_div rfl rfl ExactArithmetic.four_ne_zero) ?_
    rw [ExactArithmetic.neg_div]
    rfl
  | twice =>
    cases h
    refine .of_value? rfl ?_
    rw [ExactArithmetic.ofNat_two]
    rfl

end Exact

end Param

namespace Qasm

variable {F : Type} [Scalar F]

/-- An expression stands for a parameter, or for one that evaluates like it. -/
def Expression.Means (env : Environment F) (e : Expression) (p : Param F) : Prop :=
  ∃ q, e.toParam env {} = .ok q ∧ q.Equivalent p

namespace Expression.Means
open Param

variable {env : Environment F} {e l r : Expression} {p q : Param F}

theorem congr (h : e.Means env p) (hpq : p.Equivalent q) : e.Means env q := by
  obtain ⟨s, hs, hsp⟩ := h
  exact ⟨s, hs, hsp.trans hpq⟩

theorem paren (h : e.Means env p) : (Expression.paren e).Means env p := h

theorem pi : Expression.pi.Means env .pi := ⟨_, rfl, .refl _⟩

theorem int (n : ℕ) : (Expression.int n).Means env (.const (Scalar.ofNat n)) := ⟨_, rfl, .refl _⟩

theorem identifier {name : String} (h : env.inputs.lookup name = some p) :
    (Expression.identifier name).Means env p := by
  refine ⟨p, ?_, .refl p⟩
  rw [toParam, h]
  rfl

variable [ExactArithmetic F]

theorem neg (h : e.Means env p) : (Expression.neg e).Means env (.neg p) := by
  obtain ⟨s, hs, hsp⟩ := h
  refine ⟨-s, ?_, (simplify_equivalent _).trans hsp.neg⟩
  rw [toParam, hs]
  rfl

theorem add (hl : l.Means env p) (hr : r.Means env q) :
    (Expression.binary l .add r).Means env (.add p q) := by
  obtain ⟨s, hs, hsp⟩ := hl
  obtain ⟨t, ht, htq⟩ := hr
  refine ⟨s + t, ?_, (simplify_equivalent _).trans (hsp.add htq)⟩
  rw [toParam, hs, ht]
  rfl

theorem sub (hl : l.Means env p) (hr : r.Means env q) :
    (Expression.binary l .sub r).Means env (.sub p q) := by
  obtain ⟨s, hs, hsp⟩ := hl
  obtain ⟨t, ht, htq⟩ := hr
  refine ⟨s - t, ?_, (simplify_equivalent _).trans (hsp.sub htq)⟩
  rw [toParam, hs, ht]
  rfl

theorem mul (hl : l.Means env p) (hr : r.Means env q) :
    (Expression.binary l .mul r).Means env (.mul p q) := by
  obtain ⟨s, hs, hsp⟩ := hl
  obtain ⟨t, ht, htq⟩ := hr
  refine ⟨s * t, ?_, (simplify_equivalent _).trans (hsp.mul htq)⟩
  rw [toParam, hs, ht]
  rfl

theorem div (hl : l.Means env p) (hr : r.Means env q) :
    (Expression.binary l .div r).Means env (.div p q) := by
  obtain ⟨s, hs, hsp⟩ := hl
  obtain ⟨t, ht, htq⟩ := hr
  refine ⟨s / t, ?_, (simplify_equivalent _).trans (hsp.div htq)⟩
  rw [toParam, hs, ht]
  rfl

end Expression.Means

/-- Tokens of a product that stand for a parameter. -/
def ProductOf (env : Environment F) (ts : List Token) (p : Param F) : Prop :=
  ∃ e, Derives .product ts e ∧ e.Means env p

/-- Tokens that stand for a parameter on their own and as the right operand of `*`. Behind a `/`
they make a quotient of their own kind. -/
structure Spelling (env : Environment F) (ts : List Token) (p : Param F) : Prop where
  whole : ProductOf env ts p
  factor {us : List Token} {q : Param F} (h : ProductOf env us q) :
    ProductOf env (us ++ .symbol .star :: ts) (.mul q p)
  divisor {us : List Token} {q : Param F} (h : ProductOf env us q) :
    ProductOf env (us ++ .symbol .slash :: ts) (q.quotient p)

theorem Chunk.enclosed {x y m : String} {o : Char} {s : Symbol} {ts us : List Token}
    (hx : Chunk x.toList ts) (hy : Chunk y.toList us) (hm : m.toList = [' ', o, ' '])
    (ho : ∀ rest, Lexeme.head o (' ' :: rest) = (.token (.symbol s), 0)) :
    Chunk ("(" ++ x ++ m ++ y ++ ")").toList
      (.symbol .lparen :: (ts ++ .symbol s :: us ++ [.symbol .rparen])) := by
  simpa [hm] using (hx.spacedOperator hy ho).parens

variable [ExactArithmetic F] {env : Environment F}

theorem ProductOf.scaled {us ts : List Token} {q p : Param F} {e : Expression} (divides : Bool)
    (h : ProductOf env us q) (he : Derives .power ts e) (hm : e.Means env p) :
    ProductOf env (us ++ .symbol (if divides then .slash else .star) :: ts)
      (Param.scaled divides q p) := by
  obtain ⟨l, hl, hlq⟩ := h
  cases divides with
  | false => exact ⟨_, .product hl rfl rfl he, hlq.mul hm⟩
  | true => exact ⟨_, .product hl rfl rfl he, hlq.div hm⟩

/-- Tokens that are one factor keep their meaning in every position. -/
theorem Spelling.of_power {ts : List Token} {p : Param F} {e : Expression}
    (he : Derives .power ts e) (hm : e.Means env p) (hq : ∀ q, Param.quotient q p = .div q p) :
    Spelling env ts p where
  whole := ⟨e, .productOf he, hm⟩
  factor h := h.scaled false he hm
  divisor h := by
    rw [hq]
    exact h.scaled true he hm

theorem PiForm.value_of_of? {v : F} {f : PiForm} (h : PiForm.of? v = some f) : f.value = v :=
  (ExactArithmetic.beq_iff _ _).mp (List.find?_some (p := fun f : PiForm => f.value == v) h)

/-- Tokens that are two factors are taken apart behind an operator. -/
theorem Spelling.of_factors {v : F} {f : PiForm} {ts us : List Token} {e e' : Expression}
    {first second : Param F} {divides : Bool} (h : PiForm.of? v = some f)
    (hf : Param.factors? f = some (first, divides, second)) (he : Derives .power ts e)
    (hm : e.Means env first) (he' : Derives .power us e') (hm' : e'.Means env second) :
    Spelling env (ts ++ .symbol (if divides then .slash else .star) :: us) (.const v) := by
  have hv : (Param.scaled divides first second).Equivalent (.const v) :=
    PiForm.value_of_of? h ▸ Param.factors?_equivalent hf
  have hfirst : ProductOf env ts first := ⟨e, .productOf he, hm⟩
  refine ⟨?_, fun {vs q} hq => ?_, fun {vs q} hq => ?_⟩
  · obtain ⟨l, hl, hlm⟩ := hfirst.scaled divides he' hm'
    exact ⟨l, hl, hlm.congr hv⟩
  -- behind a `*` the factors group to the left, which keeps the product
  · obtain ⟨l, hl, hlm⟩ := (hq.scaled false he hm).scaled divides he' hm'
    rw [List.append_assoc] at hl
    exact ⟨l, hl, hlm.congr ((Param.scaled_mul_equivalent divides q first second).trans
      ((Param.Equivalent.refl q).mul hv))⟩
  -- behind a `/` only the first factor divides
  · have hdiv := (hq.scaled true he hm).scaled divides he' hm'
    rw [List.append_assoc] at hdiv
    rw [Param.quotient, h, Option.bind_some, hf]
    exact hdiv

theorem Spelling.of_form {v : F} {f : PiForm} (h : PiForm.of? v = some f) :
    Spelling env f.tokens (.const v) := by
  have hv := PiForm.value_of_of? h
  have hwhole : Param.factors? f = (none : Option (Param F × Bool × Param F)) →
      ∀ q, Param.quotient q (.const v) = .div q (.const v) := by
    intro hf q
    rw [Param.quotient, h, Option.bind_some, hf]
  cases f with
  | pi =>
    exact .of_power PiForm.derives_pi
      (Expression.Means.pi.congr (.of_value? rfl (congrArg some hv.symm))) (hwhole rfl)
  | minusPi =>
    exact .of_power PiForm.derives_minusPi
      (Expression.Means.pi.neg.congr (.of_value? rfl (congrArg some hv.symm))) (hwhole rfl)
  | half => exact .of_factors h rfl PiForm.derives_pi .pi (PiForm.derives_int 2) (.int 2)
  | minusHalf =>
    exact .of_factors h rfl PiForm.derives_minusPi Expression.Means.pi.neg (PiForm.derives_int 2)
      (.int 2)
  | quarter => exact .of_factors h rfl PiForm.derives_pi .pi (PiForm.derives_int 4) (.int 4)
  | minusQuarter =>
    exact .of_factors h rfl PiForm.derives_minusPi Expression.Means.pi.neg (PiForm.derives_int 4)
      (.int 4)
  | twice => exact .of_factors h rfl (PiForm.derives_int 2) (.int 2) PiForm.derives_pi .pi

def Token.number? (F : Type) [Scalar F] : Token → Option F
  | .int n => some (Scalar.ofNat n)
  | .float d => some (Scalar.ofDecimal d)
  | _ => none

/-- The text of a number is one token of its magnitude, with a minus in front or not. An integer
beyond the limit of integers is no token. -/
def ReadsBack [Numeral F] (v : F) : Prop :=
  ∃ negative t u, IsNumeral (Numeral.write v).toList negative t ∧ t.number? F = some u ∧
    (if negative then -u else u) = v

omit [ExactArithmetic F] in
theorem leaf?_of_number? {t : Token} {u : F} (h : t.number? F = some u) :
    ∃ e, leaf? t = some e ∧ ∀ env : Environment F, e.Means env (.const u) := by
  cases t with
  | int n =>
    obtain rfl := Option.some.inj h
    exact ⟨_, rfl, fun _ => .int n⟩
  | float d =>
    obtain rfl := Option.some.inj h
    exact ⟨_, rfl, fun _ => ⟨_, rfl, .refl _⟩⟩
  | _ => cases h

theorem Spelling.of_number {v u : F} {negative : Bool} {t : Token}
    (hf : PiForm.of? v = none) (ht : t.number? F = some u)
    (hv : (if negative then -u else u) = v) :
    Spelling env (signedTokens negative t) (.const v) := by
  obtain ⟨e, he, hm⟩ := leaf?_of_number? ht
  refine .of_power (derives_signed he negative) ?_ fun q => ?_
  · cases negative with
    | false => exact (hm env).congr (.of_value? rfl (congrArg some hv.symm))
    | true => exact (hm env).neg.congr (.of_value? rfl (congrArg some hv.symm))
  · rw [Param.quotient, hf]
    rfl

theorem Spelling.parens {ts : List Token} {p : Param F} {e : Expression}
    (he : Derives .sum ts e) (hm : e.Means env p) (hq : ∀ q, Param.quotient q p = .div q p) :
    Spelling env (.symbol .lparen :: (ts ++ [.symbol .rparen])) p :=
  .of_power (.powerOf (.unaryOf (.paren he))) hm.paren hq

theorem Spelling.negated {ts : List Token} {p : Param F} (h : Spelling env ts p) :
    Spelling env (.symbol .minus :: .symbol .lparen :: (ts ++ [.symbol .rparen])) (.neg p) := by
  obtain ⟨e, he, hm⟩ := h.whole
  exact .of_power (.powerOf (.minus (.unaryOf (.paren (.sumOf he))))) hm.paren.neg fun _ => rfl

theorem Spelling.product {ts us : List Token} {p q : Param F} (hp : Spelling env ts p)
    (hq : Spelling env us q) :
    Spelling env (.symbol .lparen :: (ts ++ .symbol .star :: us ++ [.symbol .rparen]))
      (.mul p q) := by
  obtain ⟨e, he, hm⟩ := hq.factor hp.whole
  exact .parens (.sumOf he) hm fun _ => rfl

theorem Spelling.quotient {ts us : List Token} {p q : Param F} (hp : Spelling env ts p)
    (hq : Spelling env us q) :
    Spelling env (.symbol .lparen :: (ts ++ .symbol .slash :: us ++ [.symbol .rparen]))
      (p.quotient q) := by
  obtain ⟨e, he, hm⟩ := hq.divisor hp.whole
  exact .parens (.sumOf he) hm fun r => Param.quotient_quotient r p q

theorem Spelling.sum {ts us : List Token} {p q : Param F} (hp : Spelling env ts p)
    (hq : Spelling env us q) :
    Spelling env (.symbol .lparen :: (ts ++ .symbol .plus :: us ++ [.symbol .rparen]))
      (.add p q) := by
  obtain ⟨l, hl, hlm⟩ := hp.whole
  obtain ⟨r, hr, hrm⟩ := hq.whole
  exact .parens (.sum (.sumOf hl) rfl rfl hr) (hlm.add hrm) fun _ => rfl

theorem Spelling.difference {ts us : List Token} {p q : Param F} (hp : Spelling env ts p)
    (hq : Spelling env us q) :
    Spelling env (.symbol .lparen :: (ts ++ .symbol .minus :: us ++ [.symbol .rparen]))
      (.sub p q) := by
  obtain ⟨l, hl, hlm⟩ := hp.whole
  obtain ⟨r, hr, hrm⟩ := hq.whole
  exact .parens (.sum (.sumOf hl) rfl rfl hr) (hlm.sub hrm) fun _ => rfl

section Write

variable [Numeral F]

/-- A finite number whose text reads back, unless it is written with `pi`. -/
def Writable (v : F) : Prop :=
  Scalar.isFinite v = true ∧ (PiForm.of? v = none → ReadsBack v)

/-- A free parameter has an identifier, which is bound to it. -/
def Bound (names : List (ℕ × String)) (env : Environment F) (r : Handle) : Prop :=
  ∃ name, names.lookup r.id = some name ∧ IsName name.toList ∧
    env.inputs.lookup name = some (.ref r)

theorem exists_spelling {names : List (ℕ × String)} {p : Param F}
    (hp : p.All Writable (Bound names env)) :
    ∃ text ts, writeParam names p = .ok text ∧ Chunk text.toList ts ∧
      Spelling env ts p.regrouped := by
  induction p with
  | const v =>
    obtain ⟨hfin, hback⟩ := hp
    cases hf : PiForm.of? v with
    | some f => exact ⟨_, _, writeAngle_of_form hfin hf, f.chunk, .of_form hf⟩
    | none =>
      obtain ⟨negative, t, u, htext, hu, hv⟩ := hback hf
      exact ⟨_, _, writeAngle_of_none hfin hf, htext.chunk, .of_number hf hu hv⟩
  | pi =>
    exact ⟨_, _, rfl, PiForm.pi.chunk, .of_power (.powerOf (.unaryOf (.leaf rfl))) .pi fun _ => rfl⟩
  | ref r =>
    obtain ⟨name, hname, ⟨hword, hfree⟩, hbound⟩ := hp
    refine ⟨name, [.identifier name], ?_, .word hword ?_,
      .of_power (.powerOf (.unaryOf (.leaf rfl))) (.identifier hbound) fun _ => rfl⟩
    · rw [writeParam, hname]
    · rw [Lexeme.ofWord, hfree, String.ofList_toList]
  | neg e ih =>
    obtain ⟨text, ts, htext, hchunk, hs⟩ := ih hp
    refine ⟨"-(" ++ text ++ ")", _, ?_, ?_, hs.negated⟩
    · rw [writeParam, htext]
      rfl
    · simpa using hchunk.parens.minus (by decide)
  | add a b iha ihb =>
    obtain ⟨x, ts, hx, hcx, hsx⟩ := iha hp.1
    obtain ⟨y, us, hy, hcy, hsy⟩ := ihb hp.2
    exact ⟨_, _, by rw [writeParam, hx, hy]; rfl, hcx.enclosed hcy rfl fun _ => rfl, hsx.sum hsy⟩
  | sub a b iha ihb =>
    obtain ⟨x, ts, hx, hcx, hsx⟩ := iha hp.1
    obtain ⟨y, us, hy, hcy, hsy⟩ := ihb hp.2
    exact ⟨_, _, by rw [writeParam, hx, hy]; rfl, hcx.enclosed hcy rfl fun _ => rfl,
      hsx.difference hsy⟩
  | mul a b iha ihb =>
    obtain ⟨x, ts, hx, hcx, hsx⟩ := iha hp.1
    obtain ⟨y, us, hy, hcy, hsy⟩ := ihb hp.2
    exact ⟨_, _, by rw [writeParam, hx, hy]; rfl, hcx.enclosed hcy rfl fun _ => rfl,
      hsx.product hsy⟩
  | div a b iha ihb =>
    obtain ⟨x, ts, hx, hcx, hsx⟩ := iha hp.1
    obtain ⟨y, us, hy, hcy, hsy⟩ := ihb hp.2
    exact ⟨_, _, by rw [writeParam, hx, hy]; rfl, hcx.enclosed hcy rfl fun _ => rfl,
      hsx.quotient hsy⟩

end Write

end Qasm

end Interchange
