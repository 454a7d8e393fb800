import Interchange.Proofs.ExpressionGrammar
import Interchange.Proofs.TokenText
import Interchange.Qasm.Printer
import Interchange.Qasm.Scope

namespace Interchange.Qasm
open Lexeme

/-- The angles that are written with `pi`. -/
inductive PiForm
  | pi | minusPi | half | minusHalf | quarter | minusQuarter | twice
deriving DecidableEq

namespace PiForm

def all : List PiForm := [pi, minusPi, half, minusHalf, quarter, minusQuarter, twice]

def value {F : Type} [Scalar F] : PiForm → F
  | pi => Scalar.pi
  | minusPi => -Scalar.pi
  | half => Scalar.halfPi
  | minusHalf => -Scalar.halfPi
  | quarter => Scalar.quarterPi
  | minusQuarter => -Scalar.quarterPi
  | twice => Scalar.tau

def text : PiForm → String
  | pi => "pi"
  | minusPi => "-pi"
  | half => "pi/2"
  | minusHalf => "-pi/2"
  | quarter => "pi/4"
  | minusQuarter => "-pi/4"
  | twice => "2*pi"

def tokens : PiForm → List Token
  | pi => [.keyword .pi]
  | minusPi => [.symbol .minus, .keyword .pi]
  | half => [.keyword .pi, .symbol .slash, .int 2]
  | minusHalf => [.symbol .minus, .keyword .pi, .symbol .slash, .int 2]
  | quarter => [.keyword .pi, .symbol .slash, .int 4]
  | minusQuarter => [.symbol .minus, .keyword .pi, .symbol .slash, .int 4]
  | twice => [.int 2, .symbol .star, .keyword .pi]

def expression : PiForm → Expression
  | pi => .pi
  | minusPi => .neg .pi
  | half => .binary .pi .div (.int 2)
  | minusHalf => .binary (.neg .pi) .div (.int 2)
  | quarter => .binary .pi .div (.int 4)
  | minusQuarter => .binary (.neg .pi) .div (.int 4)
  | twice => .binary (.int 2) .mul .pi

theorem piFractions_eq {F : Type} [Scalar F] :
    (piFractions : List (F × String)) = all.map fun f => (f.value, f.text) := rfl

def of? {F : Type} [Scalar F] (v : F) : Option PiForm := all.find? fun f => f.value == v

theorem chunk (f : PiForm) : Chunk f.text.toList f.tokens := by
  have hpi : Chunk ['p', 'i'] [.keyword .pi] :=
    .word ⟨'p', ['i'], rfl, by decide, List.all_eq_true.mp rfl⟩ (by decide)
  have hminus : Chunk ['-', 'p', 'i'] [.symbol .minus, .keyword .pi] := hpi.minus (by decide)
  have htwo : Chunk ['2'] [.int 2] := .number (numberText_toDigits 2) (by decide)
  have hfour : Chunk ['4'] [.int 4] := .number (numberText_toDigits 4) (by decide)
  cases f with
  | pi => exact hpi
  | minusPi => exact hminus
  | half => exact hpi.append (htwo.symbol fun _ => rfl) (by decide)
  | minusHalf => exact hminus.append (htwo.symbol fun _ => rfl) (by decide)
  | quarter => exact hpi.append (hfour.symbol fun _ => rfl) (by decide)
  | minusQuarter => exact hminus.append (hfour.symbol fun _ => rfl) (by decide)
  | twice => exact htwo.append (hpi.symbol fun _ => rfl) (by decide)

theorem derives_pi : Derives .power [.keyword .pi] .pi := .powerOf (.unaryOf (.leaf rfl))

theorem derives_minusPi : Derives .power [.symbol .minus, .keyword .pi] (.neg .pi) :=
  .powerOf (.minus (.unaryOf (.leaf rfl)))

theorem derives_int (n : ℕ) : Derives .power [.int n] (.int n) := .powerOf (.unaryOf (.leaf rfl))

theorem derives (f : PiForm) : Derives .product f.tokens f.expression := by
  cases f with
  | pi => exact .productOf derives_pi
  | minusPi => exact .productOf derives_minusPi
  | half => exact .product (.productOf derives_pi) rfl rfl (derives_int 2)
  | minusHalf => exact .product (.productOf derives_minusPi) rfl rfl (derives_int 2)
  | quarter => exact .product (.productOf derives_pi) rfl rfl (derives_int 4)
  | minusQuarter => exact .product (.productOf derives_minusPi) rfl rfl (derives_int 4)
  | twice => exact .product (.productOf (derives_int 2)) rfl rfl derives_pi

end PiForm

/-- A text is one number token, with a minus in front or not. -/
def IsNumeral (text : List Char) (negative : Bool) (t : Token) : Prop :=
  ∃ w isFloat, NumberText w isFloat ∧ ofNumber w isFloat = .token t ∧
    text = if negative then '-' :: w else w

def signedTokens (negative : Bool) (t : Token) : List Token :=
  if negative then [.symbol .minus, t] else [t]

def signedExpression (negative : Bool) (e : Expression) : Expression :=
  if negative then .neg e else e

theorem IsNumeral.chunk {text : List Char} {negative : Bool} {t : Token}
    (h : IsNumeral text negative t) : Chunk text (signedTokens negative t) := by
  obtain ⟨w, isFloat, hw, ht, rfl⟩ := h
  cases negative with
  | false => exact .number hw ht
  | true =>
    obtain ⟨c, tail, rfl, hc⟩ := hw.head
    exact (Chunk.number hw ht).minus (by rintro rfl; cases hc)

theorem isNumeral_nat {n : ℕ} (hn : n < integerLimit) :
    IsNumeral (toString n).toList false (.int n) := by
  refine ⟨_, false, numberText_toDigits n, ?_, ?_⟩
  · rw [ofNumber, digitsValue_toDigits, if_neg Bool.false_ne_true, if_pos hn]
  · rw [Nat.toString_eq_ofList_toDigits, String.toList_ofList]
    rfl

theorem derives_signed {t : Token} {e : Expression} (ht : leaf? t = some e) (negative : Bool) :
    Derives .power (signedTokens negative t) (signedExpression negative e) := by
  cases negative with
  | false => exact .powerOf (.unaryOf (.leaf ht))
  | true => exact .powerOf (.minus (.unaryOf (.leaf ht)))

/-- Tokens of a product, also behind `*` and `/`, where their factors group with what stands in
front. -/
structure Operand (ts : List Token) : Prop where
  alone : ∃ e, Derives .product ts e
  behind {us : List Token} {t : Token} {op : BinaryOp} {l : Expression}
    (hl : Derives .product us l) (ht : BinaryOp.ofToken? t = some op) (hop : op.precedence = 2) :
    ∃ e, Derives .product (us ++ t :: ts) e

namespace Operand

variable {ts us : List Token} {e e' : Expression}

theorem of_power (h : Derives .power ts e) : Operand ts :=
  ⟨⟨e, .productOf h⟩, fun hl ht hop => ⟨_, .product hl ht hop h⟩⟩

theorem of_factors {t : Token} {op : BinaryOp} (h : Derives .power ts e)
    (ht : BinaryOp.ofToken? t = some op) (hop : op.precedence = 2) (h' : Derives .power us e') :
    Operand (ts ++ t :: us) := by
  refine ⟨⟨_, .product (.productOf h) ht hop h'⟩, fun {vs s o l} hl hs ho => ?_⟩
  have hfirst : Derives .product (vs ++ s :: ts) (.binary l o e) := .product hl hs ho h
  have hboth := Derives.product hfirst ht hop h'
  rw [List.append_assoc, List.cons_append] at hboth
  exact ⟨_, hboth⟩

theorem piForm (f : PiForm) : Operand f.tokens := by
  cases f with
  | pi => exact .of_power PiForm.derives_pi
  | minusPi => exact .of_power PiForm.derives_minusPi
  | half => exact .of_factors PiForm.derives_pi rfl rfl (PiForm.derives_int 2)
  | minusHalf => exact .of_factors PiForm.derives_minusPi rfl rfl (PiForm.derives_int 2)
  | quarter => exact .of_factors PiForm.derives_pi rfl rfl (PiForm.derives_int 4)
  | minusQuarter => exact .of_factors PiForm.derives_minusPi rfl rfl (PiForm.derives_int 4)
  | twice => exact .of_factors (PiForm.derives_int 2) rfl rfl PiForm.derives_pi

theorem parens (h : Derives .sum ts e) : Operand (.symbol .lparen :: (ts ++ [.symbol .rparen])) :=
  .of_power (.powerOf (.unaryOf (.paren h)))

theorem negated (h : Operand ts) :
    Operand (.symbol .minus :: .symbol .lparen :: (ts ++ [.symbol .rparen])) := by
  obtain ⟨e, he⟩ := h.alone
  exact .of_power (.powerOf (.minus (.unaryOf (.paren (.sumOf he)))))

theorem enclosed {t : Token} {op : BinaryOp} (h : Operand ts) (h' : Operand us)
    (ht : BinaryOp.ofToken? t = some op) (hop : op.precedence = 1 ∨ op.precedence = 2) :
    Operand (.symbol .lparen :: (ts ++ t :: us ++ [.symbol .rparen])) := by
  obtain ⟨l, hl⟩ := h.alone
  rcases hop with hop | hop
  · obtain ⟨r, hr⟩ := h'.alone
    exact .parens (.sum (.sumOf hl) ht hop hr)
  · obtain ⟨e, he⟩ := h'.behind hl ht hop
    exact .parens (.sumOf he)

end Operand

def IsExpression (text : String) : Prop := ∃ ts, Chunk text.toList ts ∧ Operand ts

section

variable {F : Type} [Scalar F] [Numeral F]

theorem writeAngle_of_form {v : F} {f : PiForm} (hv : Scalar.isFinite v = true)
    (hf : PiForm.of? v = some f) : writeAngle v = .ok f.text := by
  have h : (piFractions : List (F × String)).find? (·.1 == v) = some (f.value, f.text) := by
    rw [PiForm.piFractions_eq, List.find?_map]
    exact congrArg (Option.map _) hf
  rw [writeAngle, hv, h]
  rfl

theorem writeAngle_of_none {v : F} (hv : Scalar.isFinite v = true)
    (hf : PiForm.of? v = none) : writeAngle v = .ok (Numeral.write v) := by
  have h : (piFractions : List (F × String)).find? (·.1 == v) = none := by
    rw [PiForm.piFractions_eq, List.find?_map]
    exact congrArg (Option.map _) hf
  rw [writeAngle, hv, h]
  rfl

end

/-- A text is an expression, and it stands for the parameter. -/
def ReadsAs {F : Type} [Scalar F] (env : Environment F) (text : String) (q : Param F) : Prop :=
  ∃ tokens e rest, scan text = .ok tokens ∧ Parser.expression (F := F) tokens = .ok (e, rest) ∧
    rest.val = [] ∧ e.toParam env {} = .ok q

theorem Chunk.scan {text : String} {ts : List Token} (h : Chunk text.toList ts) :
    ∃ placed, Qasm.scan text = .ok placed ∧ placed.map Placed.token = ts := by
  have hs := h [] [] (by rintro _ ⟨⟩) .nil
  rw [List.append_nil, List.append_nil] at hs
  exact scanFrom_of_spells hs 1

theorem Derives.expression {F : Type} {placed : List Placed} {e : Expression}
    (h : Derives .sum (placed.map Placed.token) e) :
    ∃ rest, Parser.expression (F := F) placed = .ok (e, rest) ∧ rest.val = [] := by
  have hnil : Parser.Stops 0 (placed.map Placed.token) [] :=
    ⟨by rintro _ ⟨⟩, by rintro _ - ⟨⟩⟩
  have hreads := h.reads (F := F) hnil
  rw [List.append_nil] at hreads
  obtain ⟨r, hr, rfl, hrest⟩ := hreads placed rfl
  refine ⟨⟨r.rest, Nat.le_of_lt r.rest_lt⟩, ?_, List.map_eq_nil_iff.mp hrest⟩
  rw [Parser.expression, hr]
  rfl

theorem readsAs_of_chunk {F : Type} [Scalar F] {env : Environment F} {text : String}
    {ts : List Token} {e : Expression} {q : Param F} (h : Chunk text.toList ts)
    (he : Derives .sum ts e) (hq : e.toParam env {} = .ok q) : ReadsAs env text q := by
  obtain ⟨placed, hscan, rfl⟩ := h.scan
  obtain ⟨rest, hrest, hnil⟩ := he.expression (F := F)
  exact ⟨placed, e, rest, hscan, hrest, hnil, hq⟩

end Interchange.Qasm
