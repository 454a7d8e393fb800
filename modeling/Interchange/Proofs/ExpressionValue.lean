import Interchange.Proofs.NumericGate
import Interchange.Proofs.RegisterLayout
import Interchange.Proofs.RegisteredCircuit

namespace Interchange.Qasm

variable {F : Type} [Scalar F]

namespace BinaryOp

/-- What an operation makes of two parameters; only numbers can be raised to a power. -/
def combine? : BinaryOp → Param F → Param F → Option (Param F)
  | add, a, b => some (a + b)
  | sub, a, b => some (a - b)
  | mul, a, b => some (a * b)
  | div, a, b => some (a / b)
  | pow, a, b => do return .const (Scalar.pow (← a.value?) (← b.value?))

/-- The value is that of the operation on the values, unless it divides by zero. -/
theorem value?_combine (hsep : ∀ w : F, (w == 0) = true → (w == 1) = false) {op : BinaryOp}
    {a b : Param F} {v : F} :
    (op.combine? a b).bind Param.value? = some v ↔
      ∃ x y, a.value? = some x ∧ b.value? = some y ∧ (op = .div → (y == 0) = false) ∧
        op.apply x y = v := by
  cases op with
  | add =>
    change (Param.add a b).simplify.value? = some v ↔ _
    rw [Param.simplify_value? hsep]
    simp [Param.value?, Option.bind_eq_some_iff, apply]
  | sub =>
    change (Param.sub a b).simplify.value? = some v ↔ _
    rw [Param.simplify_value? hsep]
    simp [Param.value?, Option.bind_eq_some_iff, apply]
  | mul =>
    change (Param.mul a b).simplify.value? = some v ↔ _
    rw [Param.simplify_value? hsep]
    simp [Param.value?, Option.bind_eq_some_iff, apply]
  | div =>
    change (Param.div a b).simplify.value? = some v ↔ _
    rw [Param.simplify_value? hsep, Param.value?]
    cases a.value? <;> cases b.value? <;> simp [apply]
  | pow => simp [combine?, Option.bind_eq_some_iff, Param.value?, apply]

end BinaryOp

namespace Environment

/-- Inputs stand for parameters, not for numbers. -/
def SymbolicInputs (env : Environment F) : Prop := ∀ x ∈ env.inputs, x.2.value? = none

theorem symbolicInputs_applyStatement {state : Environment F × Circuit F}
    (h : state.1.SymbolicInputs) (s : Statement) :
    Returns (applyStatement state s) (·.1.SymbolicInputs) := by
  cases s with
  | includeFile | qubits | bits | barrier | opaqueGate => exact .ok h
  | input name =>
    refine .andThen fun _ => .ok ?_
    exact List.forall_mem_append.mpr ⟨h, List.forall_mem_singleton.mpr rfl⟩
  | definition gate =>
    unfold applyStatement
    dsimp only
    split_ifs
    · exact .ok h
    · exact .error _ _
    · exact .ok h
  | gate | measure => exact .andThen fun _ => .ok h
  | reset => exact .error _ _

/-- At each statement of a program the inputs are parameters. -/
theorem symbolicInputs_of_run {statements before : List Statement} {env : Environment F}
    {c : Circuit F} {state : Environment F × Circuit F}
    (henv : ofStatements statements = .ok env)
    (hrun : before.foldlM applyStatement (env, c) = .ok state) : state.1.SymbolicInputs := by
  refine Returns.foldlM (fun _ h s _ => symbolicInputs_applyStatement h s) ?_ state hrun
  intro x hx
  rw [inputs_ofStatements statements env henv] at hx
  cases hx

end Environment

namespace Expression

variable {env : Environment F} {scope : Scope F} {p : Param F} {v : F}

theorem toParam_binary {l r : Expression} {op : BinaryOp} :
    (binary l op r).toParam env scope = .ok p ↔
      ∃ a b, l.toParam env scope = .ok a ∧ r.toParam env scope = .ok b ∧
        op.combine? a b = some p := by
  simp only [toParam, bind_eq_ok_iff, exists_and_left]
  refine exists_congr fun a => and_congr_right fun _ => exists_congr fun b =>
    and_congr_right fun _ => ?_
  cases op with
  | pow =>
    cases ha : a.value? <;> cases hb : b.value? <;>
      simp [BinaryOp.combine?, ha, hb, pure, Except.pure]
  | _ => simp [BinaryOp.combine?, pure, Except.pure]

theorem toParams_cons {e : Expression} {es : List Expression} {ps : List (Param F)} :
    toParams env scope (e :: es) = .ok ps ↔
      ∃ q qs, e.toParam env scope = .ok q ∧ toParams env scope es = .ok qs ∧ q :: qs = ps := by
  simp only [toParams, bind_eq_ok_iff, pure, Except.pure, Except.ok.injEq, exists_and_left]

theorem toParam_call {function : String} {args : List Expression} :
    (call function args).toParam env scope = .ok p ↔
      ∃ arg q x, args = [arg] ∧ arg.toParam env scope = .ok q ∧ q.value? = some x ∧
        (applyFunction? function x).map .const = some p := by
  rw [toParam, bind_eq_ok_iff]
  constructor
  · rintro ⟨ps, hps, h⟩
    match args with
    | [] =>
      obtain rfl : [] = ps := by simpa [toParams] using hps
      cases h
    | [arg] =>
      obtain ⟨q, qs, hq, hqs, rfl⟩ := toParams_cons.mp hps
      obtain rfl : [] = qs := by simpa [toParams] using hqs
      cases hx : q.value? with
      | none => simp [hx] at h
      | some x =>
        refine ⟨arg, q, x, rfl, hq, hx, ?_⟩
        cases hy : applyFunction? function x <;> simp_all [pure, Except.pure]
    | _ :: _ :: _ =>
      obtain ⟨q, _, -, hqs, rfl⟩ := toParams_cons.mp hps
      obtain ⟨q', qs, -, -, rfl⟩ := toParams_cons.mp hqs
      simp at h
  · rintro ⟨arg, q, x, rfl, hq, hx, h⟩
    obtain ⟨y, hy, rfl⟩ := Option.map_eq_some_iff.mp h
    refine ⟨[q], toParams_cons.mpr ⟨q, [], hq, by rw [toParams], rfl⟩, ?_⟩
    simp [hx, hy, pure, Except.pure]

/-- As a parameter outside of all gates the expression has the value. -/
def Gives (env : Environment F) (e : Expression) (v : F) : Prop :=
  ∃ p, e.toParam env {} = .ok p ∧ p.value? = some v

def DivisorsNonzero (F : Type) [Scalar F] : Expression → Prop
  | neg e | paren e => e.DivisorsNonzero F
  | binary l op r => l.DivisorsNonzero F ∧ r.DivisorsNonzero F ∧
      (op = .div → ∀ y : F, r.value? = some y → (y == 0) = false)
  | call _ [arg] => arg.DivisorsNonzero F
  | _ => True

theorem gives_neg (hsep : ∀ w : F, (w == 0) = true → (w == 1) = false) {e : Expression} :
    (neg e).Gives env v ↔ ∃ x, e.Gives env x ∧ -x = v := by
  have hvalue (q : Param F) : (-q).value? = q.value?.map (- ·) := Param.simplify_value? hsep _
  simp only [Gives, toParam, bind_eq_ok_iff, pure, Except.pure, Except.ok.injEq]
  constructor
  · rintro ⟨_, ⟨q, hq, rfl⟩, hv⟩
    rw [hvalue, Option.map_eq_some_iff] at hv
    obtain ⟨x, hx, hneg⟩ := hv
    exact ⟨x, ⟨q, hq, hx⟩, hneg⟩
  · rintro ⟨x, ⟨q, hq, hx⟩, rfl⟩
    exact ⟨-q, ⟨q, hq, rfl⟩, by rw [hvalue, hx, Option.map_some]⟩

theorem gives_binary (hsep : ∀ w : F, (w == 0) = true → (w == 1) = false) {l r : Expression}
    {op : BinaryOp} :
    (binary l op r).Gives env v ↔ ∃ x y, l.Gives env x ∧ r.Gives env y ∧
      (op = .div → (y == 0) = false) ∧ op.apply x y = v := by
  simp only [Gives, toParam_binary]
  constructor
  · rintro ⟨p, ⟨a, b, ha, hb, hp⟩, hv⟩
    have hvalue : (op.combine? a b).bind Param.value? = some v :=
      Option.bind_eq_some_iff.mpr ⟨p, hp, hv⟩
    obtain ⟨x, y, hx, hy, hdiv, hxy⟩ := (BinaryOp.value?_combine hsep).mp hvalue
    exact ⟨x, y, ⟨a, ha, hx⟩, ⟨b, hb, hy⟩, hdiv, hxy⟩
  · rintro ⟨x, y, ⟨a, ha, hx⟩, ⟨b, hb, hy⟩, hdiv, hxy⟩
    obtain ⟨p, hp, hv⟩ := Option.bind_eq_some_iff.mp
      ((BinaryOp.value?_combine hsep).mpr ⟨x, y, hx, hy, hdiv, hxy⟩)
    exact ⟨p, ⟨a, b, ha, hb, hp⟩, hv⟩

theorem gives_call {function : String} {args : List Expression} :
    (call function args).Gives env v ↔
      ∃ arg x, args = [arg] ∧ arg.Gives env x ∧ applyFunction? function x = some v := by
  simp only [Gives, toParam_call, Option.map_eq_some_iff]
  constructor
  · rintro ⟨_, ⟨arg, q, x, hargs, hq, hx, y, hy, rfl⟩, hv⟩
    obtain rfl : y = v := Option.some.inj hv
    exact ⟨arg, x, hargs, ⟨q, hq, hx⟩, hy⟩
  · rintro ⟨arg, x, hargs, ⟨q, hq, hx⟩, hv⟩
    exact ⟨.const v, ⟨arg, q, x, hargs, hq, hx, v, hv, rfl⟩, rfl⟩

theorem gives_const {e : Expression} {w : F} (h : e.toParam env {} = .ok p)
    (hp : p.value? = some w) : e.Gives env v ↔ some w = some v := by
  simp [Gives, h, hp]

theorem value?_binary {l r : Expression} {op : BinaryOp} :
    (binary l op r).value? = some v ↔
      ∃ x y, l.value? = some x ∧ r.value? = some y ∧ op.apply x y = v := by
  simp [value?, Option.bind_eq_some_iff]

theorem value?_call {function : String} {arg : Expression} :
    (call function [arg]).value? = some v ↔
      ∃ x, arg.value? = some x ∧ applyFunction? function x = some v := by
  simp [value?, Option.bind_eq_some_iff]

theorem not_gives_identifier (henv : env.SymbolicInputs) {name : String} :
    ¬ (identifier name).Gives env v := by
  rintro ⟨p, hp, hv⟩
  rw [toParam] at hp
  cases hname : env.inputs.lookup name with
  | none => simp [hname] at hp
  | some q =>
    obtain rfl : q = p := by simpa [hname] using hp
    rw [henv _ (mem_of_lookup hname)] at hv
    cases hv

/-- The parameter and the expression itself have one value. -/
theorem gives_iff (hsep : ∀ w : F, (w == 0) = true → (w == 1) = false)
    (henv : env.SymbolicInputs) (e : Expression) (v : F) :
    e.Gives env v ↔ e.value? = some v ∧ e.DivisorsNonzero F := by
  match e with
  | int _ | float _ | tau | euler | pi =>
    exact (gives_const (by rw [toParam]) rfl).trans (and_iff_left trivial).symm
  | identifier name => exact iff_of_false (not_gives_identifier henv) (by simp [value?])
  | neg e =>
    simp only [gives_neg hsep, gives_iff hsep henv e, value?, Option.map_eq_some_iff,
      DivisorsNonzero, and_right_comm, exists_and_right]
  | paren e => exact gives_iff hsep henv e v
  | binary l op r =>
    simp only [gives_binary hsep, gives_iff hsep henv l, gives_iff hsep henv r, value?_binary,
      DivisorsNonzero]
    constructor
    · rintro ⟨x, y, ⟨hx, hl⟩, ⟨hy, hr⟩, hdiv, hxy⟩
      refine ⟨⟨x, y, hx, hy, hxy⟩, hl, hr, fun hop y' hy' => ?_⟩
      obtain rfl : y = y' := Option.some.inj (hy.symm.trans hy')
      exact hdiv hop
    · rintro ⟨⟨x, y, hx, hy, hxy⟩, hl, hr, hdiv⟩
      exact ⟨x, y, ⟨hx, hl⟩, ⟨hy, hr⟩, fun hop => hdiv hop y hy, hxy⟩
  | call function [arg] =>
    rw [gives_call, value?_call]
    constructor
    · rintro ⟨_, x, ⟨⟩, hx, hv⟩
      obtain ⟨hx, harg⟩ := (gives_iff hsep henv arg x).mp hx
      exact ⟨⟨x, hx, hv⟩, harg⟩
    · rintro ⟨⟨x, hx, hv⟩, harg⟩
      exact ⟨arg, x, rfl, (gives_iff hsep henv arg x).mpr ⟨hx, harg⟩, hv⟩
  | call function [] | call function (_ :: _ :: _) =>
    rw [gives_call]
    simp [value?]

/-- At each statement of a program, an expression has a numeric parameter just when it has a value
itself and divides by nothing that is zero, and then the two numbers are one, whatever the
arithmetic. -/
theorem toParam_value?_iff (hsep : ∀ w : F, (w == 0) = true → (w == 1) = false)
    {program before : List Statement} {c : Circuit F} {state : Environment F × Circuit F}
    (hlayout : Environment.ofStatements program = .ok env)
    (hrun : before.foldlM applyStatement (env, c) = .ok state) (e : Expression) (v : F) :
    (∃ p, e.toParam state.1 {} = .ok p ∧ p.value? = some v) ↔
      e.value? = some v ∧ e.DivisorsNonzero F := by
  have hinputs : state.1.SymbolicInputs := Environment.symbolicInputs_of_run hlayout hrun
  exact gives_iff hsep hinputs e v

/-- After `input theta;`, the expression `sin(-2 ** pi / 3)`. -/
theorem toParam_value?_iff_quotient :
    ∃ state : Environment Float × Circuit Float,
      [Statement.input "theta"].foldlM applyStatement ({}, { qubits := 0, clbits := 0 }) =
        .ok state ∧
      ∃ p, (call "sin" [binary (neg (binary (int 2) .pow pi)) .div (int 3)]).toParam state.1 {} =
          .ok p ∧
        p.value? = some (Scalar.sin (-Scalar.pow 2 Scalar.pi / 3)) := by
  have hlayout : Environment.ofStatements (F := Float) [] = .ok {} := rfl
  have hthree : ((Scalar.ofNat 3 : Float) == 0) = false := rfl
  obtain ⟨state, hrun⟩ : ∃ state : Environment Float × Circuit Float,
    [Statement.input "theta"].foldlM applyStatement ({}, { qubits := 0, clbits := 0 }) =
      .ok state := ⟨_, rfl⟩
  refine ⟨state, hrun, (toParam_value?_iff Number.beq_one_of_beq_zero hlayout hrun _ _).mpr
    ⟨rfl, ⟨trivial, trivial, (absurd · (by decide))⟩, trivial, fun _ y hy => ?_⟩⟩
  obtain rfl : Scalar.ofNat 3 = y := Option.some.inj hy
  exact hthree

end Expression

end Interchange.Qasm
