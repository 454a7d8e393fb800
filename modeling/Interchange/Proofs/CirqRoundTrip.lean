import Interchange.Proofs.CirqExpression
import Interchange.Proofs.GateListPassage
import Interchange.Proofs.TokenText

noncomputable section
namespace Interchange.Cirq

def GateObject.LeavesRoom {F : Type} (o : GateObject F) : Prop :=
  ∀ k, o.key.bind explicitBit? = some k → k + 1 < Number.indexLimit

theorem GateObject.LeavesRoom.of_key {F : Type} {o : GateObject F} (h : o.key = none) :
    o.LeavesRoom := by
  intro k hk
  rw [h] at hk
  cases hk

/-- Wherever a gate gets numbers by binding, so does the gate that it is read back as, and the two
have the same matrix. The exception is a phase whose exponent is taken for one with a name. -/
def ReadsBackAs (g h : Gate ℝ) : Prop :=
  ∀ b g₁ values, g.substitute b = .ok g₁ → g₁.numeric? = some values →
    ∃ h₁, h.substitute b = .ok h₁ ∧
      ((h₁.tag = g₁.tag ∧ h₁.numeric? = some values ∧ h₁.matrix = g₁.matrix) ∨
        ∃ v, values = [v] ∧ ∃ p ∈ namedPhases g₁.tag, |v / Real.pi - p.2| < 1 / (10 ^ 12 : ℕ) ∧
          h₁.tag = p.1 ∧ h₁.numeric? = some [] ∧ h₁.matrix = g₁.tag.matrix? [Real.pi * p.2])

section

variable {g h : Gate ℝ} {params qs : List (Param ℝ)}

theorem readsBackAs_refl (g : Gate ℝ) : ReadsBackAs g g :=
  fun _ g₁ _ hg hv => ⟨g₁, hg, .inl ⟨rfl, hv, rfl⟩⟩

/-- Parameters that keep their values make a gate that keeps its matrix. -/
theorem readsBackAs_of_keptBy (hg : Gate.new g.tag params = .ok g) (hh : Gate.new g.tag qs = .ok h)
    (hkept : List.Forall₂ Param.KeptBy g.params qs) : ReadsBackAs g h := by
  intro b g₁ values hb hv
  obtain ⟨htag, hmatrix, hvalues⟩ := Gate.evaluate_of_substitute hg hb hv
  have hsame : h.tag = g.tag := Gate.tag_of_new hh
  have hvalues' : List.Forall₂ (fun p v => p.evaluate b = .ok v) h.params values := by
    obtain ⟨-, -, -, rfl⟩ := Gate.new_eq_ok_iff.mp hh
    refine Param.KeptBy.forall₂_evaluate (List.forall₂_map_right_iff.mpr ?_) hvalues
    exact hkept.imp fun p q hpq => hpq.simplify
  obtain ⟨h₁, hh₁, htag₁, hnumeric, hmatrix₁⟩ := Gate.exists_substitute (hsame ▸ hh) hvalues'
  refine ⟨h₁, hh₁, .inl ⟨?_, hnumeric, ?_⟩⟩
  · rw [htag₁, hsame, htag]
  · rw [hmatrix₁, hsame, hmatrix]

/-- The named gate that a number is taken for is the phase by the exponent of the name. -/
theorem readsBackAs_of_named (hg : Gate.new g.tag params = .ok g) {p : Param ℝ} {v : ℝ}
    (hparams : g.params = [p]) (hv : p.value? = some v) {named : Tag × ℝ}
    (hnamed : named ∈ namedPhases g.tag) (htaken : IsTakenFor (v / Real.pi) named.2)
    (hh : Gate.new named.1 [] = .ok h) : ReadsBackAs g h := by
  intro b g₁ values hb hvalues
  obtain ⟨htag, -, hvalues⟩ := Gate.evaluate_of_substitute hg hb hvalues
  obtain rfl : values = [v] := by
    rw [hparams] at hvalues
    obtain ⟨w, _, hw, hrest, rfl⟩ := List.forall₂_cons_left_iff.mp hvalues
    obtain rfl := List.forall₂_nil_left_iff.mp hrest
    rw [Param.evaluate_of_value? hv] at hw
    rw [Except.ok.inj hw]
  obtain ⟨-, -, -, rfl⟩ := Gate.new_eq_ok_iff.mp hh
  refine ⟨_, Gate.substitute_of_not_parameterized rfl b, .inr ⟨v, rfl, named, ?_, ?_, rfl, rfl, ?_⟩⟩
  · rwa [htag]
  · rw [Nat.cast_pow, Nat.cast_ofNat]
    exact isTakenFor_iff.mp htaken
  · rw [htag, ← matrix_of_named hnamed]
    rfl

theorem exists_new_of_keptBy (hg : Gate.new g.tag params = .ok g) {p q : Param ℝ}
    (hparams : g.params = [p]) (hkept : p.KeptBy q) :
    ∃ h, Gate.new g.tag [q] = .ok h ∧ h.qubits = g.qubits ∧ ReadsBackAs g h := by
  have hbuilt := Gate.isBuilt_of_new hg
  have hp : p.isAdmissible = true := hbuilt.isAdmissible p (hparams ▸ List.mem_cons_self)
  obtain ⟨h, hnew⟩ : ∃ h, Gate.new g.tag [q] = .ok h := by
    refine ⟨_, Gate.new_eq_ok_iff.mpr ⟨hbuilt.tag_ne, ?_, ?_, rfl⟩⟩
    · rw [← hbuilt.length_params, hparams]
      rfl
    · exact List.forall_mem_singleton.mpr (hkept.simplify.isAdmissible hp)
  have htag : h.tag = g.tag := Gate.tag_of_new hnew
  refine ⟨h, hnew, ?_, readsBackAs_of_keptBy hg hnew ?_⟩
  · rw [Gate.qubits_of_tag (htag ▸ hbuilt.tag_ne), htag, Gate.qubits_of_tag hbuilt.tag_ne]
  · rw [hparams]
    exact .cons hkept .nil

theorem exists_param (hg : Gate.new g.tag params = .ok g) (hcount : g.tag.paramCount = 1) :
    ∃ p, g.params = [p] ∧ angleOf g = .ok p := by
  obtain ⟨p, hp⟩ := List.length_eq_one_iff.mp
    ((Gate.isBuilt_of_new hg).length_params.trans hcount)
  refine ⟨p, hp, ?_⟩
  rw [angleOf, hp]
  rfl

theorem new_of_no_params (hg : Gate.new g.tag params = .ok g) (hcount : g.tag.paramCount = 0) :
    Gate.new g.tag [] = .ok g := by
  have hlength := (Gate.new_eq_ok_iff.mp hg).2.1
  rwa [List.length_eq_zero_iff.mp (hlength.trans hcount)] at hg

theorem namedPhases_spec {tag : Tag} {named : Tag × ℝ} (h : named ∈ namedPhases tag) :
    named.1 ≠ .unitary ∧ named.1.paramCount = 0 ∧ named.1.qubits? = tag.qubits? := by
  cases tag with
  | phase =>
    simp only [namedPhases, List.mem_cons, List.not_mem_nil, or_false] at h
    rcases h with rfl | rfl | rfl | rfl | rfl | rfl <;> decide
  | cphase =>
    simp only [namedPhases, List.mem_cons, List.not_mem_nil, or_false] at h
    rcases h with rfl | rfl <;> decide
  | _ => cases h

end

section

variable [Numeral ℝ] {g : Gate ℝ} {params : List (Param ℝ)} {i : Instruction ℝ} {qubits : ℕ}

/-- A gate object is read, whatever names are registered, as a gate that stands for another. -/
def GateObject.Restores (o : GateObject ℝ) (g : Gate ℝ) : Prop :=
  ∀ c : Circuit ℝ, ∃ registry tag params h,
    o.classify c = .ok ({ c with registry := registry }, tag, params) ∧
      Gate.new tag params = .ok h ∧ h.qubits = g.qubits ∧ ReadsBackAs g h

theorem classify_power {type : String} (htype : IsPowerType type) {e : Expression ℝ} {shift : ℝ}
    {c : Circuit ℝ} {registry : Registry} {q : Param ℝ}
    (hq : e.toParam c.registry = .ok (registry, q)) {result : Tag × List (Param ℝ)}
    (hresult : (GateObject.power type e shift).ofPower q = .ok result) :
    (GateObject.power type e shift).classify c = .ok ({ c with registry := registry }, result) := by
  have hname : (GateObject.power type e shift).type = type := rfl
  have hswap : type ≠ "CSwapGate" := fun heq => htype.2 (by simp [heq])
  have hread : readExpression c e = .ok ({ c with registry := registry }, q) := by
    rw [readExpression, hq]
  unfold GateObject.classify
  rw [hname, htype.1]
  dsimp only
  rw [if_neg hswap]
  exact bind_eq_ok_iff.mpr ⟨_, hread, bind_eq_ok_iff.mpr ⟨_, hresult, rfl⟩⟩

theorem restores_fixed (hg : Gate.new g.tag params = .ok g) {type : String} {e shift : ℝ}
    (h : fixedPower? g.tag = some (type, e)) :
    (GateObject.power type (.number e) shift).Restores g := by
  obtain ⟨htype, hcount⟩ := isPowerType_of_fixed h
  intro c
  exact ⟨c.registry, g.tag, [], g, classify_power htype rfl (ofPower_fixed h),
    new_of_no_params hg hcount, rfl, readsBackAs_refl g⟩

/-- An angle is read from its half turns, or as a phase with a name. -/
theorem restores_halfTurns (hg : Gate.new g.tag params = .ok g) {p : Param ℝ}
    (hparams : g.params = [p]) {type : String} {shift : ℝ}
    (h : halfTurns? g.tag = some (type, shift)) :
    (GateObject.power type (.ofParam (p / .pi)) shift).Restores g := by
  obtain ⟨htype, hcount⟩ := isPowerType_of_halfTurns h
  intro c
  obtain ⟨registry, q, hq, hkept⟩ := Expression.reads_ofParam (p / .pi) c.registry
  obtain ⟨result, hresult, hcases⟩ := exists_ofPower h
    (g := .power type (.ofParam (p / .pi)) shift) rfl q
  have hclassify := classify_power htype hq hresult
  rcases hcases with ⟨named, hnamed, ⟨e, he, htaken⟩, rfl⟩ | rfl
  · -- only a number can be taken for another, so the angle is one
    have hfixed : p.isSymbolic = false := by
      have hdiv : (p / .pi : Param ℝ).isSymbolic = (p.isSymbolic || false) :=
        Param.isSymbolic_simplify (p.div .pi)
      rw [← Bool.or_false p.isSymbolic, ← hdiv, ← hkept.symbolic]
      exact Param.isSymbolic_eq_false_of_value? he
    have hadmissible := (Gate.isBuilt_of_new hg).isAdmissible p (hparams ▸ List.mem_cons_self)
    rw [Param.isAdmissible, hfixed, Bool.false_or, Option.any_eq_true] at hadmissible
    obtain ⟨v, hv, -⟩ := hadmissible
    obtain rfl := Option.some.inj (he.symm.trans (hkept.value?_eq (value?_div_pi hv)))
    obtain ⟨hu, hzero, hqubits⟩ := namedPhases_spec hnamed
    obtain ⟨k, hk, htag, -⟩ :
        ∃ k : Gate ℝ, Gate.new named.1 [] = .ok k ∧ k.tag = named.1 ∧ k.HasValues [] :=
      Gate.exists_new_of_values hu hzero.symm rfl (by simp)
    refine ⟨registry, named.1, [], k, hclassify, hk, ?_,
      readsBackAs_of_named hg hparams hv hnamed htaken hk⟩
    rw [Gate.qubits_of_tag (htag ▸ hu), htag, hqubits,
      Gate.qubits_of_tag (Gate.isBuilt_of_new hg).tag_ne]
  · have hangle : p.KeptBy (.pi * q) :=
      (Param.KeptBy.halfTurns p).trans
        ((Param.KeptBy.refl .pi).mul ((Param.KeptBy.refl _).simplify.trans hkept)).simplify
    obtain ⟨k, hk, hqubits, hreads⟩ := exists_new_of_keptBy hg hparams hangle
    exact ⟨registry, g.tag, _, k, hclassify, hk, hqubits, hreads⟩

theorem restores_rads (hg : Gate.new g.tag params = .ok g) {p : Param ℝ}
    (hparams : g.params = [p]) {type : String} (h : rads? g.tag = some type) :
    GateObject.Restores { type, rads := some (.ofParam p) } g := by
  obtain ⟨hrotation, -, hcount⟩ := rotation_of_rads h
  intro c
  obtain ⟨registry, q, hq, hkept⟩ := Expression.reads_ofParam p c.registry
  obtain ⟨k, hk, hqubits, hreads⟩ := exists_new_of_keptBy hg hparams hkept
  have hread : readExpression c (.ofParam p) = .ok ({ c with registry := registry }, q) := by
    rw [readExpression, hq]
  refine ⟨registry, g.tag, [q], k, ?_, hk, hqubits, hreads⟩
  unfold GateObject.classify
  dsimp only
  rw [hrotation]
  exact bind_eq_ok_iff.mpr ⟨_, hread, rfl⟩

theorem restores_cswap (hg : Gate.new g.tag params = .ok g) (htag : g.tag = .cswap) :
    (GateObject.named "CSwapGate").Restores g := by
  intro c
  have hnew := new_of_no_params hg (congrArg Tag.paramCount htag)
  exact ⟨c.registry, .cswap, [], g, rfl, htag ▸ hnew, rfl, readsBackAs_refl g⟩

/-- What is read back from an instruction: one on the same qubits and bits. -/
structure IsReadAs (i j : Instruction ℝ) : Prop where
  qubits : j.qubits = i.qubits
  clbits : j.clbits = i.clbits
  gate : ReadsBackAs i.gate j.gate

/-- Reading an operation into a circuit of some width appends what an instruction is read as. -/
def Operation.Appends (o : Operation ℝ) (qubits : ℕ) (i : Instruction ℝ) : Prop :=
  ∀ s : Circuit ℝ × KeyBits, s.1.qubits = qubits → ∃ j s', IsReadAs i j ∧ s'.1.qubits = qubits ∧
    s'.1.instructions = s.1.instructions ++ [j] ∧ o.read s = .ok s'

theorem GateObject.Restores.appends {o : GateObject ℝ} (h : o.Restores i.gate)
    (htype : o.type ∉ ["MeasurementGate", "IdentityGate", "MatrixGate"])
    (hw : i.WellFormed qubits) (hclbits : i.clbits = []) :
    (Operation.on o i.qubits).Appends qubits i := by
  rintro ⟨c, keys⟩ hc
  obtain ⟨registry, tag, params, k, hclassify, hnew, hqubits, hreads⟩ := h c
  have hlist : QubitList c.qubits k.qubits i.qubits := by
    rw [hqubits]
    exact hc ▸ hw
  have happly := Circuit.apply_of_new (c := { c with registry := registry }) hnew hlist
  refine ⟨⟨k, i.qubits, []⟩, (c.extended [⟨k, i.qubits, []⟩] registry, keys),
    ⟨rfl, hclbits.symm, hreads⟩, hc, rfl, ?_⟩
  rw [Operation.read_eq_apply htype, map_on]
  exact bind_eq_ok_iff.mpr ⟨_, hclassify, bind_eq_ok_iff.mpr
    ⟨_, ConvertError.lift_eq_ok_iff.mpr happly, rfl⟩⟩

theorem appends_identity (hg : Gate.new i.gate.tag params = .ok i.gate) (htag : i.tag = .id)
    (hw : i.WellFormed qubits) (hclbits : i.clbits = []) {o : GateObject ℝ}
    (htype : o.type = "IdentityGate") : (Operation.on o i.qubits).Appends qubits i := by
  rintro ⟨c, keys⟩ hc
  have hnew : Gate.new .id [] = .ok i.gate :=
    htag ▸ new_of_no_params hg (congrArg Tag.paramCount htag)
  obtain ⟨q, hq⟩ : ∃ q, i.qubits = [q] := by
    rw [← List.length_eq_one_iff, hw.length_eq, Gate.qubits_of_tag (Gate.isBuilt_of_new hg).tag_ne]
    exact congrArg (fun tag : Tag => tag.qubits?.getD 0) htag
  have hlist : QubitList c.qubits i.gate.qubits [q] := by
    rw [← hq]
    exact hc ▸ hw
  have happly := Circuit.apply_of_new hnew hlist
  refine ⟨⟨i.gate, [q], []⟩, (c.extended [⟨i.gate, [q], []⟩] c.registry, keys),
    ⟨hq.symm, hclbits.symm, readsBackAs_refl _⟩, hc, rfl, ?_⟩
  unfold Operation.read
  dsimp only
  rw [map_on, hq, show (Operation.on o [q]).gate.type = "IdentityGate" from htype]
  exact bind_eq_ok_iff.mpr ⟨_, bind_eq_ok_iff.mpr
    ⟨_, ConvertError.lift_eq_ok_iff.mpr happly, rfl⟩, rfl⟩

theorem appends_matrix {m : Operator ℝ} (hm : Gate.ofMatrix m = .ok i.gate)
    (hw : i.WellFormed qubits) (hclbits : i.clbits = []) {o : GateObject ℝ}
    (htype : o.type = "MatrixGate") (hmatrix : o.matrix = some m.toPairs) :
    (Operation.on o i.qubits).Appends qubits i := by
  rintro ⟨c, keys⟩ hc
  have hread : readMatrix (F := ℝ) .cirq m.toPairs = .ok m := by
    rw [readMatrix, Operator.ofPairs?_toPairs]
  have hpush := Circuit.pushGate_of_qubitList (c := c) (g := i.gate) (hc ▸ hw)
  refine ⟨⟨i.gate, i.qubits, []⟩, (c.extended [⟨i.gate, i.qubits, []⟩] c.registry, keys),
    ⟨rfl, hclbits.symm, readsBackAs_refl _⟩, hc, rfl, ?_⟩
  unfold Operation.read
  dsimp only
  rw [map_on, show (Operation.on o i.qubits).gate.type = "MatrixGate" from htype,
    show (Operation.on o i.qubits).gate.matrix = some m.toPairs from hmatrix]
  exact bind_eq_ok_iff.mpr ⟨m, hread, bind_eq_ok_iff.mpr
    ⟨i.gate, ConvertError.lift_eq_ok_iff.mpr hm, bind_eq_ok_iff.mpr
      ⟨_, ConvertError.lift_eq_ok_iff.mpr hpush, rfl⟩⟩⟩

omit [Numeral ℝ] in
theorem explicitBit?_repr {b : ℕ} (hb : b < Number.indexLimit) :
    explicitBit? ("c" ++ Nat.repr b) = some b := by
  have hkey : ("c" ++ Nat.repr b).toList = 'c' :: Nat.toDigits 10 b := by
    simp [Nat.repr]
  have hdigit : ∀ d ∈ Nat.toDigits 10 b, d.isDigit = true :=
    fun _ => Nat.isDigit_of_mem_toDigits (by decide) (by decide)
  rw [explicitBit?, hkey]
  change Number.readNat? Number.indexLimit (Nat.toDigits 10 b) = some b
  rw [Number.readNat?, Qasm.digitsValue_toDigits,
    if_pos ⟨Nat.toDigits_ne_nil, List.all_eq_true.mpr hdigit, hb⟩]
  intro digits heq
  have hplus := hdigit '+' (heq ▸ List.mem_cons_self)
  cases hplus

omit [Numeral ℝ] in
theorem exists_measure (hg : Gate.new i.gate.tag params = .ok i.gate) (htag : i.tag = .measure)
    (hw : i.WellFormed qubits) {clbits : ℕ} (hrecorded : i.Recorded clbits) :
    ∃ q b, b < clbits ∧ i = .measure q b := by
  have hgate : i.gate = .measure := by
    have hnew := new_of_no_params hg (congrArg Tag.paramCount htag)
    rw [show i.gate.tag = .measure from htag] at hnew
    exact (Except.ok.inj hnew).symm
  obtain ⟨q, hq⟩ : ∃ q, i.qubits = [q] := by
    rw [← List.length_eq_one_iff, hw.length_eq, hgate]
    rfl
  obtain ⟨b, hb, hclbits⟩ := hrecorded.exists_clbits (beq_iff_eq.mpr htag)
  refine ⟨q, b, hb, ?_⟩
  rw [Instruction.measure, ← hgate, ← hq, ← hclbits]

theorem appends_measure {q b : ℕ} (hb : b < Number.indexLimit) (hq : q < qubits)
    (hi : i = .measure q b) {o : GateObject ℝ} (htype : o.type = "MeasurementGate")
    (hkey : o.key = some ("c" ++ Nat.repr b)) : (Operation.on o i.qubits).Appends qubits i := by
  subst hi
  rintro ⟨c, keys⟩ hc
  obtain ⟨c', hpush, hgrows⟩ : ∃ c', c.measure q b = .ok c' ∧ c.Grows [.measure q b] c' := by
    have hpush : c.measure q b = .ok (c.pushed (.measure q b)) :=
      Circuit.push_eq_ok_iff.mpr ⟨List.forall_mem_singleton.mpr (hc ▸ hq), rfl⟩
    exact ⟨_, hpush, Circuit.grows_of_measure hpush⟩
  have hbits : keys.bits (F := ℝ) ("c" ++ Nat.repr b) 1 = .ok (keys, [b]) := by
    rw [KeyBits.bits, if_pos rfl, explicitBit?_repr hb]
  refine ⟨.measure q b, (c', keys), ⟨rfl, rfl, readsBackAs_refl _⟩, hgrows.qubits.trans hc,
    hgrows.instructions, ?_⟩
  unfold Operation.read
  dsimp only
  rw [map_on, show (Operation.on o _).gate.type = "MeasurementGate" from htype,
    show (Operation.on o _).gate.key = _ from hkey]
  exact bind_eq_ok_iff.mpr ⟨_, hbits, bind_eq_ok_iff.mpr ⟨c', bind_eq_ok_iff.mpr
    ⟨c', ConvertError.lift_eq_ok_iff.mpr hpush, rfl⟩, rfl⟩⟩

omit [Numeral ℝ] in
/-- The gates of the table that are neither powers nor rotations. -/
theorem tag_of_other {tag : Tag} (hs : table.supports tag = true)
    (hfixed : fixedPower? (F := ℝ) tag = none) (hturns : halfTurns? (F := ℝ) tag = none)
    (hrads : rads? tag = none) :
    tag = .id ∨ tag = .cswap ∨ tag = .unitary ∨ tag = .measure := by
  cases tag with
  | id | cswap | unitary | measure => decide
  | h | x | y | z | s | sdg | t | tdg | sx | sxdg | cx | cz | swap | iswap | ccx => cases hfixed
  | phase | cphase | rxx | ryy | rzz => cases hturns
  | rx | ry | rz => cases hrads
  | _ => exact absurd hs (by decide)

theorem exists_object_other (hmade : i.gate.IsConstructed)
    (htag : i.tag = .id ∨ i.tag = .cswap ∨ i.tag = .unitary ∨ i.tag = .measure)
    (hw : i.WellFormed qubits) (hrecorded : i.Recorded (Number.indexLimit - 1)) :
    ∃ o, GateObject.ofOther i = .ok o ∧ (Operation.on o i.qubits).Appends qubits i ∧
      o.LeavesRoom := by
  have hnew (hu : i.tag ≠ .unitary) := hmade.exists_new hu
  have hclbits (hm : i.tag ≠ .measure) : i.clbits = [] :=
    hrecorded.clbits_eq_nil (by simpa [Instruction.isMeasure] using hm)
  unfold GateObject.ofOther
  rcases htag with htag | htag | htag | htag
  · obtain ⟨params, hg⟩ := hnew (by rw [htag]; decide)
    have hbits := hclbits (by rw [htag]; decide)
    rw [htag]
    exact ⟨_, rfl, appends_identity hg htag hw hbits rfl, .of_key rfl⟩
  · obtain ⟨params, hg⟩ := hnew (by rw [htag]; decide)
    have hbits := hclbits (by rw [htag]; decide)
    rw [htag]
    exact ⟨_, rfl, (restores_cswap hg htag).appends (by decide) hw hbits, .of_key rfl⟩
  · obtain ⟨params, hg⟩ | ⟨m, hm⟩ := hmade
    · exact absurd htag (Gate.isBuilt_of_new hg).tag_ne
    have hbits := hclbits (by rw [htag]; decide)
    have hmatrix : i.gate.matrix = some m := congrArg Gate.matrix (Gate.eq_of_ofMatrix hm)
    rw [htag, hmatrix]
    exact ⟨_, rfl, appends_matrix hm hw hbits rfl rfl, .of_key rfl⟩
  · obtain ⟨params, hg⟩ := hnew (by rw [htag]; decide)
    obtain ⟨q, b, hb, hi⟩ := exists_measure hg htag hw hrecorded
    have hq : q < qubits := hw.lt q (by rw [hi]; exact List.mem_cons_self)
    have hlimit : b < Number.indexLimit := by omega
    have hbit : i.clbits = [b] := congrArg Instruction.clbits hi
    rw [htag, hbit]
    refine ⟨_, rfl, appends_measure hlimit hq hi rfl rfl, fun k hk => ?_⟩
    obtain rfl : b = k := Option.some.inj ((explicitBit?_repr hlimit).symm.trans hk)
    omega

/-- Every instruction over the table is written as a gate object from which it is read back. -/
theorem exists_object (hmade : i.gate.IsConstructed) (hs : table.supports i.tag = true)
    (hw : i.WellFormed qubits) (hrecorded : i.Recorded (Number.indexLimit - 1)) :
    ∃ o, GateObject.ofInstruction i = .ok o ∧ (Operation.on o i.qubits).Appends qubits i ∧
      o.LeavesRoom := by
  have hne {α : Type} {f : Tag → Option α} {x : α} (hx : f i.tag = some x) {tag : Tag}
      (hnone : f tag = none) : i.tag ≠ tag := by
    intro heq
    rw [heq, hnone] at hx
    cases hx
  have hclbits (hm : i.tag ≠ .measure) : i.clbits = [] :=
    hrecorded.clbits_eq_nil (by simpa [Instruction.isMeasure] using hm)
  have hpower {type : String} (htype : IsPowerType type) :
      type ∉ ["MeasurementGate", "IdentityGate", "MatrixGate"] :=
    fun hmem => htype.2 (List.mem_cons_of_mem _ hmem)
  unfold GateObject.ofInstruction
  cases hfixed : fixedPower? (F := ℝ) i.tag with
  | some x =>
    obtain ⟨type, e⟩ := x
    obtain ⟨params, hg⟩ := hmade.exists_new (hne hfixed rfl)
    exact ⟨_, rfl, (restores_fixed hg hfixed).appends (hpower (isPowerType_of_fixed hfixed).1) hw
      (hclbits (hne hfixed rfl)), .of_key rfl⟩
  | none =>
    cases hturns : halfTurns? (F := ℝ) i.tag with
    | some x =>
      obtain ⟨type, shift⟩ := x
      obtain ⟨params, hg⟩ := hmade.exists_new (hne hturns rfl)
      obtain ⟨htype, hcount⟩ := isPowerType_of_halfTurns hturns
      obtain ⟨p, hp, hangle⟩ := exists_param hg hcount
      rw [hangle]
      exact ⟨_, rfl, (restores_halfTurns hg hp hturns).appends (hpower htype) hw
        (hclbits (hne hturns rfl)), .of_key rfl⟩
    | none =>
      cases hrads : rads? i.tag with
      | some type =>
        obtain ⟨params, hg⟩ := hmade.exists_new (hne hrads rfl)
        obtain ⟨-, htype, hcount⟩ := rotation_of_rads hrads
        obtain ⟨p, hp, hangle⟩ := exists_param hg hcount
        rw [hangle]
        exact ⟨_, rfl, (restores_rads hg hp hrads).appends htype hw (hclbits (hne hrads rfl)),
          .of_key rfl⟩
      | none => exact exists_object_other hmade (tag_of_other hs hfixed hturns hrads) hw hrecorded

theorem Operation.exists_ofInstruction (hmade : i.gate.IsConstructed)
    (hs : table.supports i.tag = true) (hw : i.WellFormed qubits)
    (hrecorded : i.Recorded (Number.indexLimit - 1)) :
    ∃ o, Operation.ofInstruction i = .ok o ∧ o.Appends qubits i ∧ o.gate.LeavesRoom := by
  obtain ⟨g, hg, happends, hkey⟩ := exists_object hmade hs hw hrecorded
  obtain ⟨name, hrequire⟩ := GateTable.exists_require (F := ℝ) hs
  refine ⟨.on g i.qubits, bind_eq_ok_iff.mpr ⟨(), ?_, ?_⟩, happends, hkey⟩
  · rw [hrequire]
    rfl
  · rw [hg]
    rfl

end

section

variable {F : Type}

def Operation.Apart (o o' : Operation F) : Prop :=
  (o.qubits.map (·.x)).Disjoint (o'.qubits.map (·.x))

theorem apart_of_accepts {os : List (Operation F)} {o : Operation F}
    (h : Moment.accepts { operations := os } o = true) : ∀ o' ∈ os, o'.Apart o := by
  intro o' ho' x hx hx'
  obtain ⟨q, hq, rfl⟩ := List.mem_map.mp hx
  obtain ⟨q', hq', heq⟩ := List.mem_map.mp hx'
  have hfree := List.all_eq_true.mp h q (List.mem_flatMap.mpr ⟨o', ho', hq⟩)
  rw [Bool.not_eq_true', List.any_eq_false] at hfree
  exact hfree q' hq' (beq_iff_eq.mpr heq)

/-- An operation goes into a moment only if it shares no qubit with the others. -/
theorem pairwise_packFrom {current os : List (Operation F)}
    (h : current.Pairwise Operation.Apart) :
    ∀ m ∈ packFrom current os, m.operations.Pairwise Operation.Apart := by
  induction os generalizing current with
  | nil => exact List.forall_mem_singleton.mpr h
  | cons o os ih =>
    unfold packFrom
    split_ifs with haccepts
    · refine ih (List.pairwise_append.mpr ⟨h, List.pairwise_singleton _ _, ?_⟩)
      intro o' ho' p hp
      obtain rfl := List.mem_singleton.mp hp
      exact apart_of_accepts haccepts o' ho'
    · exact List.forall_mem_cons.mpr ⟨h, ih (List.pairwise_singleton _ _)⟩

theorem pairwise_ofOperations (os : List (Operation F)) :
    ∀ m ∈ (Document.ofOperations os).moments, m.operations.Pairwise Operation.Apart := by
  cases os with
  | nil => exact fun _ hm => absurd hm List.not_mem_nil
  | cons o os => exact pairwise_packFrom (List.pairwise_singleton _ _)

def neededWidth (is : List (Instruction F)) : ℕ :=
  ((is.flatMap (·.qubits)).map (· + 1)).foldl max 0

theorem isLeast_neededWidth (is : List (Instruction F)) :
    IsLeast {n | ∀ i ∈ is, ∀ q ∈ i.qubits, q < n} (neededWidth is) := by
  suffices h : ∀ (qs : List ℕ) (m : ℕ),
      IsLeast {n | m ≤ n ∧ ∀ q ∈ qs, q < n} ((qs.map (· + 1)).foldl max m) by
    refine Circuit.isLeast_width ?_
    simpa only [neededWidth, Nat.zero_le, true_and] using h (is.flatMap (·.qubits)) 0
  intro qs
  induction qs with
  | nil => exact fun m => ⟨by simp, fun n hn => hn.1⟩
  | cons q qs ih =>
    intro m
    rw [List.map_cons, List.foldl_cons]
    obtain ⟨⟨hle, hlt⟩, hleast⟩ := ih (max m (q + 1))
    refine ⟨⟨by omega, List.forall_mem_cons.mpr ⟨by omega, hlt⟩⟩, ?_⟩
    rintro n ⟨hmn, hn⟩
    obtain ⟨hq, hqs⟩ := List.forall_mem_cons.mp hn
    exact hleast ⟨by omega, hqs⟩

theorem KeyBits.exists_start {d : Document F} (h : ∀ o ∈ d.operations, o.gate.LeavesRoom) :
    ∃ keys, KeyBits.start d = .ok keys := by
  unfold KeyBits.start
  dsimp only
  split
  next => exact ⟨_, rfl⟩
  next k hk =>
    obtain ⟨o, ho, hbit⟩ := List.mem_filterMap.mp (List.max?_mem hk)
    split_ifs at hbit
    exact ⟨_, if_pos (h o ho k hbit)⟩

variable [Scalar F]

theorem Operation.qubits_of_ofInstruction {i : Instruction F} {o : Operation F}
    (h : Operation.ofInstruction i = .ok o) : o.qubits = i.qubits.map fun x => { x := x } := by
  obtain ⟨_, -, h⟩ := bind_eq_ok_iff.mp h
  obtain ⟨g, -, h⟩ := bind_eq_ok_iff.mp h
  rw [← Except.ok.inj h]
  rfl

theorem flatMap_qubits_of_ofInstruction {is : List (Instruction F)} {os : List (Operation F)}
    (h : is.mapM Operation.ofInstruction = .ok os) :
    os.flatMap (·.qubits) = (is.flatMap (·.qubits)).map fun x => { x := x } := by
  rw [mapM_eq_ok_iff] at h
  induction h with
  | nil => rfl
  | cons ho _ ih =>
    rw [List.flatMap_cons, List.flatMap_cons, List.map_append, ih,
      Operation.qubits_of_ofInstruction ho]

/-- A document is read by a run over its operations, once its qubits and keys have been checked. -/
theorem decode_ofOperations [Numeral F] {is : List (Instruction F)} {os : List (Operation F)}
    (hos : is.mapM Operation.ofInstruction = .ok os)
    (hindex : ∀ i ∈ is, ∀ q ∈ i.qubits, q + 1 < Number.indexLimit) {keys : KeyBits}
    (hstart : KeyBits.start (.ofOperations os) = .ok keys) {s : Circuit F × KeyBits}
    (hrun : os.foldlM (fun s o => o.read s)
      ({ qubits := neededWidth is, clbits := 0 }, keys) = .ok s) :
    decode (.ofOperations os) = .ok s.1 := by
  unfold decode
  rw [Document.operations_ofOperations, flatMap_qubits_of_ofInstruction hos]
  dsimp only
  rw [List.map_map]
  refine bind_eq_ok_iff.mpr ⟨(), forM_eq_ok_iff.mpr fun q hq => ?_, bind_eq_ok_iff.mpr
    ⟨keys, hstart, bind_eq_ok_iff.mpr ⟨s, hrun, rfl⟩⟩⟩
  obtain ⟨x, hx, rfl⟩ := List.mem_map.mp hq
  obtain ⟨i, hi, hx⟩ := List.mem_flatMap.mp hx
  rw [LineQubit.check, if_neg (not_not.mpr rfl), if_pos (hindex i hi x hx)]

end

/-- Circuits come back from the documents they are written as. Every circuit over the gates of the
table whose gates are made by constructors, whose measurements write one bit each and whose indices
leave room for a next one can be written and read again. The moments hold the operations of the
instructions in their order, and those of one moment share no qubit. What is read is as wide as the
qubits need. Each instruction keeps its qubits and bits, and under all bindings that leave numbers
only its gate keeps its matrix, save phases that are taken for one with a name. -/
theorem moments_read_back [Numeral ℝ] {c : Circuit ℝ} (hw : c.WellFormed)
    (hmade : ∀ i ∈ c.instructions, i.gate.IsConstructed)
    (hs : ∀ i ∈ c.instructions, table.supports i.tag = true)
    (hindex : ∀ i ∈ c.instructions, ∀ q ∈ i.qubits, q + 1 < Number.indexLimit)
    (hrecorded : ∀ i ∈ c.instructions, i.Recorded (Number.indexLimit - 1)) :
    ∃ d c', encode c = .ok d ∧
      List.Forall₂ (fun i o => Operation.ofInstruction i = .ok o ∧ o.qubits.map (·.x) = i.qubits)
        c.instructions (d.moments.flatMap (·.operations)) ∧
      (∀ m ∈ d.moments, m.operations.Pairwise Operation.Apart) ∧
      decode d = .ok c' ∧ IsLeast {n | ∀ i ∈ c.instructions, ∀ q ∈ i.qubits, q < n} c'.qubits ∧
      List.Forall₂ IsReadAs c.instructions c'.instructions := by
  have hleast := isLeast_neededWidth c.instructions
  have hwritten : ∀ i ∈ c.instructions, ∃ o, Operation.ofInstruction i = .ok o ∧
      o.Appends (neededWidth c.instructions) i ∧ o.gate.LeavesRoom := by
    intro i hi
    refine Operation.exists_ofInstruction (hmade i hi) (hs i hi) ?_ (hrecorded i hi)
    exact ⟨(hw i hi).length_eq, (hw i hi).nodup, hleast.1 i hi⟩
  have hsteps : ∀ i ∈ c.instructions, ∃ o, Operation.ofInstruction i = .ok o ∧
      o.Appends (neededWidth c.instructions) i := by
    intro i hi
    obtain ⟨o, ho, happends, -⟩ := hwritten i hi
    exact ⟨o, ho, happends⟩
  obtain ⟨os, hos, hread⟩ := Circuit.exists_run_appended Prod.fst hsteps
  have hpairs := mapM_eq_ok_iff.mp hos
  have hkeys : ∀ o ∈ (Document.ofOperations os).operations, o.gate.LeavesRoom := by
    rw [Document.operations_ofOperations]
    intro o ho
    obtain ⟨i, hi, hio⟩ := exists_of_forall₂_right hpairs ho
    obtain ⟨o', ho', -, hkey⟩ := hwritten i hi
    rwa [Except.ok.inj (hio.symm.trans ho')]
  obtain ⟨keys, hstart⟩ := KeyBits.exists_start hkeys
  obtain ⟨js, s, hsame, hqubits, hjs, hrun⟩ := hread ({ qubits := _, clbits := 0 }, keys) rfl
  refine ⟨.ofOperations os, s.1, bind_eq_ok_iff.mpr ⟨os, hos, rfl⟩, ?_, pairwise_ofOperations os,
    decode_ofOperations hos hindex hstart hrun, ?_, ?_⟩
  · rw [show (Document.ofOperations os).moments.flatMap (·.operations) = os from
      Document.operations_ofOperations os]
    refine hpairs.imp fun i o ho => ⟨ho, ?_⟩
    rw [Operation.qubits_of_ofInstruction ho, List.map_map]
    exact List.map_id _
  · rw [hqubits]
    exact hleast
  · rw [hjs]
    exact hsame

/-- A phase that depends on two parameters, one that is taken for a half turn, a swap under control
and a measurement, on some qubits of a wider register. -/
def phases : Circuit ℝ where
  qubits := 9
  clbits := 4
  registry := ⟨["theta", "phi"]⟩
  instructions :=
    [⟨⟨.phase, [.div (.ref ⟨0, "theta"⟩) (.ref ⟨1, "phi"⟩)], none⟩, [4], []⟩,
      ⟨⟨.cphase, [.const (Real.pi + 1 / (10 ^ 13 : ℕ))],
        Tag.cphase.matrix? [Real.pi + 1 / (10 ^ 13 : ℕ)]⟩, [4, 0], []⟩,
      .fixed .cswap [3, 0, 1], .measure 4 3]

theorem moments_read_back_phases :
    ∃ d c', encode phases = .ok d ∧ @decode ℝ _ Qasm.naturalNumeral d = .ok c' ∧ c'.qubits = 5 ∧
      (∀ m ∈ d.moments, m.operations.Pairwise Operation.Apart) ∧
      List.Forall₂ IsReadAs phases.instructions c'.instructions := by
  let _ : Numeral ℝ := Qasm.naturalNumeral
  have hlt : ∀ i ∈ phases.instructions, ∀ q ∈ i.qubits, q < 5 := by
    simp only [phases, List.forall_mem_cons, List.not_mem_nil, false_imp_iff, implies_true,
      and_true]
    decide
  have hwell : phases.WellFormed := by
    simp only [Circuit.WellFormed, phases, List.forall_mem_cons, List.not_mem_nil, false_imp_iff,
      implies_true, and_true]
    exact ⟨⟨rfl, by decide, by decide⟩, ⟨rfl, by decide, by decide⟩, ⟨rfl, by decide, by decide⟩,
      ⟨rfl, by decide, by decide⟩⟩
  have hmade : ∀ i ∈ phases.instructions, i.gate.IsConstructed := by
    simp only [phases, List.forall_mem_cons, List.not_mem_nil, false_imp_iff, implies_true,
      and_true]
    exact ⟨.inl ⟨[.div (.ref ⟨0, "theta"⟩) (.ref ⟨1, "phi"⟩)], rfl⟩, .inl ⟨[.const _], rfl⟩,
      .inl ⟨[], rfl⟩, .inl ⟨[], rfl⟩⟩
  have hs : ∀ i ∈ phases.instructions, table.supports i.tag = true := by
    simp only [phases, List.forall_mem_cons, List.not_mem_nil, false_imp_iff, implies_true,
      and_true]
    exact ⟨rfl, rfl, rfl, rfl⟩
  have hrecorded : ∀ i ∈ phases.instructions, i.Recorded (Number.indexLimit - 1) := by
    simp only [phases, List.forall_mem_cons, List.not_mem_nil, false_imp_iff, implies_true,
      and_true]
    exact ⟨rfl, rfl, rfl, 3, by decide, rfl⟩
  have hindex : ∀ i ∈ phases.instructions, ∀ q ∈ i.qubits, q + 1 < Number.indexLimit := by
    intro i hi q hq
    have := hlt i hi q hq
    rw [Number.indexLimit]
    omega
  obtain ⟨d, c', hd, -, hmoments, hc', hwidth, hsame⟩ :=
    moments_read_back hwell hmade hs hindex hrecorded
  refine ⟨d, c', hd, hc', hwidth.unique ⟨hlt, fun n hn => ?_⟩, hmoments, hsame⟩
  exact hn _ List.mem_cons_self 4 List.mem_cons_self

end Interchange.Cirq
end
