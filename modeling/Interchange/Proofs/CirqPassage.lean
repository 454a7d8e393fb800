import Interchange.Proofs.GateMatrix
import Interchange.Proofs.NumericPassage

noncomputable section
namespace Interchange.Cirq
open Scalar

def IsTakenFor (e named : ℝ) : Prop := |e - named| < exponentTolerance

instance (e named : ℝ) : Decidable (IsTakenFor e named) :=
  inferInstanceAs (Decidable (|e - named| < exponentTolerance))

theorem any_isTakenFor (e named : ℝ) :
    ((Param.const e).value?.any fun x => decide (Scalar.abs (x - named) < exponentTolerance)) =
      decide (IsTakenFor e named) := rfl

theorem any_value?_iff {exponent : Param ℝ} {named : ℝ} :
    (exponent.value?.any fun e => decide (Scalar.abs (e - named) < exponentTolerance)) = true ↔
      ∃ e, exponent.value? = some e ∧ IsTakenFor e named := by
  rw [Option.any_eq_true]
  simp only [decide_eq_true_iff]
  exact Iff.rfl

theorem isTakenFor_iff {e named : ℝ} : IsTakenFor e named ↔ |e - named| < 1 / 10 ^ 12 := by
  have h : (exponentTolerance : ℝ) = 1 / 10 ^ 12 := by
    change ((1 : ℕ) : ℝ) * (10 : ℝ) ^ (-(12 : ℤ)) = _
    norm_num
  rw [IsTakenFor, h]

def namedPhases : Tag → List (Tag × ℝ)
  | .phase =>
    [(.z, 1), (.z, -1), (.s, half), (.sdg, -half), (.t, half * half), (.tdg, -(half * half))]
  | .cphase => [(.cz, 1), (.cz, -1)]
  | _ => []

/-- An angle keeps its value if its exponent is taken for no other one. -/
def KeepsAngle (tag : Tag) (v : ℝ) : Prop :=
  ∀ p ∈ namedPhases tag, IsTakenFor (v / Real.pi) p.2 → v = Real.pi * p.2

theorem cis_eq {s t : ℝ} {z : Amplitude ℝ} (hst : s = t) (h : unitPhase t = z.toComplex) :
    Tag.cis s = z := by
  subst hst
  exact Amplitude.toComplex_injective ((Tag.toComplex_cis s).trans h)

theorem unitPhase_halfPi : unitPhase (Real.pi / 2) = Complex.I := by
  rw [unitPhase, Complex.ofReal_div, Complex.ofReal_ofNat, Complex.exp_pi_div_two_mul_I]

theorem unitPhase_neg_halfPi : unitPhase (-(Real.pi / 2)) = -Complex.I := by
  have h := unitPhase_neg_mul (Real.pi / 2)
  rw [unitPhase_halfPi] at h
  rw [← Complex.inv_I]
  exact eq_inv_of_mul_eq_one_left h

theorem matrix_of_named {tag : Tag} {p : Tag × ℝ} (hp : p ∈ namedPhases tag) :
    p.1.matrix? [] = tag.matrix? [Real.pi * p.2] := by
  have hz : Tag.cis (Real.pi * 1) = -1 := cis_eq (mul_one _) unitPhase_pi
  have hz' : Tag.cis (Real.pi * -1) = -1 := cis_eq (mul_neg_one _) unitPhase_neg_pi
  cases tag with
  | phase =>
    have hmatrix {z : Amplitude ℝ} {t : ℝ} (h : Tag.cis t = z) :
        some (Operator.diagonal [1, z]) = Tag.phase.matrix? [t] := by
      rw [← h]
      rfl
    simp only [namedPhases, List.mem_cons, List.not_mem_nil, or_false] at hp
    rcases hp with rfl | rfl | rfl | rfl | rfl | rfl
    · exact hmatrix hz
    · exact hmatrix hz'
    · exact hmatrix (cis_eq (by rw [half_real]; ring) unitPhase_halfPi)
    · exact hmatrix (cis_eq (by rw [half_real]; ring) unitPhase_neg_halfPi)
    · exact hmatrix (congrArg Tag.cis (by rw [half_real, quarterPi_real]; ring))
    · exact hmatrix (congrArg Tag.cis (by rw [half_real, quarterPi_real]; ring))
  | cphase =>
    have hmatrix {z : Amplitude ℝ} {t : ℝ} (h : Tag.cis t = z) :
        some ((Operator.diagonal [1, z]).controlled 1) = Tag.cphase.matrix? [t] := by
      rw [← h]
      rfl
    simp only [namedPhases, List.mem_cons, List.not_mem_nil, or_false] at hp
    rcases hp with rfl | rfl
    · exact hmatrix hz
    · exact hmatrix hz'
  | _ => cases hp

/-- The types of gate objects that have no meaning of their own besides their exponent. -/
def IsPowerType (type : String) : Prop :=
  rotation? type = none ∧
    type ∉ ["CSwapGate", "MeasurementGate", "IdentityGate", "MatrixGate"]

theorem isPowerType_of_fixed {tag : Tag} {type : String} {e : ℝ}
    (h : fixedPower? tag = some (type, e)) : IsPowerType type ∧ tag.paramCount = 0 := by
  cases tag with
  | h | x | y | z | s | sdg | t | tdg | sx | sxdg | cx | cz | swap | iswap | ccx =>
    obtain ⟨rfl, -⟩ := Prod.mk.inj (Option.some.inj h)
    exact ⟨⟨rfl, by decide⟩, rfl⟩
  | _ => cases h

theorem isPowerType_of_halfTurns {tag : Tag} {type : String} {shift : ℝ}
    (h : halfTurns? tag = some (type, shift)) : IsPowerType type ∧ tag.paramCount = 1 := by
  cases tag with
  | phase | cphase | rxx | ryy | rzz =>
    obtain ⟨rfl, -⟩ := Prod.mk.inj (Option.some.inj h)
    exact ⟨⟨rfl, by decide⟩, rfl⟩
  | _ => cases h

theorem rotation_of_rads {tag : Tag} {type : String} (h : rads? tag = some type) :
    rotation? type = some tag ∧ type ∉ ["MeasurementGate", "IdentityGate", "MatrixGate"] ∧
      tag.paramCount = 1 := by
  cases tag with
  | rx | ry | rz =>
    obtain rfl := Option.some.inj h
    exact ⟨rfl, by decide, rfl⟩
  | _ => cases h

theorem exists_angle {g : Gate ℝ} {values : List ℝ} (hg : g.HasValues values)
    (hcount : g.tag.paramCount = 1) :
    ∃ p v, angleOf g = .ok p ∧ values = [v] ∧ p.value? = some v := by
  obtain ⟨v, rfl⟩ := List.length_eq_one_iff.mp (hg.length_eq.trans hcount)
  obtain ⟨p, ps, hp, -, hparams⟩ := List.forall₂_cons_right_iff.mp (mapM_eq_some_iff.mp hg.params)
  refine ⟨p, v, ?_, rfl, hp⟩
  rw [angleOf, hparams]
  rfl

theorem value?_div_pi {p : Param ℝ} {v : ℝ} (h : p.value? = some v) :
    (p / .pi : Param ℝ).value? = some (v / Real.pi) := by
  refine Param.value?_simplify ?_
  change (if (Real.pi == 0) = true then none else p.value?.bind fun x => some (x / Real.pi)) = _
  rw [if_neg (by rw [beq_iff]; exact Real.pi_ne_zero), h]
  rfl

theorem values?_angle {exponent : Param ℝ} {t : ℝ} (h : exponent.value? = some t) :
    Gate.values? [Param.pi * exponent] = some [Real.pi * t] := by
  have hvalue : (Param.pi * exponent : Param ℝ).value? = some (Real.pi * t) := by
    refine Param.value?_simplify ?_
    change (exponent.value?.bind fun x => some (Real.pi * x)) = _
    rw [h]
    rfl
  rw [Gate.values?, mapM_eq_some_iff]
  exact .cons hvalue .nil

theorem ofParam_of_value? {F : Type} [Scalar F] {p : Param F} {v : F} (h : p.value? = some v) :
    Expression.ofParam p = .number v := by
  unfold Expression.ofParam
  rw [h]

/-- Every block that has been handed out begins before the last index, so that one bit of it can be
written. -/
def KeyBits.LeavesRoom (s : KeyBits) : Prop :=
  ∀ key first, s.assigned.lookup key = some first → first + 1 < Number.indexLimit

theorem KeyBits.leavesRoom_of_start {F : Type} {d : Document F} {s : KeyBits}
    (h : KeyBits.start d = .ok s) : s.LeavesRoom := by
  unfold KeyBits.start at h
  dsimp only at h
  intro key first hfirst
  split at h
  · cases h
    cases hfirst
  · split_ifs at h
    cases h
    cases hfirst

theorem KeyBits.block_one {first : ℕ} (h : first + 1 < Number.indexLimit) :
    block first 1 = [first] := by
  rw [block, Nat.mod_eq_of_lt h, Nat.add_sub_cancel_left]
  rfl

theorem KeyBits.exists_bit {s s' : KeyBits} {key : String} {bits : List ℕ} (hs : s.LeavesRoom)
    (h : s.bits (F := ℝ) key 1 = .ok (s', bits)) : s'.LeavesRoom ∧ ∃ b, bits = [b] := by
  unfold KeyBits.bits at h
  rw [if_pos rfl] at h
  split at h
  · cases h
    exact ⟨hs, _, rfl⟩
  · split at h
    next first hfirst =>
      cases h
      exact ⟨hs, _, block_one (hs key first hfirst)⟩
    next =>
      split_ifs at h with hroom
      cases h
      refine ⟨fun key' first hfirst => ?_, _, block_one hroom⟩
      rw [List.lookup_cons] at hfirst
      split at hfirst
      · exact Option.some.inj hfirst ▸ hroom
      · exact hs key' first hfirst

theorem map_on (gate : GateObject ℝ) (xs : List ℕ) :
    (Operation.on gate xs).qubits.map (·.x) = xs := by
  rw [Operation.on, List.map_map]
  exact List.map_id xs

variable [Numeral ℝ] {i : Instruction ℝ} {c c' : Circuit ℝ} {qubits clbits : ℕ}

/-- A fixed power is read as the gate that it is written for. -/
theorem ofPower_fixed {tag : Tag} {type : String} {e shift : ℝ}
    (h : fixedPower? tag = some (type, e)) :
    (GateObject.power type (.number e) shift).ofPower (.const e) = .ok (tag, []) := by
  unfold GateObject.ofPower
  simp only [any_isTakenFor, half_real]
  cases tag with
  | h | x | y | z | s | sdg | t | tdg | sx | sxdg | cx | cz | swap | iswap | ccx =>
    obtain ⟨rfl, rfl⟩ := Prod.mk.inj (Option.some.inj h)
    norm_num [GateObject.power, isTakenFor_iff, half_real, abs_lt]
  | _ => cases h

/-- Every exponent is read as a named phase that its value is taken for, or as an angle. -/
theorem exists_ofPower {tag : Tag} {type : String} {shift : ℝ}
    (h : halfTurns? tag = some (type, shift)) {g : GateObject ℝ} (hg : g.type = type)
    (exponent : Param ℝ) :
    ∃ result, g.ofPower exponent = .ok result ∧
      ((∃ p ∈ namedPhases tag, (∃ e, exponent.value? = some e ∧ IsTakenFor e p.2) ∧
          result = (p.1, [])) ∨ result = (tag, [Param.pi * exponent])) := by
  have hnamed {named : Tag} {x : ℝ} (hmem : (named, x) ∈ namedPhases tag)
      (hx : ∃ e, exponent.value? = some e ∧ IsTakenFor e x) :
      ∃ result, Except.ok (ε := ConvertError ℝ) (named, []) = .ok result ∧
        ((∃ p ∈ namedPhases tag, (∃ e, exponent.value? = some e ∧ IsTakenFor e p.2) ∧
          result = (p.1, [])) ∨ result = (tag, [Param.pi * exponent])) :=
    ⟨_, rfl, .inl ⟨(named, x), hmem, hx, rfl⟩⟩
  unfold GateObject.ofPower
  simp only [Bool.or_eq_true, any_value?_iff]
  cases tag with
  | phase =>
    obtain ⟨rfl, rfl⟩ := Prod.mk.inj (Option.some.inj h)
    simp only [hg]
    split_ifs with hz hs hsdg ht htdg
    · rcases hz with hz | hz
      · exact hnamed (by simp [namedPhases]) hz
      · exact hnamed (by simp [namedPhases]) hz
    · exact hnamed (by simp [namedPhases]) hs
    · exact hnamed (by simp [namedPhases]) hsdg
    · exact hnamed (by simp [namedPhases]) ht
    · exact hnamed (by simp [namedPhases]) htdg
    · exact ⟨_, rfl, .inr rfl⟩
  | cphase =>
    obtain ⟨rfl, rfl⟩ := Prod.mk.inj (Option.some.inj h)
    simp only [hg]
    split_ifs with hz
    · rcases hz with hz | hz
      · exact hnamed (by simp [namedPhases]) hz
      · exact hnamed (by simp [namedPhases]) hz
    · exact ⟨_, rfl, .inr rfl⟩
  | rxx | ryy | rzz =>
    obtain ⟨rfl, rfl⟩ := Prod.mk.inj (Option.some.inj h)
    simp only [hg]
    exact ⟨_, rfl, .inr rfl⟩
  | _ => cases h

theorem exists_exponent_of_classify {g : GateObject ℝ} (htype : IsPowerType g.type)
    {c₁ : Circuit ℝ} {result : Tag × List (Param ℝ)} (h : g.classify c = .ok (c₁, result)) :
    ∃ exponent, readExpression c (g.exponent.getD (.number 1)) = .ok (c₁, exponent) ∧
      g.ofPower exponent = .ok result := by
  have hswap : g.type ≠ "CSwapGate" := fun heq => htype.2 (by simp [heq])
  unfold GateObject.classify at h
  rw [htype.1] at h
  dsimp only at h
  rw [if_neg hswap] at h
  obtain ⟨⟨c₂, exponent⟩, hread, h⟩ := bind_eq_ok_iff.mp h
  obtain ⟨result', hresult, h⟩ := bind_eq_ok_iff.mp h
  cases h
  exact ⟨exponent, hread, hresult⟩

theorem ofPower_of_classify {type : String} {e shift : ℝ} (htype : IsPowerType type)
    {c₁ : Circuit ℝ} {result : Tag × List (Param ℝ)}
    (h : (GateObject.power type (.number e) shift).classify c = .ok (c₁, result)) :
    (GateObject.power type (.number e) shift).ofPower (.const e) = .ok result := by
  obtain ⟨exponent, hread, hresult⟩ := exists_exponent_of_classify htype h
  obtain rfl : Param.const e = exponent := congrArg Prod.snd (Except.ok.inj hread)
  exact hresult

theorem Operation.keys_of_read {o : Operation ℝ} {keys keys' : KeyBits}
    (hne : o.gate.type ≠ "MeasurementGate") (h : o.read (c, keys) = .ok (c', keys')) :
    keys' = keys := by
  obtain ⟨htype, -⟩ | ⟨-, hkeys, -⟩ := grows_of_read h
  · exact absurd htype hne
  · exact hkeys

/-- Reading a gate object that is neither a matrix nor a measurement nor the identity. -/
theorem Operation.read_eq_apply {o : Operation ℝ} {keys : KeyBits}
    (h : o.gate.type ∉ ["MeasurementGate", "IdentityGate", "MatrixGate"]) :
    o.read (c, keys) = (do
      let (c, tag, params) ← o.gate.classify c
      return (← ConvertError.lift .cirq (c.apply tag params (o.qubits.map (·.x))), keys)) := by
  unfold Operation.read
  dsimp only
  split
  all_goals simp_all

/-- What a gate object is read as has numbers for its parameters, and the matrix of an
instruction. -/
def GateObject.StandsFor (g : GateObject ℝ) (i : Instruction ℝ) : Prop :=
  ∀ c c₁ tag params, g.classify c = .ok (c₁, tag, params) →
    ∃ values, Gate.values? params = some values ∧ i.gate.matrix = tag.matrix? values

theorem GateObject.StandsFor.grows {g : GateObject ℝ} (hg : g.StandsFor i)
    (htype : g.type ∉ ["MeasurementGate", "IdentityGate", "MatrixGate"])
    (hm : i.isMeasure = false) {keys keys' : KeyBits}
    (h : (Operation.on g i.qubits).read (c, keys) = .ok (c', keys')) :
    ∃ j, i.Alike j ∧ c.Grows [j] c' := by
  rw [Operation.read_eq_apply htype, map_on] at h
  obtain ⟨c₁, tag, params, gate, hclassify, hnew, hgrows⟩ := exists_gate_of_apply h
  obtain ⟨values, hvalues, hmatrix⟩ := hg c c₁ tag params hclassify
  refine ⟨_, Instruction.alike_of_new hnew hvalues hmatrix ?_, hgrows⟩
  rw [hm, eq_comm, beq_eq_false_iff_ne]
  exact (GateObject.grows_of_classify hclassify).2

theorem standsFor_fixed (hi : i.gate.IsStandard) {type : String} {e shift : ℝ}
    (h : fixedPower? i.tag = some (type, e)) :
    (GateObject.power type (.number e) shift).StandsFor i := by
  intro c c₁ tag params hclassify
  have hresult := ofPower_of_classify (isPowerType_of_fixed h).1 hclassify
  rw [ofPower_fixed h] at hresult
  cases hresult
  exact ⟨[], rfl, (Gate.HasValues.of_no_params hi (isPowerType_of_fixed h).2).matrix⟩

theorem standsFor_halfTurns {v : ℝ} (hi : i.gate.HasValues [v]) (hv : KeepsAngle i.tag v)
    {type : String} {shift : ℝ} (h : halfTurns? i.tag = some (type, shift)) :
    (GateObject.power type (.number (v / Real.pi)) shift).StandsFor i := by
  intro c c₁ tag params hclassify
  have hresult := ofPower_of_classify (isPowerType_of_halfTurns h).1 hclassify
  obtain ⟨result, hread, hcases⟩ := exists_ofPower h
    (g := .power type (.number (v / Real.pi)) shift) rfl (.const (v / Real.pi))
  obtain rfl := Except.ok.inj (hresult.symm.trans hread)
  rcases hcases with ⟨p, hp, ⟨e, he, htaken⟩, hnamed⟩ | hangle
  · obtain ⟨rfl, rfl⟩ := Prod.mk.inj hnamed
    obtain rfl := Option.some.inj he
    refine ⟨[], rfl, ?_⟩
    rw [hi.matrix, matrix_of_named hp, ← hv p hp htaken]
    rfl
  · obtain ⟨rfl, rfl⟩ := Prod.mk.inj hangle
    refine ⟨[v], ?_, hi.matrix⟩
    rw [values?_angle rfl, mul_div_cancel₀ v Real.pi_ne_zero]

theorem standsFor_rads {v : ℝ} (hi : i.gate.HasValues [v]) {type : String}
    (h : rads? i.tag = some type) : GateObject.StandsFor { type, rads := some (.number v) } i := by
  intro c c₁ tag params hclassify
  unfold GateObject.classify at hclassify
  dsimp only at hclassify
  rw [(rotation_of_rads h).1] at hclassify
  cases hclassify
  exact ⟨[v], rfl, hi.matrix⟩

theorem standsFor_cswap (hi : i.gate.IsStandard) (htag : i.tag = .cswap) :
    (GateObject.named "CSwapGate").StandsFor i := by
  intro c c₁ tag params hclassify
  cases hclassify
  refine ⟨[], rfl, ?_⟩
  rw [(Gate.HasValues.of_no_params hi (congrArg Tag.paramCount htag)).matrix]
  exact congrArg (fun tag : Tag => tag.matrix? []) htag

theorem Operation.grows_of_measure (hi : i.Numeric qubits clbits) (hm : i.isMeasure = true)
    {g : GateObject ℝ} (hg : GateObject.ofOther i = .ok g) {keys keys' : KeyBits}
    (hkeys : keys.LeavesRoom)
    (h : (Operation.on g i.qubits).read (c, keys) = .ok (c', keys')) :
    keys'.LeavesRoom ∧ ∃ j, i.Alike j ∧ c.Grows [j] c' := by
  have htag : i.tag = .measure := beq_iff_eq.mp hm
  unfold GateObject.ofOther at hg
  rw [htag] at hg
  obtain rfl := Except.ok.inj hg
  obtain ⟨q, hq, -, halike⟩ := hi.exists_measure hm
  obtain ⟨⟨keys₁, bits⟩, hbits, h⟩ := bind_eq_ok_iff.mp h
  obtain ⟨c₁, hmeasures, h⟩ := bind_eq_ok_iff.mp h
  cases h
  rw [map_on, hq] at hbits hmeasures
  obtain ⟨hkeys', b, rfl⟩ := KeyBits.exists_bit hkeys hbits
  obtain ⟨c₂, hmeasure, h⟩ := bind_eq_ok_iff.mp hmeasures
  cases h
  rw [ConvertError.lift_eq_ok_iff] at hmeasure
  exact ⟨hkeys', _, halike b, Circuit.grows_of_measure hmeasure⟩

theorem Operation.grows_of_identity (hi : i.Numeric qubits clbits) (htag : i.tag = .id)
    {g : GateObject ℝ} (htype : g.type = "IdentityGate") {keys keys' : KeyBits}
    (h : (Operation.on g i.qubits).read (c, keys) = .ok (c', keys')) :
    ∃ j, i.Alike j ∧ c.Grows [j] c' := by
  have hvalues : i.gate.HasValues [] :=
    .of_no_params hi.standard (congrArg Tag.paramCount htag)
  obtain ⟨q, hq⟩ : ∃ q, i.qubits = [q] := by
    rw [← List.length_eq_one_iff, hi.wellFormed.length_eq, Gate.qubits_of_tag hvalues.tag_ne]
    exact congrArg (fun tag : Tag => tag.qubits?.getD 0) htag
  unfold Operation.read at h
  dsimp only at h
  rw [map_on, hq, show (Operation.on g [q]).gate.type = "IdentityGate" from htype] at h
  obtain ⟨c₁, happly, h⟩ := bind_eq_ok_iff.mp h
  cases h
  obtain ⟨c₂, happly, h⟩ := bind_eq_ok_iff.mp happly
  cases h
  rw [ConvertError.lift_eq_ok_iff] at happly
  obtain ⟨gate, hnew, hgrows⟩ := Circuit.grows_of_apply happly (by decide)
  rw [← hq] at hgrows
  refine ⟨_, Instruction.alike_of_new hnew rfl ?_ ?_, hgrows⟩
  · rw [hvalues.matrix]
    exact congrArg (fun tag : Tag => tag.matrix? []) htag
  · rw [Instruction.isMeasure, htag]

/-- Whatever is read back from the operation of an instruction does the same, as long as no angle is
taken for another one. -/
theorem Operation.grows_of_ofInstruction (hi : i.Numeric qubits clbits)
    (hkeeps : ∀ v, i.gate.numeric? = some [v] → KeepsAngle i.tag v) {o : Operation ℝ}
    (ho : Operation.ofInstruction i = .ok o) {keys keys' : KeyBits} (hkeys : keys.LeavesRoom)
    (h : o.read (c, keys) = .ok (c', keys')) :
    keys'.LeavesRoom ∧ ∃ j, i.Alike j ∧ c.Grows [j] c' := by
  obtain ⟨values, hvalues⟩ := hi.standard
  obtain ⟨_, -, ho⟩ := bind_eq_ok_iff.mp ho
  obtain ⟨g, hg, ho⟩ := bind_eq_ok_iff.mp ho
  obtain rfl := Except.ok.inj ho
  have hne {α : Type} {f : Tag → Option α} {x : α} (hx : f i.tag = some x)
      (hnone : f .measure = none) : i.isMeasure = false := by
    rw [Instruction.isMeasure, beq_eq_false_iff_ne]
    rintro heq
    rw [heq, hnone] at hx
    cases hx
  have hpower {type : String} (htype : IsPowerType type) :
      type ∉ ["MeasurementGate", "IdentityGate", "MatrixGate"] :=
    fun hmem => htype.2 (List.mem_cons_of_mem _ hmem)
  have hsame (htype : g.type ≠ "MeasurementGate") : keys'.LeavesRoom :=
    Operation.keys_of_read (o := .on g i.qubits) htype h ▸ hkeys
  unfold GateObject.ofInstruction at hg
  split at hg
  next type e hfixed =>
    obtain rfl := Except.ok.inj hg
    have htype := hpower (isPowerType_of_fixed hfixed).1
    exact ⟨hsame (List.ne_of_not_mem_cons htype),
      (standsFor_fixed hi.standard hfixed).grows htype (hne hfixed rfl) h⟩
  next type shift hturns _ =>
    obtain ⟨htype, hcount⟩ := isPowerType_of_halfTurns hturns
    obtain ⟨p, v, hp, rfl, hpv⟩ := exists_angle hvalues hcount
    rw [hp] at hg
    obtain rfl := Except.ok.inj hg
    rw [ofParam_of_value? (value?_div_pi hpv)] at h
    exact ⟨hsame (List.ne_of_not_mem_cons (hpower htype)),
      (standsFor_halfTurns hvalues (hkeeps v hvalues.params) hturns).grows (hpower htype)
        (hne hturns rfl) h⟩
  next type hrads _ _ =>
    obtain ⟨-, htype, hcount⟩ := rotation_of_rads hrads
    obtain ⟨p, v, hp, rfl, hpv⟩ := exists_angle hvalues hcount
    rw [hp] at hg
    obtain rfl := Except.ok.inj hg
    rw [ofParam_of_value? hpv] at h
    exact ⟨hsame (List.ne_of_not_mem_cons htype),
      (standsFor_rads hvalues hrads).grows htype (hne hrads rfl) h⟩
  next =>
    cases hm : i.isMeasure with
    | true => exact grows_of_measure hi hm hg hkeys h
    | false =>
      unfold GateObject.ofOther at hg
      split at hg
      next htag =>
        obtain rfl := Except.ok.inj hg
        exact ⟨hsame (by decide), grows_of_identity hi htag rfl h⟩
      next htag =>
        obtain rfl := Except.ok.inj hg
        exact ⟨hsame (by decide), (standsFor_cswap hi.standard htag).grows (by decide) hm h⟩
      next => cases hg
      next htag _ => exact absurd htag hvalues.tag_ne
      next htag =>
        rw [Instruction.isMeasure, htag] at hm
        cases hm
      next => cases hg

end Interchange.Cirq
end
