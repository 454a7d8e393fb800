import Interchange.Proofs.DecodedCircuit
import Interchange.Proofs.DeclaredInputs
import Interchange.Proofs.ParsedParameters

namespace Interchange

/-- A parameter that is registered under a name with the property. -/
def Registry.Known (P : String → Prop) (r : Registry) (x : Handle) : Prop :=
  r.contains x = true ∧ P x.name

theorem Registry.Grows.known {P : String → Prop} {r r' : Registry} (h : r.Grows r') {x : Handle}
    (hx : r.Known P x) : r'.Known P x := ⟨h.contains hx.1, hx.2⟩

theorem Registry.known_register {P : String → Prop} (r : Registry) {name : String} (h : P name) :
    (r.register name).1.Known P (r.register name).2 := by
  obtain ⟨hcontains, hname⟩ := r.contains_register name
  exact ⟨hcontains, by rwa [hname]⟩

variable {F : Type} [Scalar F] {P : String → Prop} {r : Registry} {c : Circuit F}

namespace Param.RefsAll

variable {R : Handle → Prop} {a b : Param F}

theorem opposite (h : a.RefsAll R) : (-a).RefsAll R := refsAll_simplify.mpr h

theorem sum (ha : a.RefsAll R) (hb : b.RefsAll R) : (a + b).RefsAll R :=
  refsAll_simplify.mpr ⟨ha, hb⟩

theorem difference (ha : a.RefsAll R) (hb : b.RefsAll R) : (a - b).RefsAll R :=
  refsAll_simplify.mpr ⟨ha, hb⟩

theorem product (ha : a.RefsAll R) (hb : b.RefsAll R) : (a * b).RefsAll R :=
  refsAll_simplify.mpr ⟨ha, hb⟩

theorem quotient (ha : a.RefsAll R) (hb : b.RefsAll R) : (a / b).RefsAll R :=
  refsAll_simplify.mpr ⟨ha, hb⟩

end Param.RefsAll

namespace Gate

/-- A gate of a tag, or of a unitary matrix. -/
def IsMade (g : Gate F) : Prop := g.IsBuilt ∨ ∃ m, ofMatrix m = .ok g

theorem refsAll_of_new {R : Handle → Prop} {tag : Tag} {params : List (Param F)} {g : Gate F}
    (h : new tag params = .ok g) (hparams : ∀ p ∈ params, p.RefsAll R) :
    ∀ p ∈ g.params, p.RefsAll R := by
  obtain ⟨-, -, -, rfl⟩ := new_eq_ok_iff.mp h
  intro p hp
  obtain ⟨q, hq, rfl⟩ := List.mem_map.mp hp
  exact Param.refsAll_simplify.mpr (hparams q hq)

theorem eq_of_ofMatrix {m : Operator F} {g : Gate F} (h : ofMatrix m = .ok g) :
    g = ⟨.unitary, [], some m⟩ := by
  unfold ofMatrix at h
  split_ifs at h
  exact (Except.ok.inj h).symm

theorem new_measure : new .measure [] = .ok (measure : Gate F) :=
  new_eq_ok_iff.mpr ⟨by decide, rfl, by simp, rfl⟩

theorem isBuilt_measure : (measure : Gate F).IsBuilt := isBuilt_of_new new_measure

end Gate

namespace Circuit

/-- A circuit with a registry: no name is registered twice, the gates are made by constructors, and
their parameters are registered under names with the property. -/
structure Registered (P : String → Prop) (r : Registry) (c : Circuit F) : Prop where
  registry_eq : c.registry = r
  nodup : r.names.Nodup
  wellFormed : c.WellFormed
  made : ∀ i ∈ c.instructions, i.gate.IsMade
  known : ∀ p ∈ c.params, p.RefsAll (r.Known P)

namespace Registered

theorem empty (P : String → Prop) (n k : ℕ) {r : Registry} (hr : r.names.Nodup) :
    Registered P r ({ qubits := n, clbits := k, registry := r } : Circuit F) :=
  ⟨rfl, hr, fun _ hi => absurd hi List.not_mem_nil, fun _ hi => absurd hi List.not_mem_nil,
    fun _ hp => absurd hp List.not_mem_nil⟩

theorem mono {Q : String → Prop} (hPQ : ∀ name, P name → Q name) (h : c.Registered P r) :
    c.Registered Q r :=
  ⟨h.registry_eq, h.nodup, h.wellFormed, h.made,
    fun p hp => (h.known p hp).mono fun _ hx => ⟨hx.1, hPQ _ hx.2⟩⟩

theorem grow (h : c.Registered P r) {r' : Registry} (hr : r.Grows r') :
    Registered P r' { c with registry := r' } :=
  ⟨rfl, hr.nodup h.nodup, h.wellFormed, h.made,
    fun p hp => (h.known p hp).mono fun _ => hr.known⟩

theorem push (h : c.Registered P r) {i : Instruction F}
    (hoperands : i.qubits.length = i.gate.qubits ∧ i.qubits.Nodup) (hmade : i.gate.IsMade)
    (hknown : ∀ p ∈ i.gate.params, p.RefsAll (r.Known P)) :
    Returns (c.push i) (Registered P r) := by
  intro c' hc'
  obtain ⟨hrange, rfl⟩ := push_eq_ok_iff.mp hc'
  refine ⟨h.registry_eq, h.nodup, ?_, ?_, ?_⟩
  · exact List.forall_mem_append.mpr ⟨h.wellFormed,
      List.forall_mem_singleton.mpr ⟨hoperands.1, hoperands.2, hrange⟩⟩
  · exact List.forall_mem_append.mpr ⟨h.made, List.forall_mem_singleton.mpr hmade⟩
  · rw [params, pushed, List.flatMap_append, List.flatMap_singleton]
    exact List.forall_mem_append.mpr ⟨h.known, hknown⟩

theorem pushGate (h : c.Registered P r) {g : Gate F} (hmade : g.IsMade)
    (hknown : ∀ p ∈ g.params, p.RefsAll (r.Known P)) (qubits : List ℕ) :
    Returns (c.pushGate g qubits) (Registered P r) := by
  intro c' hc'
  obtain ⟨i, hi, hc'⟩ := pushGate_eq_ok_iff.mp hc'
  obtain ⟨hoperands, rfl⟩ := Instruction.new_eq_ok_iff.mp hi
  exact h.push hoperands hmade hknown c' hc'

theorem apply (h : c.Registered P r) (tag : Tag) {params : List (Param F)}
    (hknown : ∀ p ∈ params, p.RefsAll (r.Known P)) (qubits : List ℕ) :
    Returns (c.apply tag params qubits) (Registered P r) := by
  intro c' hc'
  obtain ⟨g, hg, hc'⟩ := apply_eq_ok_iff.mp hc'
  exact h.pushGate (.inl (Gate.isBuilt_of_new hg)) (Gate.refsAll_of_new hg hknown) qubits c' hc'

theorem measure (h : c.Registered P r) (qubit clbit : ℕ) :
    Returns (c.measure qubit clbit) (Registered P r) :=
  h.push ⟨rfl, List.nodup_singleton qubit⟩ (.inl Gate.isBuilt_measure)
    fun _ hp => absurd hp List.not_mem_nil

end Registered

end Circuit

section

variable {α : Type} {Q : α → Prop}

omit [Scalar F]

theorem Returns.convert {f : Framework} {x : Except (CircuitError F) α} (h : Returns x Q) :
    Returns (ConvertError.lift f x) Q := fun a ha => h a (ConvertError.lift_eq_ok_iff.mp ha)

theorem Returns.liftCircuit {x : Except (CircuitError F) α} (h : Returns x Q) :
    Returns (Qasm.liftCircuit x) Q := fun a ha => h a (Qasm.liftCircuit_eq_ok_iff.mp ha)

end

/-- A circuit is registered, after an earlier registry grew, and so are some more parameters. -/
def Circuit.Draws (P : String → Prop) (r : Registry) (c : Circuit F) (params : List (Param F)) :
    Prop :=
  ∃ r', r.Grows r' ∧ c.Registered P r' ∧ ∀ p ∈ params, p.RefsAll (r'.Known P)

theorem Circuit.Registered.measures (h : c.Registered P r) (f : Framework) (pairs : List (ℕ × ℕ)) :
    Returns (pairs.foldlM (fun c pair => ConvertError.lift f (c.measure pair.1 pair.2)) c)
      (Registered P r) :=
  .foldlM (fun _ hc pair _ => (hc.measure pair.1 pair.2).convert) h

namespace Angle

theorem known_read (h : c.Registered Param.IsName r) (a : Angle F) {p : Param F}
    (hp : (a.read c).2 = .ok p) : (a.read c).1.Draws Param.IsName r [p] := by
  cases a with
  | value x =>
    cases hp
    exact ⟨r, .refl r, h, List.forall_mem_singleton.mpr trivial⟩
  | expression text =>
    obtain rfl := h.registry_eq
    obtain ⟨hgrows, hrefs⟩ := Param.refsAll_of_parse (Prod.ext rfl hp)
    exact ⟨_, hgrows, h.grow hgrows, List.forall_mem_singleton.mpr hrefs⟩

theorem draws_readAll (h : c.Registered Param.IsName r) (angles : List (Angle F)) :
    Returns (readAll c angles) fun x => x.1.Draws Param.IsName r x.2 := by
  induction angles generalizing c r with
  | nil => exact .ok ⟨r, .refl r, h, fun _ hp => absurd hp List.not_mem_nil⟩
  | cons a angles ih =>
    rintro ⟨c', ps⟩ hread
    obtain ⟨p, hp, hread⟩ := bind_eq_ok_iff.mp hread
    obtain ⟨⟨c₂, ps⟩, hrest, hread⟩ := bind_eq_ok_iff.mp hread
    cases hread
    obtain ⟨r₁, hgrows₁, hc₁, hp⟩ := known_read h a hp
    obtain ⟨r₂, hgrows₂, hc₂, hps⟩ := ih hc₁ _ hrest
    refine ⟨r₂, hgrows₁.trans hgrows₂, hc₂, List.forall_mem_cons.mpr ⟨?_, hps⟩⟩
    exact (List.forall_mem_singleton.mp hp).mono fun _ => hgrows₂.known

end Angle

namespace Circuit.Draws

variable {params : List (Param F)} {g : Gate F}

theorem of_new (h : c.Draws P r params) {tag : Tag} (hg : Gate.new tag params = .ok g) :
    c.Draws P r g.params := by
  obtain ⟨r', hgrows, hc, hknown⟩ := h
  exact ⟨r', hgrows, hc, Gate.refsAll_of_new hg hknown⟩

theorem of_ofMatrix (h : c.Registered P r) {m : Operator F} (hg : Gate.ofMatrix m = .ok g) :
    c.Draws P r g.params := by
  rw [Gate.eq_of_ofMatrix hg]
  exact ⟨r, .refl r, h, fun _ hp => absurd hp List.not_mem_nil⟩

theorem pushGate (h : c.Draws P r g.params) (hmade : g.IsMade) (qubits : List ℕ) :
    Returns (c.pushGate g qubits) fun c' => ∃ r', c'.Registered P r' := by
  obtain ⟨r', -, hc, hknown⟩ := h
  exact fun c' hc' => ⟨r', hc.pushGate hmade hknown qubits c' hc'⟩

theorem apply (h : c.Draws P r params) (tag : Tag) (qubits : List ℕ) :
    Returns (c.apply tag params qubits) fun c' => ∃ r', c'.Registered P r' := by
  obtain ⟨r', -, hc, hknown⟩ := h
  exact fun c' hc' => ⟨r', hc.apply tag hknown qubits c' hc'⟩

end Circuit.Draws

namespace Qiskit

theorem Operation.draws_readGate (o : Operation F) (h : c.Registered Param.IsName r) :
    Returns (o.readGate c) fun x => x.2.IsMade ∧ x.1.Draws Param.IsName r x.2.params := by
  rintro ⟨c', g⟩ hg
  obtain ⟨given, -, hg⟩ := bind_eq_ok_iff.mp hg
  dsimp only at hg
  split at hg
  next tag _ =>
    obtain ⟨⟨c₁, params⟩, hread, hg⟩ := bind_eq_ok_iff.mp hg
    obtain ⟨g₁, hg₁, hg⟩ := bind_eq_ok_iff.mp hg
    rw [ConvertError.lift_eq_ok_iff] at hread hg₁
    have hbuilt := Gate.isBuilt_of_new hg₁
    have hdraws := (Angle.draws_readAll h _ _ hread).of_new hg₁
    split at hg
    next m =>
      obtain ⟨g₂, hg₂, hg⟩ := bind_eq_ok_iff.mp hg
      rw [ConvertError.lift_eq_ok_iff, Gate.withMatrix] at hg₂
      split_ifs at hg₂
      cases hg₂
      cases hg
      exact ⟨.inl hbuilt, hdraws⟩
    next =>
      cases hg
      exact ⟨.inl hbuilt, hdraws⟩
  next m _ =>
    obtain ⟨g₁, hg₁, hg⟩ := bind_eq_ok_iff.mp hg
    rw [ConvertError.lift_eq_ok_iff] at hg₁
    cases hg
    exact ⟨.inr ⟨m, hg₁⟩, .of_ofMatrix h hg₁⟩
  next => split_ifs at hg

theorem Operation.registered_read (o : Operation F) (h : c.Registered Param.IsName r) :
    Returns (o.read c) fun c' => ∃ r', c'.Registered Param.IsName r' := by
  unfold read
  split_ifs
  · exact .ok ⟨r, h⟩
  · unfold readMeasure
    split_ifs
    · exact .error _ _
    · exact fun c' hc' => ⟨r, h.measures _ _ c' hc'⟩
  · exact (o.draws_readGate h).bind fun x hx => (hx.2.pushGate hx.1 _).convert

theorem registered_of_decode (d : Document F) :
    Returns (decode d) fun c => ∃ r, c.Registered Param.IsName r :=
  .foldlM (fun _ hc o _ => hc.elim fun _ hc => o.registered_read hc)
    ⟨_, .empty _ _ _ ((Registry.grows_registerAll _ _).nodup List.nodup_nil)⟩

end Qiskit

namespace Braket

theorem Operation.draws_readGate (o : Operation F) (h : c.Registered Param.IsName r) :
    Returns (o.readGate c) fun x => x.2.IsMade ∧ x.1.Draws Param.IsName r x.2.params := by
  rintro ⟨c', g⟩ hg
  unfold readGate at hg
  split at hg
  next => cases hg
  next =>
    split at hg
    next => cases hg
    next rows _ =>
      obtain ⟨m, -, hg⟩ := bind_eq_ok_iff.mp hg
      obtain ⟨g₁, hg₁, hg⟩ := bind_eq_ok_iff.mp hg
      rw [ConvertError.lift_eq_ok_iff] at hg₁
      cases hg
      exact ⟨.inr ⟨m, hg₁⟩, .of_ofMatrix h hg₁⟩
  next tag _ _ =>
    obtain ⟨⟨c₁, params⟩, hread, hg⟩ := bind_eq_ok_iff.mp hg
    obtain ⟨g₁, hg₁, hg⟩ := bind_eq_ok_iff.mp hg
    rw [ConvertError.lift_eq_ok_iff] at hread hg₁
    cases hg
    exact ⟨.inl (Gate.isBuilt_of_new hg₁), (Angle.draws_readAll h _ _ hread).of_new hg₁⟩

theorem registered_of_decode (p : Program F) :
    Returns (decode p) fun c => ∃ r, c.Registered Param.IsName r := by
  intro c hc
  obtain ⟨width, hrun⟩ := exists_run_of_decode hc
  refine Returns.foldlM (P := fun c => ∃ r, c.Registered Param.IsName r) (fun c hc o _ => ?_)
    ⟨{}, .empty _ width 0 List.nodup_nil⟩ c hrun
  obtain ⟨r, hc⟩ := hc
  exact (o.draws_readGate hc).bind fun x hx => (hx.2.pushGate hx.1 _).convert

end Braket

namespace IonQ

theorem registered_of_decode (d : Document F) :
    Returns (decode d) fun c => ∃ r, c.Registered Param.IsName r := by
  intro c hc
  refine Returns.foldlM (P := fun c => ∃ r, c.Registered Param.IsName r) (fun c hc o _ => ?_)
    ⟨{}, .empty _ _ 0 List.nodup_nil⟩ c (run_of_decode hc)
  obtain ⟨r, hc⟩ := hc
  intro c' hc'
  obtain ⟨tag, -, hc'⟩ := bind_eq_ok_iff.mp hc'
  obtain ⟨params, hparams, hc'⟩ := bind_eq_ok_iff.mp hc'
  rw [ConvertError.lift_eq_ok_iff] at hc'
  refine ⟨r, hc.apply tag (fun p hp => ?_) _ c' hc'⟩
  -- an angle is a number
  unfold Operation.params at hparams
  repeat' split at hparams
  all_goals cases hparams
  · exact List.mem_singleton.mp hp ▸ trivial
  · cases hp

end IonQ

namespace Cirq

namespace Expression

omit [Scalar F] in
theorem refsAll_combine {R : Handle → Prop} {op : Param F → Param F → Param F} {neutral : F}
    (hop : ∀ p q, p.RefsAll R → q.RefsAll R → (op p q).RefsAll R) {params : List (Param F)}
    (h : ∀ p ∈ params, p.RefsAll R) : (combine op (.const neutral) params).RefsAll R := by
  cases params with
  | nil => exact trivial
  | cons p ps =>
    obtain ⟨hp, hps⟩ := List.forall_mem_cons.mp h
    exact List.foldlRecOn (motive := Param.RefsAll R) ps op hp
      fun q hq x hx => hop q x hq (hps x hx)

theorem refsAll_power {R : Handle → Prop} {base exponent : Param F} (hbase : base.RefsAll R) :
    Returns (power base exponent) (Param.RefsAll R) := by
  unfold power
  split
  · exact .ok trivial
  · split_ifs
    · exact .ok (.quotient trivial hbase)
    · exact .ok hbase
    · exact .error _ _
  · exact .error _ _

mutual

theorem known_toParam (r : Registry) (e : Expression F) :
    Returns (e.toParam r) fun x => r.Grows x.1 ∧ x.2.RefsAll (x.1.Known fun _ => True) := by
  cases e with
  | number | float | integer | pi =>
    rw [toParam]
    exact .ok ⟨.refl r, trivial⟩
  | symbol name =>
    rw [toParam]
    have hknown : (r.register name).1.Known (fun _ => True) (r.register name).2 :=
      r.known_register trivial
    exact .ok ⟨r.grows_register name, hknown⟩
  | rational m n =>
    rw [toParam]
    split_ifs
    · exact .error _ _
    · exact .ok ⟨.refl r, trivial⟩
  | add args =>
    rw [toParam]
    refine (known_toParams r args).bind fun x hx => .ok ⟨hx.1, Param.refsAll_simplify.mpr ?_⟩
    exact refsAll_combine (fun _ _ => .sum) hx.2
  | mul args =>
    rw [toParam]
    refine (known_toParams r args).bind fun x hx => .ok ⟨hx.1, Param.refsAll_simplify.mpr ?_⟩
    exact refsAll_combine (fun _ _ => .product) hx.2
  | pow args =>
    rw [toParam]
    split_ifs
    · exact .error _ _
    refine (known_toParams r args).bind fun x hx => ?_
    split
    next base exponent =>
      have hbase := hx.2 base List.mem_cons_self
      exact (refsAll_power hbase).bind fun p hp => .ok ⟨hx.1, Param.refsAll_simplify.mpr hp⟩
    next => exact .error _ _

theorem known_toParams (r : Registry) (es : List (Expression F)) :
    Returns (toParams r es) fun x =>
      r.Grows x.1 ∧ ∀ p ∈ x.2, p.RefsAll (x.1.Known fun _ => True) := by
  cases es with
  | nil =>
    rw [toParams]
    exact .ok ⟨.refl r, fun _ hp => absurd hp List.not_mem_nil⟩
  | cons e es =>
    rw [toParams]
    refine (known_toParam r e).bind fun x hx => (known_toParams x.1 es).bind fun y hy => ?_
    refine .ok ⟨hx.1.trans hy.1, List.forall_mem_cons.mpr ⟨?_, hy.2⟩⟩
    exact hx.2.mono fun _ => hy.1.known

end

end Expression

theorem draws_readExpression (h : c.Registered (fun _ => True) r) (e : Expression F) :
    Returns (readExpression c e) fun x => x.1.Draws (fun _ => True) r [x.2] := by
  obtain rfl := h.registry_eq
  unfold readExpression
  split
  next registry p hp =>
    obtain ⟨hgrows, hrefs⟩ := e.known_toParam c.registry _ hp
    exact .ok ⟨registry, hgrows, h.grow hgrows, List.forall_mem_singleton.mpr hrefs⟩
  next => exact .error _ _

variable [Numeral F]

theorem GateObject.refsAll_ofPower {R : Handle → Prop} (g : GateObject F) {exponent : Param F}
    (h : exponent.RefsAll R) : Returns (g.ofPower exponent) fun x => ∀ p ∈ x.2, p.RefsAll R := by
  have hangle : ∀ p ∈ [Param.pi * exponent], p.RefsAll R :=
    List.forall_mem_singleton.mpr (.product trivial h)
  have hnone : ∀ p ∈ ([] : List (Param F)), p.RefsAll R := fun _ hp => absurd hp List.not_mem_nil
  unfold ofPower
  dsimp only
  repeat' split
  all_goals first | exact .ok hangle | exact .ok hnone | exact .error _ _

theorem GateObject.draws_classify (g : GateObject F) (h : c.Registered (fun _ => True) r) :
    Returns (g.classify c) fun x => x.1.Draws (fun _ => True) r x.2.2 := by
  unfold classify
  split
  · split
    · exact .error _ _
    · exact (draws_readExpression h _).bind fun x hx => .ok hx
  · split_ifs
    · exact .ok ⟨r, .refl r, h, fun _ hp => absurd hp List.not_mem_nil⟩
    refine (draws_readExpression h _).bind fun x hx => ?_
    obtain ⟨r', hgrows, hc, hknown⟩ := hx
    exact (g.refsAll_ofPower (List.forall_mem_singleton.mp hknown)).bind fun y hy =>
      .ok ⟨r', hgrows, hc, hy⟩

theorem Operation.registered_read (o : Operation F) (keys : KeyBits)
    (h : c.Registered (fun _ => True) r) :
    Returns (o.read (c, keys)) fun s => ∃ r', s.1.Registered (fun _ => True) r' := by
  unfold read
  dsimp only
  split
  · refine .andThen fun bits => ?_
    exact (h.measures _ _).bind fun c' hc' => .ok ⟨r, hc'⟩
  · refine (Returns.foldlM (fun _ hc q _ => ?_) h).bind fun c' hc' => .ok ⟨r, hc'⟩
    exact (hc.apply .id (fun _ hp => absurd hp List.not_mem_nil) [q]).convert
  · split
    · exact .error _ _
    refine .andThen fun m => ?_
    have hmade : Returns (Gate.ofMatrix m) fun g => Gate.ofMatrix m = .ok g := fun _ => id
    exact hmade.convert.bind fun g hg => ((Circuit.Draws.of_ofMatrix h hg).pushGate
      (.inr ⟨m, hg⟩) _).convert.bind fun c' hc' => .ok hc'
  · exact (o.gate.draws_classify h).bind fun x hx =>
      (hx.apply x.2.1 _).convert.bind fun c' hc' => .ok hc'

theorem registered_of_decode (d : Document F) :
    Returns (decode d) fun c => ∃ r, c.Registered (fun _ => True) r := by
  intro c hc
  obtain ⟨width, keys, keys', hrun⟩ := exists_run_of_decode hc
  refine Returns.foldlM (P := fun s => ∃ r, s.1.Registered (fun _ => True) r) (fun s hs o _ => ?_)
    ⟨{}, .empty _ width 0 List.nodup_nil⟩ _ hrun
  obtain ⟨r, hs⟩ := hs
  exact o.registered_read s.2 hs

end Cirq

namespace Qasm

def BoundAll (R : Handle → Prop) (bound : List (String × Param F)) : Prop :=
  ∀ e ∈ bound, e.2.RefsAll R

omit [Scalar F] in
theorem BoundAll.of_lookup {R : Handle → Prop} {bound : List (String × Param F)}
    (h : BoundAll R bound) {name : String} {p : Param F} (hp : bound.lookup name = some p) :
    p.RefsAll R := by
  obtain ⟨before, after, hbound, -⟩ := List.lookup_eq_some_iff.mp hp
  exact h (name, p) (by simp [hbound])

section

variable {R : Handle → Prop} {env : Environment F} {scope : Scope F}
  (henv : BoundAll R env.inputs) (hscope : BoundAll R scope.params)

include henv hscope

theorem refsAll_toParam (e : Expression) : Returns (e.toParam env scope) (Param.RefsAll R) := by
  cases e with
  | int | float | pi | tau | euler =>
    rw [Expression.toParam]
    exact .ok trivial
  | identifier name =>
    rw [Expression.toParam]
    split
    next hp => exact .ok (hscope.of_lookup hp)
    next hp => exact .ok (henv.of_lookup hp)
    next => exact .error _ _
  | neg e =>
    rw [Expression.toParam]
    exact (refsAll_toParam e).bind fun p hp => .ok hp.opposite
  | paren e =>
    rw [Expression.toParam]
    exact refsAll_toParam e
  | binary left op right =>
    rw [Expression.toParam]
    refine (refsAll_toParam left).bind fun p hp => (refsAll_toParam right).bind fun q hq => ?_
    cases op with
    | add => exact .ok (hp.sum hq)
    | sub => exact .ok (hp.difference hq)
    | mul => exact .ok (hp.product hq)
    | div => exact .ok (hp.quotient hq)
    | pow =>
      dsimp only
      split
      · exact .ok trivial
      · exact .error _ _
  | call function args =>
    rw [Expression.toParam]
    refine .andThen fun ps => ?_
    split
    · split
      · exact .ok trivial
      · exact .error _ _
    · exact .error _ _

theorem refsAll_toParams (es : List Expression) :
    Returns (Expression.toParams env scope es) fun ps => ∀ p ∈ ps, p.RefsAll R := by
  induction es with
  | nil =>
    rw [Expression.toParams]
    exact .ok fun _ hp => absurd hp List.not_mem_nil
  | cons e es ih =>
    rw [Expression.toParams]
    exact (refsAll_toParam henv hscope e).bind fun p hp => ih.bind fun ps hps =>
      .ok (List.forall_mem_cons.mpr ⟨hp, hps⟩)

end

theorem registered_applyStandard (h : c.Registered P r) (tag : Tag) (name : String)
    {params : List (Param F)} (hparams : ∀ p ∈ params, p.RefsAll (r.Known P))
    (args : List (List ℕ)) :
    Returns (applyStandard tag name params args c) (Circuit.Registered P r) := by
  refine .andThen fun _ => .andThen fun _ => .andThen fun rows => ?_
  exact .foldlM (fun c hc qubits _ => (hc.apply tag hparams qubits).liftCircuit) h

theorem registered_applyCall {env : Environment F} (henv : BoundAll (r.Known P) env.inputs)
    (levels : ℕ) {scope : Scope F} (hscope : BoundAll (r.Known P) scope.params)
    (h : c.Registered P r) (call : GateCall) :
    Returns (applyCall env levels scope c call) (Circuit.Registered P r) := by
  induction levels using Nat.strongRecOn generalizing scope call c with
  | _ levels ih =>
    rw [applyCall.eq_def]
    refine (refsAll_toParams henv hscope _).bind fun params hparams =>
      .andThen fun args => ?_
    split_ifs
    · have hall : ∀ p ∈ .const Scalar.halfPi :: params, p.RefsAll (r.Known P) :=
        List.forall_mem_cons.mpr ⟨trivial, hparams⟩
      exact .andThen fun _ => registered_applyStandard h _ _ hall _
    split
    · exact registered_applyStandard h _ _ hparams _
    split
    · exact .error _ _
    next definition _ =>
      split
      · exact .error _ _
      next levels =>
        refine .andThen fun _ => .andThen fun _ => .andThen fun rows => ?_
        -- inside the body the formal parameters stand for those of the call
        have hformal : BoundAll (r.Known P) (definition.params.zip params).reverse := by
          intro e he
          exact hparams e.2 (List.of_mem_zip (List.mem_reverse.mp he)).2
        exact .foldlM (fun c hc qubits _ => .foldlM
          (fun c hc call _ => ih levels (Nat.lt_succ_self levels) hformal hc call) hc) h

theorem registered_applyMeasure (h : c.Registered P r) (env : Environment F)
    (qubits bits : List Reference) :
    Returns (applyMeasure env qubits bits c) (Circuit.Registered P r) := by
  refine .andThen fun _ => .andThen fun _ => ?_
  dsimp only
  split_ifs
  all_goals first
    | exact .error _ _
    | exact .foldlM (fun c hc pair _ => (hc.measure pair.1 pair.2).liftCircuit) h

/-- The state of a program: what inputs stand for is registered in the circuit. -/
def Follows (P : String → Prop) (state : Environment F × Circuit F) : Prop :=
  ∃ r, state.2.Registered P r ∧ BoundAll (r.Known P) state.1.inputs

theorem follows_applyStatement {state : Environment F × Circuit F} (h : Follows P state)
    (s : Statement) (hs : ∀ name, s = .input name → P name) :
    Returns (applyStatement state s) (Follows P) := by
  obtain ⟨r, hc, henv⟩ := h
  cases s with
  | includeFile | qubits | bits | barrier | opaqueGate => exact .ok ⟨r, hc, henv⟩
  | input name =>
    refine .andThen fun _ => .ok ?_
    obtain rfl := hc.registry_eq
    have hgrows := state.2.registry.grows_register name
    refine ⟨_, hc.grow hgrows, ?_⟩
    exact List.forall_mem_append.mpr ⟨fun e he => (henv e he).mono fun _ => hgrows.known,
      List.forall_mem_singleton.mpr (Registry.known_register _ (hs name rfl))⟩
  | definition gate =>
    unfold applyStatement
    dsimp only
    split_ifs
    · exact .ok ⟨r, hc, henv⟩
    · exact .error _ _
    · exact .ok ⟨r, hc, henv⟩
  | gate call =>
    exact (registered_applyCall henv _ (fun _ he => absurd he List.not_mem_nil) hc call).bind
      fun c' hc' => .ok ⟨r, hc', henv⟩
  | measure qubits bits =>
    exact (registered_applyMeasure hc _ qubits bits).bind fun c' hc' => .ok ⟨r, hc', henv⟩
  | reset => exact .error _ _

omit [Scalar F] in
theorem inputs_ofStatements (statements : List Statement) :
    Returns (Environment.ofStatements (F := F) statements) fun env => env.inputs = [] := by
  refine .foldlM (fun env henv s _ => ?_) rfl
  cases s with
  | qubits | bits =>
    exact .andThen fun _ => .andThen fun _ => .ok henv
  | _ => exact .ok henv

theorem IsName.param {name : String} (h : IsName name.toList) : Param.IsName name := by
  obtain ⟨⟨c, tail, hword, hc, htail⟩, hfree⟩ := h
  rw [String.ofList_toList] at hfree
  refine ⟨?_, ?_⟩
  · rw [← String.ofList_toList (s := name), hword]
    exact Param.Token.isIdentifier_of_word c tail
      (Bool.and_eq_true_iff.mpr ⟨hc, List.all_eq_true.mpr htail⟩)
  · rw [Param.Token.isPi, Bool.or_eq_false_iff]
    refine ⟨beq_false_of_ne ?_, beq_false_of_ne ?_⟩
    · rintro rfl
      cases hfree
    · rintro rfl
      cases hword
      exact absurd hc (by decide)

theorem registered_of_decode (version : Version) (source : String) :
    Returns (decode (F := F) version source) fun c => ∃ r, c.Registered Param.IsName r := by
  intro c hc
  obtain ⟨program, hparse, hc⟩ := bind_eq_ok_iff.mp hc
  rw [liftConvert_eq_ok_iff] at hparse
  split_ifs at hc
  rw [liftConvert_eq_ok_iff] at hc
  obtain ⟨env, henv, hc⟩ := bind_eq_ok_iff.mp hc
  obtain ⟨state, hrun, hc⟩ := bind_eq_ok_iff.mp hc
  obtain rfl := Except.ok.inj hc
  have hstart : Follows Param.IsName
      (env, ({ qubits := env.width, clbits := env.bitWidth } : Circuit F)) := by
    refine ⟨{}, .empty _ _ _ List.nodup_nil, ?_⟩
    rw [BoundAll, inputs_ofStatements _ env henv]
    exact fun _ he => absurd he List.not_mem_nil
  obtain ⟨r, hregistered, -⟩ := Returns.foldlM (fun _ hs s hmem =>
    follows_applyStatement hs s fun name hname => (isName_of_input hparse (hname ▸ hmem)).param)
    hstart state hrun
  exact ⟨r, hregistered⟩

end Qasm

/-- Every circuit that is read has its parameters registered, and save for one framework their names
are names of the expression syntax. -/
theorem Native.registered_of_toCircuit [Numeral F] {n : Native F} (h : n.toCircuit = .ok c) :
    c.Registered (fun name => n.framework = .cirq ∨ Param.IsName name) c.registry := by
  suffices hr : ∃ r, c.Registered (fun name => n.framework = .cirq ∨ Param.IsName name) r by
    obtain ⟨r, hr⟩ := hr
    exact hr.registry_eq ▸ hr
  unfold toCircuit at h
  rw [TranspileError.lift_eq_ok_iff] at h
  have hname {r : Registry} (hr : c.Registered Param.IsName r) :
      c.Registered (fun name => n.framework = .cirq ∨ Param.IsName name) r :=
    hr.mono fun _ => .inr
  cases n with
  | qiskit d => exact (Qiskit.registered_of_decode d c h).imp fun _ => hname
  | cirq d => exact (Cirq.registered_of_decode d c h).imp fun _ hr => hr.mono fun _ _ => .inl rfl
  | braket p => exact (Braket.registered_of_decode p c h).imp fun _ => hname
  | ionq d => exact (IonQ.registered_of_decode d c h).imp fun _ => hname
  | qasm version source => exact (Qasm.registered_of_decode version source c h).imp fun _ => hname

end Interchange
