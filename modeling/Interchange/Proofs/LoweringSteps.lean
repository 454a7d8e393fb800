import Mathlib.Data.Nat.Init
import Interchange.Convert.Lowering
import Interchange.Proofs.Memoization
import Interchange.Proofs.Replacement

namespace Interchange.Lowering

variable {F : Type} [Scalar F] [Eigensolver F] {table : GateTable} {b : Bindings F}
  {tolerance : F}

/-- The instructions of a table that one instruction becomes, with so many levels of replacement
left and nothing remembered. -/
def instruction (table : GateTable) (b : Bindings F) (tolerance : F) :
    ℕ → Instruction F → Except (ConvertError F) (List (Instruction F))
  | levels, i =>
    if i.isMeasure then .ok (if table.implicitMeasurement then [] else [i])
    else do
      let gate ← bindFor table b i.gate
      if table.supports gate.tag then
        return [← ConvertError.lift table.framework (i.withGate gate)]
      else
        let failed {α : Type} (cause : SynthesisError F) : Except (ConvertError F) α :=
          .error (.conversion table.framework gate.tag gate.qubits cause)
        match levels with
        | 0 => failed (.decomposition gate.tag gate.qubits (.nesting maxDepth))
        | levels + 1 => match Synthesis.decompose tolerance gate with
          | .error e => failed e
          | .ok sequence =>
            let placed ← ConvertError.lift table.framework (Substitute.placeAll sequence i.qubits)
            return (← placed.mapM (instruction table b tolerance levels)).flatten

/-- A pass that has a sound decomposer and has written the given instructions after earlier ones. -/
structure Wrote (tolerance : F) (before out : List (Instruction F)) (pass : Pass F) : Prop where
  sound : pass.engine.Sound tolerance
  out_eq : pass.out.toList = before ++ out

/-- A step of a pass ends in the error that a computation ends in, or writes what it returns. -/
inductive Follows (tolerance : F) (before : List (Instruction F)) :
    Except (ConvertError F) (Pass F) → Except (ConvertError F) (List (Instruction F)) → Prop
  | error (e : ConvertError F) : Follows tolerance before (.error e) (.error e)
  | ok {pass : Pass F} {out : List (Instruction F)} (h : Wrote tolerance before out pass) :
      Follows tolerance before (.ok pass) (.ok out)

theorem Wrote.nothing {pass : Pass F} (h : pass.engine.Sound tolerance) :
    Wrote tolerance pass.out.toList [] pass := ⟨h, (List.append_nil _).symm⟩

theorem Wrote.single {pass : Pass F} (h : pass.engine.Sound tolerance) (i : Instruction F) :
    Wrote tolerance pass.out.toList [i] (pass.write i) := ⟨h, Array.toList_push⟩

theorem Wrote.trans {before out out' : List (Instruction F)} {pass pass' : Pass F}
    (h : Wrote tolerance before out pass) (h' : Wrote tolerance pass.out.toList out' pass') :
    Wrote tolerance before (out ++ out') pass' :=
  ⟨h'.sound, by rw [h'.out_eq, h.out_eq, List.append_assoc]⟩

namespace Follows

variable {before : List (Instruction F)} {x : Except (ConvertError F) (Pass F)}
  {y z : Except (ConvertError F) (List (Instruction F))}

theorem bind {α : Type} {a : Except (ConvertError F) α} {f : α → Except (ConvertError F) (Pass F)}
    {f' : α → Except (ConvertError F) (List (Instruction F))}
    (h : ∀ v, a = .ok v → Follows tolerance before (f v) (f' v)) :
    Follows tolerance before (a >>= f) (a >>= f') := by
  cases a with
  | error e => exact .error e
  | ok v => exact h v rfl

theorem andThen {f : Pass F → Except (ConvertError F) (Pass F)}
    (h : Follows tolerance before x y)
    (hf : ∀ pass : Pass F, pass.engine.Sound tolerance →
      Follows tolerance pass.out.toList (f pass) z) :
    Follows tolerance before (x >>= f) (y >>= fun out => z >>= fun out' => pure (out ++ out')) := by
  cases h with
  | error e => exact .error e
  | @ok pass out hwrote =>
    change Follows tolerance before (f pass) (z >>= fun out' => pure (out ++ out'))
    have hnext := hf pass hwrote.sound
    revert hnext
    generalize f pass = x'
    rintro (e | hwrote')
    · exact .error e
    · exact .ok (hwrote.trans hwrote')

/-- What is done with all that a pass wrote can be done with what the computation returns. -/
theorem bind_eq {α : Type} (h : Follows tolerance [] x y)
    (f : List (Instruction F) → Except (ConvertError F) α) :
    (x >>= fun pass => f pass.out.toList) = y >>= f := by
  cases h with
  | error e => rfl
  | ok hwrote => exact congrArg f hwrote.out_eq

/-- Steps that follow the replacement of each instruction follow, one after the other, the
replacement of all. -/
theorem foldlM {step : Pass F → Instruction F → Except (ConvertError F) (Pass F)}
    {f : Instruction F → Except (ConvertError F) (List (Instruction F))}
    (hstep : ∀ pass : Pass F, pass.engine.Sound tolerance → ∀ i,
      Follows tolerance pass.out.toList (step pass i) (f i))
    {pass : Pass F} (hpass : pass.engine.Sound tolerance) (is : List (Instruction F)) :
    Follows tolerance pass.out.toList (is.foldlM step pass)
      (is.mapM f >>= fun outs => pure outs.flatten) := by
  induction is generalizing pass with
  | nil => exact .ok (.nothing hpass)
  | cons i is ih =>
    have hcons : ((i :: is).mapM f >>= fun outs => pure outs.flatten) = f i >>= fun out =>
        (is.mapM f >>= fun outs => pure outs.flatten) >>= fun out' => pure (out ++ out') := by
      simp only [List.mapM_cons, bind_assoc, pure_bind, List.flatten_cons]
    rw [List.foldlM_cons, hcons]
    exact (hstep pass hpass i).andThen fun pass' hpass' => ih hpass'

end Follows

/-- One instruction: whatever is remembered, a pass writes what the instruction becomes. -/
theorem visit_follows (table : GateTable) (b : Bindings F) (levels : ℕ) {pass : Pass F}
    (hpass : pass.engine.Sound tolerance) (i : Instruction F) :
    Follows tolerance pass.out.toList (visit table b levels pass i)
      (instruction table b tolerance levels i) := by
  induction levels using Nat.strong_induction_on generalizing pass i with
  | _ levels ih =>
    unfold visit instruction
    split
    · split
      · exact .ok (.nothing hpass)
      · exact .ok (.single hpass i)
    refine .bind fun gate _ => ?_
    split
    · exact .bind fun j _ => .ok (.single hpass j)
    cases levels with
    | zero => exact .error _
    | succ rest =>
      have hsound := hpass.decompose gate
      dsimp only
      rw [← (Synthesis.Decomposer.decompose_cases hpass gate).1]
      revert hsound
      rcases pass.engine.decompose gate with ⟨engine, e | sequence⟩
      · exact fun _ => .error _
      · intro hsound
        have hpass' : ({ pass with engine := engine } : Pass F).engine.Sound tolerance := hsound
        refine .bind fun placed _ => ?_
        exact Follows.foldlM (fun _ h j => ih rest (Nat.lt_succ_self rest) h j) hpass' placed

/-- A pass with one decomposer for the whole circuit lowers each instruction on its own. -/
theorem circuit_eq (table : GateTable) (b : Bindings F) (tolerance : F) (c : Circuit F) :
    circuit table b tolerance c = (do
      let lowered ← c.instructions.mapM (instruction table b tolerance maxDepth)
      ConvertError.lift table.framework (c.withInstructions lowered.flatten)) := by
  have hstart : ({ engine := { tolerance := tolerance } } : Pass F).engine.Sound tolerance :=
    Synthesis.Decomposer.fresh_sound tolerance
  have hfollows := Follows.foldlM (fun _ h i => visit_follows table b maxDepth h i) hstart
    c.instructions
  refine (hfollows.bind_eq fun out =>
    ConvertError.lift table.framework (c.withInstructions out)).trans ?_
  simp only [bind_assoc, pure_bind]

omit [Eigensolver F] in
/-- A gate without free parameters is used as it is. -/
theorem bindFor_of_not_parameterized {g : Gate F} (h : g.isParameterized = false) :
    bindFor table b g = .ok g := by
  rw [bindFor, Gate.substitute_of_not_parameterized h]
  simp [ConvertError.lift, h, bind, Except.bind, pure, Except.pure]

theorem instruction_of_isMeasure {levels : ℕ} {i : Instruction F} (hm : i.isMeasure = true) :
    instruction table b tolerance levels i =
      .ok (if table.implicitMeasurement then [] else [i]) := by
  unfold instruction
  rw [if_pos hm]

/-- What happens to one instruction: a measurement is kept or dropped, a gate of the table is kept
under its bound form, and any other gate is replaced and its replacement lowered one level down. -/
theorem instruction_cases {levels : ℕ} {i : Instruction F} {out : List (Instruction F)}
    (h : instruction table b tolerance levels i = .ok out) :
    (i.isMeasure = true ∧ out = if table.implicitMeasurement then [] else [i]) ∨
    (i.isMeasure = false ∧ ∃ g, bindFor table b i.gate = .ok g ∧
      ((table.supports g.tag = true ∧ ∃ j, i.withGate g = .ok j ∧ out = [j]) ∨
        (table.supports g.tag = false ∧ ∃ rest seq placed outs, levels = rest + 1 ∧
          Synthesis.decompose tolerance g = .ok seq ∧
          Substitute.placeAll seq i.qubits = .ok placed ∧
          placed.mapM (instruction table b tolerance rest) = .ok outs ∧ out = outs.flatten))) := by
  unfold instruction at h
  split at h
  next hm => exact .inl ⟨hm, (Except.ok.inj h).symm⟩
  next hm =>
    refine .inr ⟨by simpa using hm, ?_⟩
    obtain ⟨g, hg, h⟩ := bind_eq_ok_iff.mp h
    refine ⟨g, hg, ?_⟩
    split at h
    next hs =>
      obtain ⟨j, hj, h⟩ := bind_eq_ok_iff.mp h
      exact .inl ⟨hs, j, ConvertError.lift_eq_ok_iff.mp hj, (Except.ok.inj h).symm⟩
    next hs =>
      refine .inr ⟨by simpa using hs, ?_⟩
      cases levels with
      | zero => cases h
      | succ rest =>
        dsimp only at h
        split at h
        · cases h
        next seq hseq =>
          obtain ⟨placed, hplaced, h⟩ := bind_eq_ok_iff.mp h
          obtain ⟨outs, houts, h⟩ := bind_eq_ok_iff.mp h
          exact ⟨rest, seq, placed, outs, rfl, hseq, ConvertError.lift_eq_ok_iff.mp hplaced, houts,
            (Except.ok.inj h).symm⟩

theorem circuit_eq_ok_iff {c c' : Circuit F} :
    circuit table b tolerance c = .ok c' ↔
      ∃ outs, c.instructions.mapM (instruction table b tolerance maxDepth) = .ok outs ∧
        (∀ i ∈ outs.flatten, ∀ q ∈ i.qubits, q < c.qubits) ∧
        c' = { c with instructions := outs.flatten } := by
  rw [circuit_eq, bind_eq_ok_iff]
  simp only [ConvertError.lift_eq_ok_iff, Circuit.withInstructions_eq_ok_iff]

/-- A property that passes to other gates on the same qubits and to gates placed on them passes to
all that an instruction becomes. -/
theorem forall_mem_instruction {P : Instruction F → Prop}
    (hwith : ∀ {i j : Instruction F} {g : Gate F}, P i → i.withGate g = .ok j → P j)
    (hplace : ∀ {i j : Instruction F} {s : Substitute F}, P i → s.place i.qubits = .ok j → P j)
    {levels : ℕ} {i : Instruction F} {out : List (Instruction F)} (hi : P i)
    (h : instruction table b tolerance levels i = .ok out) : ∀ j ∈ out, P j := by
  induction levels using Nat.strong_induction_on generalizing i out with
  | _ levels ih =>
    rcases instruction_cases h with ⟨-, rfl⟩ | ⟨-, g, -, hcases⟩
    · split_ifs
      · exact fun j hj => absurd hj List.not_mem_nil
      · exact List.forall_mem_singleton.mpr hi
    rcases hcases with ⟨-, j, hj, rfl⟩ | ⟨-, rest, seq, placed, outs, rfl, -, hplaced, houts, rfl⟩
    · exact List.forall_mem_singleton.mpr (hwith hi hj)
    · intro j hj
      obtain ⟨k, hk, out, hout, hj⟩ := exists_of_mem_flatten houts hj
      obtain ⟨s, -, hs⟩ := exists_of_forall₂_right (mapM_eq_ok_iff.mp hplaced) hk
      exact ih rest (Nat.lt_succ_self rest) (hplace hi hs) hout j hj

theorem forall_mem_circuit {P : Instruction F → Prop}
    (hwith : ∀ {i j : Instruction F} {g : Gate F}, P i → i.withGate g = .ok j → P j)
    (hplace : ∀ {i j : Instruction F} {s : Substitute F}, P i → s.place i.qubits = .ok j → P j)
    {c c' : Circuit F} (hc : ∀ i ∈ c.instructions, P i)
    (h : circuit table b tolerance c = .ok c') : ∀ j ∈ c'.instructions, P j := by
  obtain ⟨outs, houts, -, rfl⟩ := circuit_eq_ok_iff.mp h
  intro j hj
  obtain ⟨i, hi, out, hout, hj⟩ := exists_of_mem_flatten houts hj
  exact forall_mem_instruction hwith hplace (hc i hi) hout j hj

theorem instruction_of_supports {levels : ℕ} {i : Instruction F} {n : ℕ} (hw : i.WellFormed n)
    (himplicit : table.implicitMeasurement = false) (hs : table.supports i.tag = true)
    (h : i.gate.isParameterized = false) :
    instruction table b tolerance levels i = .ok [i] := by
  have hwith : i.withGate i.gate = .ok i :=
    Instruction.withGate_eq_ok_iff.mpr ⟨⟨hw.length_eq, hw.nodup⟩, rfl⟩
  unfold instruction
  cases hm : i.isMeasure with
  | true => rw [if_pos rfl, himplicit, if_neg Bool.false_ne_true]
  | false =>
    rw [if_neg Bool.false_ne_true, bindFor_of_not_parameterized h]
    change (if table.supports i.tag = true then _ else _) = _
    rw [if_pos hs, hwith]
    rfl

/-- A circuit without free parameters is left alone by a table that has all its gates. -/
theorem circuit_of_supports {c : Circuit F} (hw : c.WellFormed)
    (himplicit : table.implicitMeasurement = false)
    (hs : ∀ i ∈ c.instructions, table.supports i.tag = true)
    (h : ∀ i ∈ c.instructions, i.gate.isParameterized = false) :
    circuit table b tolerance c = .ok c := by
  have hflatten : (c.instructions.map fun i => [i]).flatten = c.instructions := by
    rw [← List.flatMap_def, List.flatMap_singleton']
  refine circuit_eq_ok_iff.mpr ⟨c.instructions.map fun i => [i], ?_, ?_, ?_⟩
  · rw [mapM_eq_ok_iff, List.forall₂_map_right_iff, List.forall₂_same]
    exact fun i hi => instruction_of_supports (hw i hi) himplicit (hs i hi) (h i hi)
  · rw [hflatten]
    exact fun i hi => (hw i hi).lt
  · rw [hflatten]

/-- The replacements that lowering an instruction asks for, at any depth: each gate together with
the sequence returned for it. -/
inductive Asked (table : GateTable) (b : Bindings F) (tolerance : F) :
    ℕ → Instruction F → Gate F → Synthesis.Sequence F → Prop
  | here {rest : ℕ} {i : Instruction F} {g : Gate F} {seq : Synthesis.Sequence F}
      (hm : i.isMeasure = false) (hg : bindFor table b i.gate = .ok g)
      (hs : table.supports g.tag = false) (hseq : Synthesis.decompose tolerance g = .ok seq) :
      Asked table b tolerance (rest + 1) i g seq
  | deeper {rest : ℕ} {i j : Instruction F} {g g' : Gate F} {seq seq' : Synthesis.Sequence F}
      {placed : List (Instruction F)} (hm : i.isMeasure = false)
      (hg : bindFor table b i.gate = .ok g) (hs : table.supports g.tag = false)
      (hseq : Synthesis.decompose tolerance g = .ok seq)
      (hplaced : Substitute.placeAll seq i.qubits = .ok placed) (hj : j ∈ placed)
      (h : Asked table b tolerance rest j g' seq') :
      Asked table b tolerance (rest + 1) i g' seq'

omit [Eigensolver F] in
theorem tag_bindFor {g g' : Gate F} (h : bindFor table b g = .ok g') : g'.tag = g.tag := by
  obtain ⟨bound, hbound, h⟩ := bind_eq_ok_iff.mp h
  split at h
  · cases h
  · obtain rfl := Except.ok.inj h
    exact Gate.tag_of_substitute (ConvertError.lift_eq_ok_iff.mp hbound)

/-- With the common core in the table, only the instruction itself is ever replaced. -/
theorem Asked.top (hcore : ∀ tag ∈ Tag.commonCore, table.supports tag = true) {levels : ℕ}
    {i : Instruction F} {g : Gate F} {seq : Synthesis.Sequence F}
    (h : Asked table b tolerance levels i g seq) :
    i.isMeasure = false ∧ bindFor table b i.gate = .ok g ∧
      Synthesis.decompose tolerance g = .ok seq := by
  cases h with
  | here hm hg hs hseq => exact ⟨hm, hg, hseq⟩
  | @deeper rest _ j g₀ _ seq₀ _ placed hm hg hs hseq hplaced hj h =>
    obtain ⟨s, hmem, hplace⟩ := exists_of_forall₂_right (mapM_eq_ok_iff.mp hplaced) hj
    obtain ⟨ops, -, hnew⟩ := bind_eq_ok_iff.mp hplace
    obtain ⟨-, rfl⟩ := Instruction.new_eq_ok_iff.mp hnew
    obtain ⟨tag, ht, params, hgate⟩ := Synthesis.decompose_allCore tolerance g₀ seq₀ hseq s hmem
    have hsupported (g' : Gate F) (hg' : bindFor table b s.gate = .ok g') :
        table.supports g'.tag = true := by
      rw [tag_bindFor hg', Gate.tag_of_new hgate]
      exact hcore tag ht
    cases h with
    | here _ hg' hs' _ => simp [hsupported _ hg'] at hs'
    | deeper _ hg' hs' _ _ _ _ => simp [hsupported _ hg'] at hs'

end Interchange.Lowering

namespace Interchange

variable {F : Type}

def SynthesisError.IsNesting : SynthesisError F → Prop
  | .decomposition _ _ (.nesting _) => True
  | _ => False

theorem SynthesisError.lift_raises {α : Type} (x : Except (CircuitError F) α) :
    Raises (lift x) fun e => ¬ e.IsNesting := by
  cases x with
  | ok a => exact .ok a _
  | error e => exact .error id

def ConvertError.IsNesting : ConvertError F → Prop
  | .conversion _ _ _ cause => cause.IsNesting
  | _ => False

theorem ConvertError.lift_raises {α : Type} (f : Framework) (x : Except (CircuitError F) α) :
    Raises (lift f x) fun e => ¬ e.IsNesting := by
  cases x with
  | ok a => exact .ok a _
  | error e => cases e <;> exact .error id

variable [Scalar F]

namespace Kak

theorem split_raises (u : Operator F) : Raises (split u) fun e => ¬ e.IsNesting := by
  unfold Kak.split
  dsimp only
  split
  · exact .error id
  · exact .ok _ _

theorem decomposeWith_raises (solver : Operator F → Option (Operator F)) (u : Operator F) :
    Raises (decomposeWith solver u) fun e => ¬ e.IsNesting := by
  unfold decomposeWith
  split
  · exact .error id
  · dsimp only
    split
    · exact .error id
    · exact (split_raises _).bind fun _ _ => (split_raises _).bind fun _ _ => .ok _ _

theorem sequence_raises [Eigensolver F] (u : Operator F) : Raises
    (sequence u) fun e => ¬ e.IsNesting :=
  (decomposeWith_raises _ u).bind fun _ _ => SynthesisError.lift_raises _

end Kak

namespace Synthesis

theorem fromMatrix_raises [Eigensolver F] (tolerance : F) (g : Gate F) (m : Operator F) :
    Raises (fromMatrix tolerance g m) fun e => ¬ e.IsNesting := by
  unfold fromMatrix
  split
  · split
    · exact SynthesisError.lift_raises _
    · exact .error id
  · split
    next tag arity fault hseq =>
      have hfault := Kak.sequence_raises m _ hseq
      cases fault with
      | nesting => exact absurd trivial hfault
      | _ => exact .error id
    next => exact Kak.sequence_raises m
  · exact .error id

/-- A replacement may fail for several reasons, but it does not count levels. -/
theorem decompose_raises [Eigensolver F] (tolerance : F) (g : Gate F) :
    Raises (decompose tolerance g) fun e => ¬ e.IsNesting := by
  refine (SynthesisError.lift_raises _).bind fun found _ => ?_
  cases found with
  | some sequence => exact .ok _ _
  | none =>
    dsimp only
    split
    · exact .error id
    · exact fromMatrix_raises tolerance g _

end Synthesis

namespace Lowering

variable {table : GateTable} {b : Bindings F} {tolerance : F}

theorem supports_of_missingCommonCore (h : table.missingCommonCore = []) :
    ∀ tag ∈ Tag.commonCore, table.supports tag = true := by
  intro tag ht
  have hfilter := List.filter_eq_nil_iff.mp h tag ht
  simpa using hfilter

theorem bindFor_raises (g : Gate F) : Raises (bindFor table b g) fun e => ¬ e.IsNesting := by
  refine (ConvertError.lift_raises _ _).bind fun gate _ => ?_
  split
  · exact .error id
  · exact .ok _ _

theorem tag_of_placed [Eigensolver F] {g : Gate F} {seq : Synthesis.Sequence F} {qs : List ℕ}
    {placed : List (Instruction F)} (hseq : Synthesis.decompose tolerance g = .ok seq)
    (hplaced : Substitute.placeAll seq qs = .ok placed) :
    ∀ j ∈ placed, j.gate.tag ∈ Tag.commonCore := by
  intro j hj
  obtain ⟨s, hs, hplace⟩ := exists_of_forall₂_right (mapM_eq_ok_iff.mp hplaced) hj
  obtain ⟨ops, -, hnew⟩ := bind_eq_ok_iff.mp hplace
  obtain ⟨-, rfl⟩ := Instruction.new_eq_ok_iff.mp hnew
  obtain ⟨tag, ht, params, hgate⟩ := Synthesis.decompose_allCore tolerance g seq hseq s hs
  rwa [Gate.tag_of_new hgate]

theorem isMeasure_of_placed [Eigensolver F] {g : Gate F} {seq : Synthesis.Sequence F} {qs : List ℕ}
    {placed : List (Instruction F)} (hseq : Synthesis.decompose tolerance g = .ok seq)
    (hplaced : Substitute.placeAll seq qs = .ok placed) : ∀ j ∈ placed, j.isMeasure = false := by
  intro j hj
  have htag := tag_of_placed hseq hplaced j hj
  rw [Instruction.isMeasure, Instruction.tag, beq_eq_false_iff_ne]
  intro hmeasure
  rw [hmeasure] at htag
  exact absurd htag (by decide)

/-- With the common core in the table, a replacement needs no further one. -/
theorem instruction_raises [Eigensolver F]
    (hcore : ∀ tag ∈ Tag.commonCore, table.supports tag = true)
    {levels : ℕ} {i : Instruction F} (hi : 0 < levels ∨ table.supports i.gate.tag = true) :
    Raises (instruction table b tolerance levels i) fun e => ¬ e.IsNesting := by
  induction levels using Nat.strong_induction_on generalizing i with
  | _ levels ih =>
    unfold instruction
    split
    · exact .ok _ _
    refine (bindFor_raises _).bind fun g hg => ?_
    dsimp only
    split
    · exact (ConvertError.lift_raises _ _).bind fun _ _ => .ok _ _
    next hs =>
      cases levels with
      | zero => exact absurd (hi.resolve_left (Nat.lt_irrefl 0)) (tag_bindFor hg ▸ hs)
      | succ rest =>
        dsimp only
        split
        next e he => exact .error (Synthesis.decompose_raises tolerance g e he)
        next seq hseq =>
          refine (ConvertError.lift_raises _ _).bind fun placed hplaced => ?_
          refine .bind (.mapM fun j hj => ih rest (Nat.lt_succ_self rest) (.inr ?_))
            fun _ _ => .ok _ _
          exact hcore _ (tag_of_placed hseq (ConvertError.lift_eq_ok_iff.mp hplaced) j hj)

end Lowering

end Interchange
