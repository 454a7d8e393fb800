import Interchange.Proofs.AngleRange
import Interchange.Proofs.AngleReading
import Interchange.Proofs.CircuitReading
import Interchange.Proofs.ProgramCircuit
import Interchange.Proofs.ProgramText
import Interchange.Proofs.StandardGate

namespace Interchange.Qasm
open Lexeme Qasm.Parser

/-- What a parameter is on the way into a text and back. -/
structure ParamPassage (F : Type) where
  text : String
  tokens : List Token
  expression : Expression
  param : Param F
  value : F

instance {F : Type} [Scalar F] : Nonempty (ParamPassage F) := ⟨⟨"", [], .pi, .pi, 0⟩⟩

/-- The parameter is written as the text, which is read as a parameter of the same value. -/
structure ParamPassage.Of {F : Type} [Scalar F] [Numeral F] (p : Param F) (w : ParamPassage F) :
    Prop where
  write : writeParam [] p = .ok w.text
  chunk : Chunk w.text.toList w.tokens
  derives : Derives .sum w.tokens w.expression
  toParam : w.expression.toParam {} {} = .ok w.param
  before : p.value? = some w.value
  after : w.param.value? = some w.value
  finite : Scalar.isFinite w.value = true

theorem exists_paramPassage {g : Gate Float} (hg : g.IsBuilt) (hn : g.isParameterized = false)
    (ha : ∀ v, .const v ∈ g.params → AngleReadsBack v) {p : Param Float} (hp : p ∈ g.params) :
    ∃ w, ParamPassage.Of p w := by
  obtain ⟨v, hv, hfin, rfl | rfl⟩ := hg.exists_value hn hp
  · obtain ⟨text, ts, e, q, hwrite, hchunk, he, hq, hqv⟩ := (ha v hp).exists_expression
    exact ⟨⟨text, ts, e, q, v⟩, hwrite, hchunk, he, hq, hv, hqv, hfin⟩
  · exact ⟨⟨"pi", _, .pi, .pi, v⟩, rfl, PiForm.pi.chunk, .sumOf PiForm.pi.derives,
      by rw [Expression.toParam], hv, hv, hfin⟩

theorem toParams_eq_mapM {F : Type} [Scalar F] (env : Environment F) (scope : Scope F)
    (es : List Expression) :
    Expression.toParams env scope es = es.mapM (Expression.toParam env scope) := by
  induction es with
  | nil => rw [Expression.toParams]; rfl
  | cons e es ih => rw [Expression.toParams, ih, List.mapM_cons]

theorem name_of_entry (version : Version) {tag : Tag} {name : String}
    (h : version.table.native? tag = some name) (hm : tag ≠ .measure) :
    IsName name.toList ∧ name ≠ "u2" ∧ standardGate? name = some tag ∧
      0 < tag.qubits?.getD 0 := by
  have hall : ∀ e ∈ version.table.entries, e.1 = .measure ∨
      (e.2.toList.head?.any startsWord = true ∧ e.2.toList.all continuesWord = true ∧
        Keyword.ofText? e.2 = none) ∧ e.2 ≠ "u2" ∧ standardGate? e.2 = some e.1 ∧
        0 < e.1.qubits?.getD 0 := by
    cases version <;> decide +kernel
  obtain ⟨_, _, hentries, -⟩ := List.lookup_eq_some_iff.mp h
  have hmem : (tag, name) ∈ version.table.entries := by simp [hentries]
  obtain ⟨⟨hstart, hword, hfree⟩, hu, htag, hpos⟩ := (hall _ hmem).resolve_left hm
  refine ⟨⟨?_, by rwa [String.ofList_toList]⟩, hu, htag, hpos⟩
  rw [Option.any_eq_true] at hstart
  obtain ⟨c, hc, hstart⟩ := hstart
  obtain ⟨tail, htail⟩ := List.head?_eq_some_iff.mp hc
  refine ⟨c, tail, htail, hstart, fun d hd => List.all_eq_true.mp hword d ?_⟩
  exact htail ▸ List.mem_cons_of_mem c hd

theorem qubits_of_pos {F : Type} [Scalar F] {g : Gate F} {tag : Tag} (hg : g.tag = tag)
    (h : 0 < tag.qubits?.getD 0) : g.qubits = tag.qubits?.getD 0 := by
  rw [Gate.qubits, hg]
  cases hn : tag.qubits? with
  | none =>
    rw [hn] at h
    exact absurd h (Nat.lt_irrefl 0)
  | some n => rfl

/-- The same gate on the same qubits and bits, with the same numbers. -/
structure SameNumeric {F : Type} [Scalar F] (i j : Instruction F) : Prop where
  tag : j.tag = i.tag
  qubits : j.qubits = i.qubits
  clbits : j.clbits = i.clbits
  values : ∃ values, i.gate.numeric? = some values ∧ j.gate.numeric? = some values

/-- An instruction on registers of the sizes that a version has a gate for. It was built from a tag,
its parameters are numbers whose texts read back, and a bit is written by measurements only. -/
structure Expressible (version : Version) (qubits clbits : ℕ) (i : Instruction Float) : Prop where
  built : i.gate.IsBuilt
  wellFormed : i.WellFormed qubits
  supported : version.table.supports i.tag = true
  numeric : i.gate.isParameterized = false
  angles : ∀ v, .const v ∈ i.gate.params → AngleReadsBack v
  bit : i.isMeasure = true → ∃ b < clbits, i.clbits = [b]
  noBit : i.isMeasure = false → i.clbits = []

section

variable {F : Type} [Scalar F] [Numeral F]

/-- An instruction on registers of the sizes that a version has a gate for, whose parameters are
numbers with texts that read back. -/
structure Spelled (version : Version) (qubits clbits : ℕ) (i : Instruction F) : Prop where
  tag_ne : i.tag ≠ .unitary
  length_params : i.gate.params.length = i.tag.paramCount
  wellFormed : i.WellFormed qubits
  supported : version.table.supports i.tag = true
  passages : ∀ p ∈ i.gate.params, ∃ w, ParamPassage.Of p w
  recorded : i.Recorded clbits

/-- What an instruction is on the way into a program and back. -/
structure LinePassage (F : Type) where
  text : String
  tokens : List Token
  statement : Statement
  instruction : Instruction F

omit [Numeral F] in
instance : Nonempty (LinePassage F) := ⟨⟨"", [], .includeFile "", .measure 0 0⟩⟩

/-- The instruction is written as the line, which is read as a statement that appends the same
instruction. -/
structure LinePassage.Of (version : Version) (qubits clbits : ℕ) (i : Instruction F)
    (w : LinePassage F) : Prop where
  write : instructionLines version [] i = .ok [w.text]
  line : Line w.text w.tokens
  sentence : Sentence F w.tokens w.statement
  declare : ∀ env : Environment F, env.declare w.statement = .ok env
  appends : Appends qubits clbits w.statement w.instruction
  same : SameNumeric i w.instruction
  standard : w.instruction.gate.IsStandard

variable {version : Version} {qubits clbits : ℕ} {i : Instruction F}

theorem Spelled.exists_line_measure (hq : qubits < Number.indexLimit)
    (hc : clbits < Number.indexLimit) (h : Spelled version qubits clbits i)
    (hm : i.isMeasure = true) : ∃ w, LinePassage.Of version qubits clbits i w := by
  have htag : i.tag = .measure := beq_iff_eq.mp hm
  have hlimit : Number.indexLimit < integerLimit := by decide
  obtain ⟨b, hb, hbits⟩ := h.recorded.exists_clbits hm
  have hparams : i.gate.params = [] := by
    rw [← List.length_eq_zero_iff, h.length_params, htag]
    rfl
  obtain ⟨q, hqubits⟩ : ∃ q, i.qubits = [q] := by
    rw [← List.length_eq_one_iff, h.wellFormed.length_eq, Gate.qubits_of_tag h.tag_ne]
    exact congrArg (fun tag : Tag => tag.qubits?.getD 0) htag
  have hqlt : q < qubits := h.wellFormed.lt q (by simp [hqubits])
  refine ⟨⟨measureLine version q b, _, _, .measure q b⟩, ?_, line_measure version ?_ ?_,
    sentence_measure version ?_ ?_, fun _ => rfl, appends_measure hqlt hb, ?_,
    [], Gate.hasValues_measure⟩
  · rw [instructionLines, if_pos hm, hqubits, hbits]
    rfl
  · omega
  · omega
  · omega
  · omega
  · refine ⟨htag.symm, hqubits.symm, hbits.symm, [], ?_, rfl⟩
    rw [Gate.numeric?, hparams]
    rfl

theorem exists_new_of_passages {g : Gate F} (hu : g.tag ≠ .unitary)
    (hl : g.params.length = g.tag.paramCount) {f : Param F → ParamPassage F}
    (hf : ∀ p ∈ g.params, ParamPassage.Of p (f p)) :
    ∃ g', Gate.new g.tag (g.params.map fun p => (f p).param) = .ok g' ∧ g'.tag = g.tag ∧
      g.numeric? = some (g.params.map fun p => (f p).value) ∧
      g'.HasValues (g.params.map fun p => (f p).value) := by
  have hafter : Gate.values? (g.params.map fun p => (f p).param) =
      some (g.params.map fun p => (f p).value) := by
    rw [Gate.values?, mapM_eq_some_iff, List.forall₂_map_left_iff, List.forall₂_map_right_iff,
      List.forall₂_same]
    exact fun p hp => (hf p hp).after
  have hfinite : ∀ v ∈ g.params.map fun p => (f p).value, Scalar.isFinite v = true := by
    intro v hv
    obtain ⟨p, hp, rfl⟩ := List.mem_map.mp hv
    exact (hf p hp).finite
  obtain ⟨g', hnew, htag, hvalues⟩ := Gate.exists_new_of_values hu (by rwa [List.length_map]) hafter
    hfinite
  refine ⟨g', hnew, htag, ?_, hvalues⟩
  rw [Gate.numeric?, Gate.values?, mapM_eq_some_iff, List.forall₂_map_right_iff, List.forall₂_same]
  exact fun p hp => (hf p hp).before

theorem Spelled.exists_line_gate (hq : qubits < Number.indexLimit)
    (h : Spelled version qubits clbits i) (hm : i.isMeasure = false) :
    ∃ w, LinePassage.Of version qubits clbits i w := by
  have hlimit : Number.indexLimit < integerLimit := by decide
  obtain ⟨name, hnative⟩ := Option.isSome_iff_exists.mp h.supported
  have htag : i.tag ≠ .measure := by simpa [Instruction.isMeasure] using hm
  have hclbits := h.recorded.clbits_eq_nil hm
  obtain ⟨hname, hu, hstandard, hpos⟩ := name_of_entry version hnative htag
  -- one passage for each parameter; the texts, the tokens and the read parameters are lists of them
  choose! f hf using h.passages
  obtain ⟨g, hg, hgtag, hbefore, hafter⟩ := exists_new_of_passages h.tag_ne h.length_params hf
  have hqlt : ∀ q ∈ i.qubits, q < Number.indexLimit :=
    fun q hmem => (h.wellFormed.lt q hmem).trans hq
  have hcount : i.qubits.length = i.tag.qubits?.getD 0 :=
    h.wellFormed.length_eq.trans (qubits_of_pos rfl hpos)
  have hne : i.qubits ≠ [] := List.ne_nil_of_length_pos (hcount ▸ hpos)
  have hlist : QubitList qubits g.qubits i.qubits :=
    ⟨hcount.trans (qubits_of_pos hgtag hpos).symm, h.wellFormed.nodup, h.wellFormed.lt⟩
  let args := i.gate.params.map fun p => ((f p).tokens, (f p).expression)
  have hargs : ∀ a ∈ args, Derives .sum a.1 a.2 := by
    intro a ha
    obtain ⟨p, hp, rfl⟩ := List.mem_map.mp ha
    exact (hf p hp).derives
  have hwrite : i.gate.params.mapM (writeParam []) =
      .ok (i.gate.params.map fun p => (f p).text) := by
    rw [mapM_eq_ok_iff, List.forall₂_map_right_iff, List.forall₂_same]
    exact fun p hp => (hf p hp).write
  have hchunks : List.Forall₂ (fun text ts => Chunk text.toList ts)
      (i.gate.params.map fun p => (f p).text) (args.map Prod.fst) := by
    rw [List.map_map, List.forall₂_map_left_iff, List.forall₂_map_right_iff, List.forall₂_same]
    exact fun p hp => (hf p hp).chunk
  have hparams : Expression.toParams (layout F qubits clbits) {} (args.map Prod.snd) =
      .ok (i.gate.params.map fun p => (f p).param) := by
    -- a program without inputs reads angles as an empty environment does
    have hinputs : (layout F qubits clbits).inputs = ({} : Environment F).inputs := rfl
    rw [toParams_eq_mapM, mapM_eq_ok_iff, List.map_map, List.forall₂_map_left_iff,
      List.forall₂_map_right_iff, List.forall₂_same]
    exact fun p hp => (toParam_of_inputs_eq hinputs {} _).trans (hf p hp).toParam
  obtain ⟨text, htext, hline⟩ := gateLine_line hnative hname hwrite hchunks
    fun q hmem => (hqlt q hmem).trans hlimit
  refine ⟨⟨text, _, _, ⟨g, i.qubits, []⟩⟩, ?_, hline, sentence_gate name hargs hne hqlt,
    fun _ => rfl, appends_gate hu hstandard hparams hg hlist hcount, ?_, _, hafter⟩
  · rw [instructionLines, if_neg (by simp [hm]), htext]
    rfl
  · exact ⟨hgtag, rfl, hclbits.symm, _, hbefore, hafter.params⟩

/-- Every instruction that is spelled out is one line of a program, and is read back from it. -/
theorem Spelled.exists_line (hq : qubits < Number.indexLimit) (hc : clbits < Number.indexLimit)
    (h : Spelled version qubits clbits i) : ∃ w, LinePassage.Of version qubits clbits i w := by
  cases hm : i.isMeasure with
  | true => exact h.exists_line_measure hq hc hm
  | false => exact h.exists_line_gate hq hm

end

theorem Expressible.spelled {version : Version} {qubits clbits : ℕ} {i : Instruction Float}
    (h : Expressible version qubits clbits i) : Spelled version qubits clbits i where
  tag_ne := h.built.tag_ne
  length_params := h.built.length_params
  wellFormed := h.wellFormed
  supported := h.supported
  passages _ hp := exists_paramPassage h.built h.numeric h.angles hp
  recorded := by
    unfold Instruction.Recorded
    split_ifs with hm
    · exact h.bit hm
    · exact h.noBit (by simpa using hm)

theorem exists_linePassage {version : Version} {qubits clbits : ℕ} {i : Instruction Float}
    (hq : qubits < Number.indexLimit) (hc : clbits < Number.indexLimit)
    (h : Expressible version qubits clbits i) : ∃ w, LinePassage.Of version qubits clbits i w :=
  h.spelled.exists_line hq hc

end Interchange.Qasm

namespace Interchange

theorem Circuit.freeParameters_eq_nil {F : Type} {c : Circuit F}
    (h : ∀ i ∈ c.instructions, i.gate.isParameterized = false) : c.freeParameters = [] := by
  have hrefs : c.instructions.flatMap (·.gate.refs) = [] := by
    refine List.flatMap_eq_nil_iff.mpr fun i hi => List.flatMap_eq_nil_iff.mpr fun p hp => ?_
    exact Param.collect_of_not_symbolic (by simpa using List.any_eq_false.mp (h i hi) p hp) []
  rw [freeParameters, hrefs]
  rfl

namespace Qasm
open Lexeme Qasm.Parser

theorem firstToken?_of_spells {text : List Char} {t : Token} {ts : List Token}
    (h : Spells text (t :: ts)) :
    ∃ rest, firstToken? text = some (.ok t, rest) ∧ Spells rest ts := by
  generalize hus : t :: ts = us at h
  induction h with
  | nil => cases hus
  | separator hhead _ ih =>
    obtain ⟨rest, hrest, hs⟩ := ih hus
    refine ⟨rest, ?_, hs⟩
    rw [firstToken?, hhead]
    exact hrest
  | token hhead hs _ =>
    obtain ⟨rfl, rfl⟩ := List.cons.inj hus
    refine ⟨_, ?_, hs⟩
    rw [firstToken?, hhead]

theorem detect?_of_spells {text : String} {version : Version} {ts : List Token}
    (h : Spells text.toList (headerTokens version ++ ts)) :
    Version.detect? text = some version := by
  obtain ⟨rest, hfirst, hrest⟩ := firstToken?_of_spells h
  obtain ⟨_, hsecond, -⟩ := firstToken?_of_spells hrest
  rw [Version.detect?, hfirst]
  dsimp only
  rw [hsecond]
  change Version.ofToken? (.float (headerNumber version)) = some version
  cases version <;> decide

theorem snd_registerSentences (version : Version) (qubits clbits : ℕ) :
    (registerSentences version qubits clbits).map Prod.snd = declarations qubits clbits := by
  unfold registerSentences declarations
  split_ifs <;> rfl

theorem parse_of_spells {F : Type} {text : String} {version : Version}
    {sentences : List (List Token × Statement)}
    (htext : Spells text.toList (headerTokens version ++ sentences.flatMap Prod.fst))
    (h : ∀ s ∈ sentences, Sentence F s.1 s.2) :
    ∃ number, Program.parse (F := F) text = .ok ⟨number, sentences.map Prod.snd⟩ := by
  obtain ⟨placed, hscan, hplaced⟩ := scanFrom_of_spells htext 1
  obtain ⟨number, hheader⟩ := takes_header (F := F) version (sentences.flatMap Prod.fst)
  obtain ⟨rest, hrest, htokens⟩ := hheader placed hplaced
  refine ⟨number, ?_⟩
  rw [Program.parse, scan, hscan]
  change (header placed >>= _) = _
  rw [hrest]
  change (statements rest.val >>= _) = _
  rw [statements_of_sentences h htokens]
  rfl

section

variable {F : Type} [Scalar F] [Numeral F] (version : Version) (c : Circuit F)
  (f : Instruction F → LinePassage F)

def programLines : List String :=
  [version.header, version.library] ++ registerLines version c.qubits c.clbits ++
    c.instructions.map fun i => (f i).text

def programSentences : List (List Token × Statement) :=
  (libraryTokens version, .includeFile (libraryPath version)) ::
    (registerSentences version c.qubits c.clbits ++
      c.instructions.map fun i => ((f i).tokens, (f i).statement))

variable {version c f}

theorem write_of_passages (hn : ∀ i ∈ c.instructions, i.gate.isParameterized = false)
    (hf : ∀ i ∈ c.instructions, LinePassage.Of version c.qubits c.clbits i (f i)) :
    write version c = .ok (String.join ((programLines version c f).map (· ++ "\n"))) := by
  have hbody : c.instructions.mapM (instructionLines version []) =
      .ok (c.instructions.map fun i => [(f i).text]) := by
    rw [mapM_eq_ok_iff, List.forall₂_map_right_iff, List.forall₂_same]
    exact fun i hi => (hf i hi).write
  have hflatten : (c.instructions.map fun i => [(f i).text]).flatten =
      c.instructions.map fun i => (f i).text := by
    rw [← List.flatMap_def, List.map_eq_flatMap]
  have hinputs : ∀ head : List String, head ++ (nameInputs []).map
      (fun n => s!"input float[64] {n.2};") = head := fun head => List.append_nil head
  -- without free parameters both versions take the same branch
  unfold write
  dsimp only
  rw [Circuit.freeParameters_eq_nil hn]
  cases version with
  | v2 | v3 =>
    change (c.instructions.mapM (instructionLines _ []) >>= _) = _
    rw [hbody]
    change Except.ok _ = _
    rw [hinputs, hflatten]
    rfl

theorem spells_programLines (hq : c.qubits < Number.indexLimit) (hc : c.clbits < Number.indexLimit)
    (hf : ∀ i ∈ c.instructions, LinePassage.Of version c.qubits c.clbits i (f i)) :
    Spells (String.join ((programLines version c f).map (· ++ "\n"))).toList
      (headerTokens version ++ (programSentences version c f).flatMap Prod.fst) := by
  have hlimit : Number.indexLimit < integerLimit := by decide
  have hbody : List.Forall₂ Line (c.instructions.map fun i => (f i).text)
      ((c.instructions.map fun i => ((f i).tokens, (f i).statement)).map Prod.fst) := by
    rw [List.map_map, List.forall₂_map_left_iff, List.forall₂_map_right_iff, List.forall₂_same]
    exact fun i hi => (hf i hi).line
  have hlines : List.Forall₂ Line (programLines version c f)
      (headerTokens version :: (programSentences version c f).map Prod.fst) := by
    rw [programSentences, List.map_cons, List.map_append]
    exact .cons (line_header version) (.cons (line_library version)
      (List.rel_append (lines_registers version (hq.trans hlimit) (hc.trans hlimit)) hbody))
  rw [List.flatMap_def]
  exact spells_of_lines hlines

theorem sentence_of_mem_program (hq : c.qubits < Number.indexLimit)
    (hc : c.clbits < Number.indexLimit)
    (hf : ∀ i ∈ c.instructions, LinePassage.Of version c.qubits c.clbits i (f i)) :
    ∀ s ∈ programSentences version c f, Sentence F s.1 s.2 := by
  rw [programSentences, List.forall_mem_cons, List.forall_mem_append]
  refine ⟨sentence_include _, fun s hs => sentence_of_mem_registers hq hc hs, ?_⟩
  intro s hs
  obtain ⟨i, hi, rfl⟩ := List.mem_map.mp hs
  exact (hf i hi).sentence

theorem parse_programLines (hq : c.qubits < Number.indexLimit) (hc : c.clbits < Number.indexLimit)
    (hf : ∀ i ∈ c.instructions, LinePassage.Of version c.qubits c.clbits i (f i)) :
    parse (F := F) (String.join ((programLines version c f).map (· ++ "\n"))) =
      .ok { qubits := c.qubits, clbits := c.clbits,
            instructions := c.instructions.map fun i => (f i).instruction } := by
  obtain ⟨number, hparse⟩ := parse_of_spells (spells_programLines hq hc hf)
    (sentence_of_mem_program hq hc hf)
  rw [parse, hparse, programSentences, List.map_cons, List.map_append, snd_registerSentences,
    List.map_map]
  refine toCircuit_of_appends hq hc number _ ?_ ?_
  · intro s hs
    obtain ⟨i, hi, rfl⟩ := List.mem_map.mp hs
    exact (hf i hi).declare
  · rw [List.forall₂_map_left_iff, List.forall₂_map_right_iff, List.forall₂_same]
    exact fun i hi => (hf i hi).appends

end

/-- A circuit of expressible instructions is written as a program of the version, and the program
is read as the same circuit: the same registers and, instruction by instruction, the same gate on
the same qubits and bits with the same numbers. -/
theorem exists_parse_write {version : Version} {c : Circuit Float}
    (hq : c.qubits < Number.indexLimit) (hc : c.clbits < Number.indexLimit)
    (h : ∀ i ∈ c.instructions, Expressible version c.qubits c.clbits i) :
    ∃ text c', write version c = .ok text ∧ parse text = .ok c' ∧ c'.qubits = c.qubits ∧
      c'.clbits = c.clbits ∧ List.Forall₂ SameNumeric c.instructions c'.instructions ∧
      Version.detect? text = some version := by
  have hpassages : ∀ i ∈ c.instructions, ∃ w, LinePassage.Of version c.qubits c.clbits i w :=
    fun i hi => exists_linePassage hq hc (h i hi)
  choose! f hf using hpassages
  refine ⟨_, _, write_of_passages (fun i hi => (h i hi).numeric) hf, parse_programLines hq hc hf,
    rfl, rfl, ?_, detect?_of_spells (spells_programLines hq hc hf)⟩
  rw [List.forall₂_map_right_iff, List.forall₂_same]
  exact fun i hi => (hf i hi).same

/-- Angles of three kinds: `π` itself, a fraction of it and a negative decimal. -/
def mixedAngles : List (Param Float) := [.pi, .const Scalar.halfPi, .const (-0.75)]

def mixedCircuit : Circuit Float where
  qubits := 2
  clbits := 1
  instructions :=
    [⟨⟨.u, mixedAngles, (Gate.values? mixedAngles).bind Tag.u.matrix?⟩, [1], []⟩,
      ⟨⟨.cx, [], Tag.cx.matrix? []⟩, [1, 0], []⟩, .measure 0 0]

theorem isBuilt_of_simplified {tag : Tag} {params : List (Param Float)}
    (m : Option (Operator Float)) (htag : tag ≠ .unitary) (hlength : params.length = tag.paramCount)
    (hsimple : params.map Param.simplify = params)
    (hadmissible : ∀ p ∈ params, p.isAdmissible = true) : Gate.IsBuilt ⟨tag, params, m⟩ :=
  ⟨params, _, Gate.new_eq_ok_iff.mpr ⟨htag, hlength, by rwa [hsimple], rfl⟩, hsimple.symm⟩

theorem angleReadsBack_mixedAngles {v : Float} (h : .const v ∈ mixedAngles) :
    AngleReadsBack v := by
  simp only [mixedAngles, List.mem_cons, List.not_mem_nil, or_false, reduceCtorEq, false_or,
    Param.const.injEq] at h
  rcases h with rfl | rfl
  · exact angleReadsBack_of_lt_limit (by decide) (by decide)
  · exact angleReadsBack_of_lt_limit (by decide) (by decide)

theorem expressible_mixedCircuit :
    ∀ i ∈ mixedCircuit.instructions, Expressible .v3 mixedCircuit.qubits mixedCircuit.clbits i := by
  have hgate : ∀ {g : Gate Float} {qs : List ℕ}, g.IsBuilt → QubitList 2 g.qubits qs →
      g.isParameterized = false → (∀ v, .const v ∈ g.params → AngleReadsBack v) →
      Version.v3.table.supports g.tag = true → g.tag ≠ .measure → Expressible .v3 2 1 ⟨g, qs, []⟩ :=
    fun hbuilt hqs hn ha hs hm =>
      ⟨hbuilt, hqs, hs, hn, ha, fun h => absurd (beq_iff_eq.mp h) hm, fun _ => rfl⟩
  have hmeasure : Expressible .v3 2 1 (.measure 0 0) :=
    ⟨isBuilt_of_simplified _ (by decide) rfl rfl (by decide), ⟨rfl, by decide, by decide⟩,
      by decide, rfl, by rintro _ ⟨⟩, fun _ => ⟨0, by decide, rfl⟩, fun h => absurd h (by decide)⟩
  simp only [mixedCircuit, List.forall_mem_cons, List.not_mem_nil, false_imp_iff, implies_true,
    and_true]
  refine ⟨hgate ?_ ⟨rfl, by decide, by decide⟩ rfl (fun _ => angleReadsBack_mixedAngles) (by decide)
    (by decide), hgate ?_ ⟨rfl, by decide, by decide⟩ rfl (by rintro _ ⟨⟩) (by decide) (by decide),
    hmeasure⟩
  · exact isBuilt_of_simplified _ (by decide) rfl rfl (by decide)
  · exact isBuilt_of_simplified _ (by decide) rfl rfl (by decide)

theorem exists_parse_write_mixedCircuit :
    .measure 0 0 ∈ mixedCircuit.instructions ∧
      (∀ i ∈ mixedCircuit.instructions, Expressible .v3 2 1 i) ∧
      ∃ text c', write .v3 mixedCircuit = .ok text ∧ parse text = .ok c' ∧ c'.qubits = 2 ∧
        c'.clbits = 1 ∧ List.Forall₂ SameNumeric mixedCircuit.instructions c'.instructions ∧
        Version.detect? text = some .v3 :=
  ⟨by simp [mixedCircuit], expressible_mixedCircuit,
    exists_parse_write (by decide) (by decide) expressible_mixedCircuit⟩

end Qasm

end Interchange
