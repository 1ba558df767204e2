import PulseSequencer.Proofs.Assembly.Matching
import PulseSequencer.Proofs.Assembly.Numbering
import PulseSequencer.Proofs.Assembly.Renaming
import PulseSequencer.Proofs.Assembly.Reports
import PulseSequencer.Proofs.Text.Spelling

/-!
# Labels are names of addresses

An operand that is the label of a word stands for its address, and every other operand is a number; so
it does not matter what the labels are called.  There is one exception: an operand that is left out is
read as if `0` were written, and that may be a label.

* `lookup_labelsOf`, `Value`: the value of an operand, given the labels in their order.
* `Value.respell`, `value_zero_iff`: renaming keeps the value of an operand that is written, and that of
  one that is left out if the word labelled `0` stays the same.
* `Accepted`: what an accepted text went through; `Accepted.entry` puts its words and statements side by
  side, and `Accepted.means` says what their operands mean.
* `Counterpart`, `Accepted.rename`: the renamed text goes through the same.
* `labels_are_names`: all together.
-/

namespace PulseSequencer

/-- The word with its label renamed. -/
def Instruction.relabel (ρ : String → String) (i : Instruction) : Instruction :=
  { i with label := i.label.map ρ }

/-- The labels of the words in their order. -/
def Sequence.labels (s : Sequence) : List (Option String) :=
  s.program.toList.map Instruction.label

/-- The sequence with its labels renamed. -/
def Sequence.relabel (ρ : String → String) (s : Sequence) : Sequence :=
  { s with program := s.program.map (Instruction.relabel ρ) }

namespace Assembly

/-! ### The value of an operand -/

/-- The labels from an address on: the induction is over the lines, at any address. -/
theorem lookup_labels_from (lines : List Line) (text : String) (k : Nat) :
    ((lines.zipIdx k).filterMap fun (line, address) => line.label.map (·, address)).lookup text =
      ((lines.map Line.label).idxOf? (some text)).map (· + k) := by
  induction lines generalizing k with
  | nil => rfl
  | cons line lines ih =>
    have hnext : ∀ o : Option Nat, o.map (· + (k + 1)) = (o.map (· + 1)).map (· + k) := by
      intro o
      rw [Option.map_map]
      congr 1
      funext j
      simp only [Function.comp_apply]
      omega
    rw [List.zipIdx_cons, List.map_cons, List.idxOf?_cons]
    cases hlabel : line.label with
    | none =>
      rw [List.filterMap_cons_none (by simp [hlabel]), ih, hnext]
      rfl
    | some name =>
      rw [List.filterMap_cons_some (b := (name, k)) (by simp [hlabel]), List.lookup_cons, ih, hnext]
      by_cases hname : name = text
      · subst hname
        simp
      · have hbeq : (text == name) = false := by simpa using fun h => hname h.symm
        simp [hbeq, hname]

theorem lookup_labelsOf (lines : List Line) (text : String) :
    (labelsOf lines).lookup text = (lines.map Line.label).idxOf? (some text) := by
  simpa [labelsOf] using lookup_labels_from lines text 0

/-- The value of an operand under the labels of the words. -/
def Value (labels : List (Option String)) (text : String) (z : Int) : Prop :=
  (∃ j, labels.idxOf? (some text) = some j ∧ z = j) ∨
    (some text ∉ labels ∧ Text.readInt text.toList = .ok z)

theorem resolve_labelsOf {lines : List Line} {text : String} {z : Int} :
    Operand.resolve (labelsOf lines) (.written text) = .ok z ↔
      Value (lines.map Line.label) text z := by
  rw [Operand.resolve, lookup_labelsOf, Value, ← List.idxOf?_eq_none_iff]
  cases (lines.map Line.label).idxOf? (some text) with
  | some j => simp [eq_comm]
  | none =>
    cases Text.readInt text.toList <;> simp

/-- The address that an operand comes to when it is left out: 0, or that of the word labelled `0`. -/
def zeroAddress (labels : List (Option String)) : Nat :=
  (labels.idxOf? (some "0")).getD 0

theorem value_zero_iff {labels : List (Option String)} {z : Int} :
    Value labels "0" z ↔ z = zeroAddress labels := by
  have hread : Text.readInt "0".toList = .ok 0 := rfl
  rw [Value, hread, ← List.idxOf?_eq_none_iff, zeroAddress]
  cases labels.idxOf? (some "0") with
  | some j => simp
  | none => simp [eq_comm]

/-! ### Labels renamed -/

section Renaming

variable {ρ : String → String} {labels : List (Option String)}

theorem idxOf?_map {text : String} (hinj : ∀ l, some l ∈ labels → ρ l = ρ text → l = text) :
    (labels.map (Option.map ρ)).idxOf? (some (ρ text)) = labels.idxOf? (some text) := by
  induction labels with
  | nil => rfl
  | cons label labels ih =>
    have ih := ih fun l hl => hinj l (List.mem_cons_of_mem label hl)
    rw [List.map_cons, List.idxOf?_cons, List.idxOf?_cons, ih]
    cases label with
    | none => rfl
    | some l =>
      by_cases hl : l = text
      · simp [hl]
      · have hne : ρ l ≠ ρ text := fun h => hl (hinj l List.mem_cons_self h)
        simp [hl, hne]

/-- Renaming keeps the value of an operand: a label has the same place under its new name, and what is
no label must not become one. -/
theorem Value.respell {text : String} {z : Int} (h : Value labels text z)
    (hinj : ∀ l l', some l ∈ labels → some l' ∈ labels → ρ l = ρ l' → l = l')
    (hfresh : some text ∉ labels → ∀ l, some l ∈ labels → ρ l ≠ text) :
    Value (labels.map (Option.map ρ)) (respell ρ labels text) z := by
  rcases h with ⟨j, hj, hz⟩ | ⟨hnot, hread⟩
  · have hmem : some text ∈ labels := by
      by_contra hnot
      rw [List.idxOf?_eq_none_iff.mpr hnot] at hj
      cases hj
    left
    rw [Assembly.respell, if_pos hmem, idxOf?_map fun l hl => hinj l text hl hmem]
    exact ⟨j, hj, hz⟩
  · right
    rw [Assembly.respell, if_neg hnot]
    refine ⟨fun hmem => ?_, hread⟩
    obtain ⟨label, hlabel, heq⟩ := List.mem_map.mp hmem
    obtain ⟨l, rfl, hl⟩ := Option.map_eq_some_iff.mp heq
    exact hfresh hnot l hlabel hl

end Renaming

/-! ### Accepted texts -/

/-- What an accepted text went through: its lines as they were read, then with the loops matched. -/
structure Accepted (source : String) (channels : Nat) (limits : Limits) (s : Sequence)
    (parsed lines : List Line) : Prop where
  count : checkChannelCount channels = .ok ()
  channels_eq : s.channels = channels
  read : ReadAs channels (statements source.toList) parsed
  distinct : DistinctLabels parsed
  loops : matchLoops parsed = .ok lines
  words : lines.mapM (Line.instruction (labelsOf lines)) = .ok s.program.toList
  run : Timeline.unroll s.program limits = .ok s.timeline

section Accepted

variable {source : String} {channels : Nat} {limits : Limits} {s : Sequence} {parsed lines : List Line}

theorem exists_accepted (h : assemble source channels limits = .ok s) :
    ∃ parsed lines, Accepted source channels limits s parsed lines := by
  obtain ⟨parsed, lines, program, hparse, hloops, hwords, hprogram⟩ := assemble_eq_ok h
  obtain ⟨hcount, -, t, hrun, rfl⟩ := ofProgram_eq_ok_iff.mp hprogram
  obtain ⟨hdistinct, _, rfl, hread⟩ := readAs_of_parseLinesFrom hparse .nil
  exact ⟨_, lines, hcount, rfl, hread, hdistinct, hloops, hwords, hrun⟩

variable (h : Accepted source channels limits s parsed lines)

include h

theorem Accepted.assemble_eq : assemble source channels limits = .ok s := by
  have hparse : parseLines channels source.toList = .ok parsed :=
    parseLinesFrom_of_readAs h.read h.distinct
  rw [assemble_of_stages h.count hparse h.read.fits h.loops h.words]
  simp only [h.run]
  cases s
  cases h.channels_eq
  rfl

theorem Accepted.labels_eq : s.labels = parsed.map Line.label := by
  have hwords : s.labels = lines.map Line.label := by
    refine map_eq_map_of_forall₂ (forall₂_of_mapM h.words) fun line i hi => ?_
    obtain ⟨z, -, rfl⟩ := instruction_eq_ok_iff.mp hi
    rfl
  rw [hwords, map_of_matchLoops (fun _ _ _ => rfl) h.loops]

/-- There is one word for each statement. -/
theorem Accepted.length_eq : (statements source.toList).length = s.program.size := by
  have hloops : lines.length = parsed.length := by
    simpa using congrArg List.length (matched_of_matchLoops h.loops).2
  rw [h.read.length_eq, ← hloops, (forall₂_of_mapM h.words).length_eq, Array.length_toList]

/-- The statement and the line of a word, and what the operand of the line has to do with it. -/
theorem Accepted.entry {a : Nat} {i : Instruction} (hi : s.program[a]? = some i) :
    ∃ st line, (statements source.toList)[a]? = some st ∧ parsed[a]? = some line ∧
      parseStatement channels st = .ok line ∧ i.opcode = line.opcode ∧
      (line.opcode ≠ .endLoop → line.operand.resolve (labelsOf lines) = .ok i.operand) := by
  rw [← Array.getElem?_toList] at hi
  obtain ⟨matched, hmatched, hword⟩ := exists_getElem?_left (forall₂_of_mapM h.words) hi
  have hopcodes := congrArg (·[a]?) (matched_of_matchLoops h.loops).2
  simp only [List.getElem?_map, hmatched, Option.map_some] at hopcodes
  obtain ⟨line, hline, hopcode⟩ := Option.map_eq_some_iff.mp hopcodes.symm
  obtain ⟨st, hst, hread⟩ := exists_getElem?_left h.read hline
  refine ⟨st, line, hst, hline, hread, (opcode_of_instruction hword).trans hopcode.symm, ?_⟩
  intro hend
  obtain rfl : matched = line :=
    Option.some.inj (hmatched.symm.trans (getElem?_of_ne_endLoop h.loops hline hend))
  obtain ⟨z, hz, rfl⟩ := instruction_eq_ok_iff.mp hword
  exact hz

end Accepted

/-- The word at an address ends no loop, and this is its operand as it stands in the text. -/
structure WrittenWith (source : String) (s : Sequence) (a : Nat) (i : Instruction)
    (field : Option String) : Prop where
  statement : (statements source.toList)[a]?.map Statement.operand? = some field
  word : s.program[a]? = some i
  opcode : i.opcode ≠ .endLoop

/-- What an operand means under the labels of the words: the address of the label that it is, the
integer that it spells or, left out, 0 or the address of the word labelled `0`. -/
structure Means (labels : List (Option String)) (field : Option String) (z : Int) : Prop where
  label : ∀ text (j : Nat), field = some text → labels[j]? = some (some text) → z = j
  number : ∀ text, field = some text → some text ∉ labels →
    Text.SpellsInt text.toList z ∧ -2 ^ 63 ≤ z ∧ z < 2 ^ 63
  omitted : field = none → z = zeroAddress labels

section Operands

variable {source : String} {channels : Nat} {limits : Limits} {s : Sequence} {parsed lines : List Line}
  {a : Nat} {i : Instruction} {field : Option String}

theorem Accepted.exists_writtenWith (h : Accepted source channels limits s parsed lines) {k : Nat}
    {st : Statement} {line : Line}
    (hst : (statements source.toList)[k]? = some st) (hline : parsed[k]? = some line)
    (hend : line.opcode ≠ .endLoop) : ∃ i, WrittenWith source s k i st.operand? := by
  have hk : k < s.program.size := h.length_eq ▸ (List.getElem?_eq_some_iff.mp hst).1
  have hword : s.program[k]? = some s.program[k] := Array.getElem?_eq_getElem hk
  obtain ⟨-, line', -, hline', -, hopcode, -⟩ := h.entry hword
  obtain rfl : line = line' := Option.some.inj (hline.symm.trans hline')
  exact ⟨s.program[k], by rw [hst]; rfl, hword, hopcode ▸ hend⟩

theorem Accepted.value (h : Accepted source channels limits s parsed lines)
    (hwritten : WrittenWith source s a i field) : Value s.labels (field.getD "0") i.operand := by
  obtain ⟨st, line, hst, -, hread, hopcode, hresolve⟩ := h.entry hwritten.word
  have hfield : st.operand? = field := by simpa [hst] using hwritten.statement
  have hvalue := hresolve (hopcode ▸ hwritten.opcode)
  rw [operand_of_parseStatement hread, hfield, resolve_labelsOf,
    map_of_matchLoops (fun _ _ _ => rfl) h.loops] at hvalue
  rwa [h.labels_eq]

/-- Where no label stands twice, a label is at one address. -/
theorem idxOf?_of_distinct (hdistinct : DistinctLabels parsed) {text : String} {j : Nat}
    (hj : (parsed.map Line.label)[j]? = some (some text)) :
    (parsed.map Line.label).idxOf? (some text) = some j := by
  obtain ⟨hlt, heq⟩ := List.getElem?_eq_some_iff.mp hj
  refine List.idxOf?_eq_some_iff.mpr ⟨hlt, heq, fun k hk hsame => ?_⟩
  rw [List.getElem_map] at heq hsame
  exact List.pairwise_iff_getElem.mp hdistinct k j _ _ hk text heq hsame

theorem Accepted.means (h : Accepted source channels limits s parsed lines)
    (hwritten : WrittenWith source s a i field) : Means s.labels field i.operand where
  label := by
    rintro text j rfl hj
    have hvalue := h.value hwritten
    rw [h.labels_eq] at hj
    rw [h.labels_eq, Option.getD_some, Value, idxOf?_of_distinct h.distinct hj] at hvalue
    rcases hvalue with ⟨j', hj', hz⟩ | ⟨hnot, -⟩
    · rw [hz, Option.some.inj hj']
    · exact absurd (List.mem_of_getElem? hj) hnot
  number := by
    rintro text rfl hnot
    rcases h.value hwritten with ⟨j, hj, -⟩ | ⟨-, hread⟩
    · rw [Option.getD_some, List.idxOf?_eq_none_iff.mpr hnot] at hj
      cases hj
    · exact Text.readInt_eq_ok_iff.mp hread
  omitted := by
    rintro rfl
    exact value_zero_iff.mp (h.value hwritten)

end Operands

/-! ### Renamed texts -/

/-- A renaming of the labels of an accepted text: different labels get different names, and none of them
the name of an operand that is no label. -/
structure Renaming (ρ : String → String) (source : String) (s : Sequence) : Prop where
  names : ∀ l, some l ∈ s.labels → LabelName (ρ l).toList
  injective : ∀ l l', some l ∈ s.labels → some l' ∈ s.labels → ρ l = ρ l' → l = l'
  fresh : ∀ a i text, WrittenWith source s a i (some text) → some text ∉ s.labels →
    ∀ l, some l ∈ s.labels → ρ l ≠ text

/-- If an operand is left out at all, the renaming does not change what it comes to. -/
def KeepsZero (ρ : String → String) (source : String) (s : Sequence) : Prop :=
  (∃ a i, WrittenWith source s a i none) → zeroAddress (s.relabel ρ).labels = zeroAddress s.labels

theorem labels_relabel (ρ : String → String) (s : Sequence) :
    (s.relabel ρ).labels = s.labels.map (Option.map ρ) := by
  simp [Sequence.labels, Sequence.relabel, Instruction.relabel, Function.comp_def]

/-- The second line is the first one with its label renamed, and its operand comes to the same.  The
operand of a loop's end counts only once it is an address. -/
structure Counterpart (ρ : String → String) (labels labels' : List (String × Nat))
    (line line' : Line) : Prop where
  number : line'.number = line.number
  label : line'.label = line.label.map ρ
  flags : line'.flags = line.flags
  duration : line'.duration = line.duration
  opcode : line'.opcode = line.opcode
  operand : (line.opcode = .endLoop → ∃ a, line.operand = .address a) →
    ∀ z, line.operand.resolve labels = .ok z → line'.operand.resolve labels' = .ok z

section Counterpart

variable {ρ : String → String} {labels labels' : List (String × Nat)} {line line' : Line}

theorem alike_counterpart (ρ : String → String) (labels labels' : List (String × Nat)) :
    Alike id (Counterpart ρ labels labels') where
  number := fun _ _ h => h.number
  opcode := fun _ _ h => h.opcode
  operand := fun _ _ _ h _ => { h with operand := fun _ _ hz => hz }

theorem Counterpart.instruction (h : Counterpart ρ labels labels' line line') {i : Instruction}
    (hend : line.opcode = .endLoop → ∃ a, line.operand = .address a)
    (hi : line.instruction labels = .ok i) : line'.instruction labels' = .ok (i.relabel ρ) := by
  obtain ⟨z, hz, rfl⟩ := instruction_eq_ok_iff.mp hi
  refine instruction_eq_ok_iff.mpr ⟨z, h.operand hend z hz, ?_⟩
  rw [h.label, h.flags, h.duration, h.opcode]
  rfl

/-- Word by word, once the ends of loops have their addresses. -/
theorem mapM_of_counterpart {lines lines' : List Line} {program : List Instruction}
    (hlines : List.Forall₂ (Counterpart ρ labels labels') lines lines')
    (hends : ∀ line ∈ lines, line.opcode = .endLoop → ∃ a, line.operand = .address a)
    (hwords : lines.mapM (Line.instruction labels) = .ok program) :
    lines'.mapM (Line.instruction labels') = .ok (program.map (Instruction.relabel ρ)) := by
  rw [mapM_eq_ok_iff] at hwords ⊢
  induction hlines generalizing program with
  | nil =>
    cases hwords
    exact .nil
  | @cons line line' lines lines' hline _ ih =>
    cases hwords with
    | cons hword hwords =>
      refine .cons (hline.instruction (hends line List.mem_cons_self) hword) ?_
      exact ih (fun l hl => hends l (List.mem_cons_of_mem line hl)) hwords

end Counterpart

/-- A word of the renamed text is written with the renamed operand. -/
theorem WrittenWith.rename {ρ : String → String} {source : String} {channels : Nat} {s : Sequence}
    {a : Nat} {i : Instruction} {field : Option String} (h : WrittenWith source s a i field)
    (hrenamed : List.Forall₂ (Renamed ρ s.labels channels) (statements source.toList)
      (statements (rename ρ s.labels source).toList)) :
    WrittenWith (rename ρ s.labels source) (s.relabel ρ) a (i.relabel ρ)
      (field.map (respell ρ s.labels)) where
  statement := by
    obtain ⟨st, hst, hfield⟩ := Option.map_eq_some_iff.mp h.statement
    obtain ⟨st', hst', hoperand⟩ := exists_getElem?_right hrenamed hst
    rw [hst', Option.map_some, hoperand.operand, hfield]
  word := by simp [Sequence.relabel, h.word]
  opcode := h.opcode

section Rename

variable {ρ : String → String} {source : String} {channels : Nat} {limits : Limits} {s : Sequence}
  {parsed lines : List Line} (h : Accepted source channels limits s parsed lines)
  (hρ : Renaming ρ source s)

include h hρ

theorem Accepted.renamed :
    List.Forall₂ (Renamed ρ s.labels channels) (statements source.toList)
      (statements (rename ρ s.labels source).toList) := by
  refine renamed_statements hρ.names fun st hst => ?_
  obtain ⟨line, hline, hread⟩ := exists_right_of_mem h.read hst
  refine ⟨line, hread, fun name hname => ?_⟩
  rw [h.labels_eq, ← Option.mem_def.mp hname]
  exact List.mem_map_of_mem hline

theorem Accepted.distinct_rename :
    DistinctLabels (renamedLines ρ s.labels (statements source.toList) parsed) := by
  have hdistinct : s.labels.Pairwise fun a b => ∀ label, b = some label → a ≠ some label := by
    rw [h.labels_eq]
    exact List.pairwise_map.mpr h.distinct
  have hrenamed : (s.labels.map (Option.map ρ)).Pairwise fun a b =>
      ∀ label, b = some label → a ≠ some label := by
    refine List.pairwise_map.mpr (hdistinct.imp_of_mem ?_)
    intro a b ha hb hne label hlabel hsame
    obtain ⟨l, rfl, hl⟩ := Option.map_eq_some_iff.mp hlabel
    obtain ⟨l', rfl, hl'⟩ := Option.map_eq_some_iff.mp hsame
    exact hne l rfl (congrArg some (hρ.injective l' l ha hb (hl'.trans hl.symm)))
  rw [h.labels_eq, ← map_label_renamedLines h.read] at hrenamed
  exact List.pairwise_map.mp hrenamed

/-- The value of an operand is that of the renamed one. -/
theorem Accepted.value_rename {k : Nat} {st : Statement} {line : Line}
    (hst : (statements source.toList)[k]? = some st) (hline : parsed[k]? = some line)
    (hend : line.opcode ≠ .endLoop) (hzero : KeepsZero ρ source s) {z : Int}
    (hz : Value s.labels (st.operand?.getD "0") z) :
    Value (s.relabel ρ).labels ((st.operand?.map (respell ρ s.labels)).getD "0") z := by
  obtain ⟨i, hwritten⟩ := h.exists_writtenWith hst hline hend
  cases hfield : st.operand? with
  | none =>
    rw [hfield] at hwritten hz
    have hsame := hzero ⟨k, i, hwritten⟩
    exact value_zero_iff.mpr (hsame ▸ value_zero_iff.mp hz)
  | some text =>
    rw [hfield] at hwritten hz
    rw [labels_relabel]
    exact hz.respell hρ.injective (hρ.fresh k i text hwritten)

theorem Accepted.counterpart_rename (hzero : KeepsZero ρ source s) :
    List.Forall₂ (Counterpart ρ (labelsOf parsed)
      (labelsOf (renamedLines ρ s.labels (statements source.toList) parsed))) parsed
      (renamedLines ρ s.labels (statements source.toList) parsed) := by
  have hlabels : (renamedLines ρ s.labels (statements source.toList) parsed).map Line.label =
      (s.relabel ρ).labels := by
    rw [map_label_renamedLines h.read, labels_relabel, h.labels_eq]
  refine List.forall₂_iff_get.mpr ⟨by simp [renamedLines, h.read.length_eq], fun k hk hk' => ?_⟩
  have hst : k < (statements source.toList).length := by rwa [h.read.length_eq]
  have hline : (renamedLines ρ s.labels (statements source.toList) parsed).get ⟨k, hk'⟩ =
      (parsed.get ⟨k, hk⟩).relabel ρ
        (((statements source.toList).get ⟨k, hst⟩).operand?.map (respell ρ s.labels)) := by
    simp [renamedLines]
  rw [hline]
  refine ⟨rfl, rfl, rfl, rfl, rfl, fun hend z hz => ?_⟩
  have hoperand := operand_of_parseStatement (h.read.get hst hk)
  -- a line as it is read has its operand in writing
  have hopcode : (parsed.get ⟨k, hk⟩).opcode ≠ .endLoop := by
    intro hop
    obtain ⟨a, ha⟩ := hend hop
    cases hoperand.symm.trans ha
  rw [hoperand, resolve_labelsOf, ← h.labels_eq] at hz
  rw [Line.relabel, resolve_labelsOf, hlabels]
  exact h.value_rename hρ (List.getElem?_eq_getElem hst) (List.getElem?_eq_getElem hk) hopcode hzero hz

theorem Accepted.rename (hzero : KeepsZero ρ source s) :
    ∃ lines', Accepted (rename ρ s.labels source) channels limits (s.relabel ρ)
      (renamedLines ρ s.labels (statements source.toList) parsed) lines' := by
  have hcounterpart := h.counterpart_rename hρ hzero
  have hmatch := agree_matchLoops (alike_counterpart ρ _ _) hcounterpart
  rw [h.loops] at hmatch
  generalize hlines' : matchLoops _ = result at hmatch
  cases hmatch with
  | @ok _ lines' hlines =>
    refine ⟨lines', h.count, h.channels_eq, readAs_renamedLines (h.renamed hρ) h.read,
      h.distinct_rename hρ, hlines', ?_, ?_⟩
    · have hends : ∀ line ∈ lines, line.opcode = .endLoop → ∃ a, line.operand = .address a := by
        intro line hline hop
        obtain ⟨k, hk⟩ := List.getElem?_of_mem hline
        obtain ⟨l, hl, -⟩ := exists_matches_of_endLoop h.loops hk hop
        exact ⟨l, hl⟩
      have hwords := h.words
      rw [labelsOf_congr (map_of_matchLoops (fun _ _ _ => rfl) h.loops)] at hwords
      rw [labelsOf_congr (map_of_matchLoops (fun _ _ _ => rfl) hlines'),
        mapM_of_counterpart hlines hends hwords, Sequence.relabel, Array.toList_map]
    · have hsame : SameWords (s.relabel ρ).program s.program := by
        simp [SameWords, Sequence.relabel, bare, Instruction.relabel, Function.comp_def]
      rw [hsame.unroll_eq]
      exact h.run

end Rename

/-- **Labels are names.**  An accepted text has one word for each statement.  Unless the word ends a loop,
its operand is the address of the label that it is written as, or else the integer that it spells; left
out, it is 0, or the address of the word labelled `0` if there is one.  The labels can be renamed in any
way that keeps them apart from each other and from the other operands: the renamed text is accepted, with
nothing changed but the labels, unless an operand is left out and comes to another address by that. -/
theorem labels_are_names {source : String} {channels : Nat} {limits : Limits} {s : Sequence}
    (h : assemble source channels limits = .ok s) :
    (statements source.toList).length = s.program.size ∧
    (∀ a i field, WrittenWith source s a i field → Means s.labels field i.operand) ∧
    ∀ ρ, Renaming ρ source s →
      (assemble (rename ρ s.labels source) channels limits = .ok (s.relabel ρ) ↔
        KeepsZero ρ source s) := by
  obtain ⟨parsed, lines, haccepted⟩ := exists_accepted h
  refine ⟨haccepted.length_eq, fun a i field => haccepted.means, fun ρ hρ => ⟨?_, ?_⟩⟩
  · rintro h' ⟨a, i, hwritten⟩
    obtain ⟨parsed', lines', haccepted'⟩ := exists_accepted h'
    have hwritten' := hwritten.rename (haccepted.renamed hρ)
    have hvalue := value_zero_iff.mp (haccepted.value hwritten)
    have hvalue' := value_zero_iff.mp (haccepted'.value hwritten')
    exact_mod_cast hvalue'.symm.trans hvalue
  · intro hzero
    obtain ⟨lines', haccepted'⟩ := haccepted.rename hρ hzero
    exact haccepted'.assemble_eq

/-- A loop, and a jump back to it by its label. -/
def jumpsBack : String :=
  "0x4, 5ns\na: 0x1, 10ns, LOOP, 2 // twice\n0x0, 20ns, END_LOOP\n0x2, 30ns, BRANCH,\ta"

def jumpsBackWords : Program :=
  #[⟨none, 4, 5, .cont, 0⟩, ⟨some "a", 1, 10, .loop, 2⟩, ⟨none, 0, 20, .endLoop, 1⟩,
    ⟨none, 2, 30, .branch, 1⟩]

theorem labels_are_names_jumpsBack :
    ∃ s, assemble jumpsBack 24 {} = .ok s ∧ s.program = jumpsBackWords ∧
      Renaming (fun _ => "top") jumpsBack s ∧
      assemble
        "0x4, 5ns\ntop: 0x1, 10ns, LOOP, 2 // twice\n0x0, 20ns, END_LOOP\n0x2, 30ns, BRANCH,\ttop"
        24 {} = .ok (s.relabel fun _ => "top") := by
  have hparse : parseLines 24 jumpsBack.toList =
      .ok [⟨1, none, 4, 5, .cont, .written "0"⟩, ⟨2, some "a", 1, 10, .loop, .written "2"⟩,
        ⟨3, none, 0, 20, .endLoop, .written "0"⟩, ⟨4, none, 2, 30, .branch, .written "a"⟩] := rfl
  have hassemble : assemble jumpsBack 24 {} = Sequence.ofProgram jumpsBackWords 24 {} := by
    unfold assemble
    rw [hparse]
    rfl
  obtain ⟨s, hs, hwords⟩ : ∃ s, assemble jumpsBack 24 {} = .ok s ∧ s.program = jumpsBackWords :=
    ⟨_, hassemble.trans rfl, rfl⟩
  have hlabels : s.labels = [none, some "a", none, none] := by
    rw [Sequence.labels, hwords]
    rfl
  have hlabel : ∀ l, some l ∈ s.labels → l = "a" := by simp [hlabels]
  have hfields : (statements jumpsBack.toList).map Statement.operand? =
      [none, some "2", none, some "a"] := rfl
  have hrenaming : Renaming (fun _ => "top") jumpsBack s := by
    refine ⟨fun _ _ => ⟨by decide, by decide⟩, fun l l' hl hl' _ => ?_, fun a i text hwritten _ l _ => ?_⟩
    · rw [hlabel l hl, hlabel l' hl']
    · have hmem := hwritten.statement
      rw [← List.getElem?_map, hfields] at hmem
      have htext : text = "2" ∨ text = "a" := by simpa using List.mem_of_getElem? hmem
      rcases htext with rfl | rfl <;> decide
  refine ⟨s, hs, hwords, hrenaming, ?_⟩
  have hrename : rename (fun _ => "top") s.labels jumpsBack =
      "0x4, 5ns\ntop: 0x1, 10ns, LOOP, 2 // twice\n0x0, 20ns, END_LOOP\n0x2, 30ns, BRANCH,\ttop" := by
    rw [hlabels]
    rfl
  rw [← hrename, ((labels_are_names hs).2.2 _ hrenaming).mpr]
  intro _
  rw [labels_relabel, hlabels]
  rfl

/-- A word with the label `0`, and none with an operand. -/
def labelledZero : String :=
  "0x1, 10ns\n0x2, 10ns\n0: 0x0, 10ns, BRANCH"

/-- The operands are left out and are not 0. -/
theorem labelledZero_operands :
    ∃ s, assemble labelledZero 24 {} = .ok s ∧
      ∃ i, WrittenWith labelledZero s 0 i none ∧ i.operand = 2 := by
  have hparse : parseLines 24 labelledZero.toList =
      .ok [⟨1, none, 1, 10, .cont, .written "0"⟩, ⟨2, none, 2, 10, .cont, .written "0"⟩,
        ⟨3, some "0", 0, 10, .branch, .written "0"⟩] := rfl
  have hassemble : assemble labelledZero 24 {} = Sequence.ofProgram
      #[⟨none, 1, 10, .cont, 2⟩, ⟨none, 2, 10, .cont, 2⟩, ⟨some "0", 0, 10, .branch, 2⟩] 24 {} := by
    unfold assemble
    rw [hparse]
    rfl
  exact ⟨_, hassemble.trans rfl, ⟨none, 1, 10, .cont, 2⟩, ⟨rfl, rfl, by decide⟩, rfl⟩

end Assembly

end PulseSequencer
