import PulseSequencer.Assembly.Program
import PulseSequencer.Proofs.Assembly.Reading
import PulseSequencer.Proofs.Machine.Path

/-!
# Where a text is at fault

A text can fail when its lines are read, when its loops are matched, when its operands are resolved and
when the program is run.  Each of these stages has positions of its own; the error names a line of the
text, unless no line says anything or there are no stacks for the run.

* `matchLoopsFrom_eq_error`, `map_of_matchLoopsFrom`: matching loops fails at a line it was given, and
  changes nothing but operands.
* `assemble_of_parsed`: after reading, no stage leaves the lines that were read but the run, which needs
  stacks.
* `error_names_line`: all stages together.
-/

namespace PulseSequencer.Assembly

/-! ### Matching and resolving -/

/-- Matching fails at a loop that is open or at one of the lines. -/
theorem matchLoopsFrom_eq_error {opened : List OpenLoop} {done lines : List Line} {address : Nat}
    {e : CompileError} (h : matchLoopsFrom opened done address lines = .error e) :
    ∃ n fault, e = .parse n fault ∧ (n ∈ opened.map OpenLoop.line ∨ n ∈ lines.map Line.number) := by
  induction lines generalizing opened done address with
  | nil =>
    unfold matchLoopsFrom at h
    split at h
    · cases h
    · cases h
      exact ⟨_, _, rfl, .inl (by simp)⟩
  | cons line lines ih =>
    unfold matchLoopsFrom at h
    split at h
    · obtain ⟨n, fault, rfl, hn⟩ := ih h
      refine ⟨n, fault, rfl, ?_⟩
      -- the loop that was opened here is at this line
      simp only [List.map_cons, List.mem_cons] at hn ⊢
      tauto
    · cases h
      exact ⟨_, _, rfl, .inr (by simp)⟩
    · obtain ⟨n, fault, rfl, hn⟩ := ih h
      refine ⟨n, fault, rfl, ?_⟩
      simp only [List.map_cons, List.mem_cons]
      tauto
    · obtain ⟨n, fault, rfl, hn⟩ := ih h
      refine ⟨n, fault, rfl, ?_⟩
      simp only [List.map_cons, List.mem_cons]
      tauto

/-- Matching changes nothing but the operands of the ends of loops. -/
theorem map_of_matchLoopsFrom {α : Type} (f : Line → α)
    (hf : ∀ line operand, line.opcode = .endLoop → f { line with operand } = f line) {opened : List OpenLoop}
    {done lines out : List Line} {address : Nat}
    (h : matchLoopsFrom opened done address lines = .ok out) :
    out.map f = (done.reverse ++ lines).map f := by
  induction lines generalizing opened done address with
  | nil =>
    unfold matchLoopsFrom at h
    split at h
    · cases h
      simp
    · cases h
  | cons line lines ih =>
    unfold matchLoopsFrom at h
    split at h
    · simpa using ih h
    · cases h
    · next hend => simpa [hf line _ hend] using ih h
    · simpa using ih h

theorem map_of_matchLoops {α : Type} {f : Line → α}
    (hf : ∀ line operand, line.opcode = .endLoop → f { line with operand } = f line) {lines out : List Line}
    (h : matchLoops lines = .ok out) : out.map f = lines.map f := by
  simpa using map_of_matchLoopsFrom f hf h

theorem instruction_eq_error {labels : List (String × Nat)} {line : Line} {e : CompileError}
    (h : line.instruction labels = .error e) : ∃ fault, e = .parse line.number fault := by
  unfold Line.instruction at h
  split at h
  · cases h
    exact ⟨_, rfl⟩
  · cases h

theorem flags_of_instruction {labels : List (String × Nat)} {line : Line} {i : Instruction}
    (h : line.instruction labels = .ok i) : i.flags = line.flags := by
  unfold Line.instruction at h
  split at h <;> cases h
  rfl

/-! ### The lines that were read -/

theorem ReadAs.numbers {channels : Nat} {sts : List Statement} {lines : List Line}
    (h : ReadAs channels sts lines) : lines.map Line.number = sts.map Statement.line := by
  induction h with
  | nil => rfl
  | cons hread _ ih => rw [List.map_cons, List.map_cons, ih, (parseStatement_eq_ok hread).1]

theorem ReadAs.fits {channels : Nat} {sts : List Statement} {lines : List Line}
    (h : ReadAs channels sts lines) : ∀ flags ∈ lines.map Line.flags, flags.fits channels = true := by
  intro flags hflags
  obtain ⟨line, hline, rfl⟩ := List.mem_map.mp hflags
  obtain ⟨st, -, hread⟩ := exists_left_of_mem h hline
  exact (parseStatement_eq_ok hread).2

section Stages

variable {channels : Nat} {limits : Limits} {source : String} {parsed lines : List Line}
  {program : List Instruction}

theorem checkChannelCount_of_le (hpos : 1 ≤ channels) (hmax : channels ≤ 64) :
    checkChannelCount channels = .ok () := by
  unfold checkChannelCount maxChannels
  rw [if_neg (by omega)]

/-- Words made of lines within the channels are within the channels. -/
theorem fits_of_stages (hfits : ∀ flags ∈ parsed.map Line.flags, flags.fits channels = true)
    (hloops : matchLoops parsed = .ok lines) {labels : List (String × Nat)}
    (hwords : lines.mapM (Line.instruction labels) = .ok program) :
    ∀ i ∈ program, i.flags.fits channels = true := by
  intro i hi
  obtain ⟨line, hline, hinstruction⟩ := exists_of_mem_mapM hwords hi
  rw [flags_of_instruction hinstruction]
  apply hfits
  rw [← map_of_matchLoops (f := Line.flags) (fun _ _ _ => rfl) hloops]
  exact List.mem_map_of_mem hline

theorem assemble_eq_of_parsed (hcount : checkChannelCount channels = .ok ())
    (hparse : parseLines channels source.toList = .ok parsed) :
    assemble source channels limits = (do
      let lines ← matchLoops parsed
      let program ← lines.mapM (Line.instruction (labelsOf lines))
      (Sequence.ofProgram program.toArray channels limits).mapError (locate lines)) := by
  unfold assemble
  rw [hcount, hparse]
  rfl

theorem length_of_stages (hloops : matchLoops parsed = .ok lines) {labels : List (String × Nat)}
    (hwords : lines.mapM (Line.instruction labels) = .ok program) :
    lines.length = parsed.length ∧ program.length = parsed.length := by
  have hlines : lines.length = parsed.length := by
    simpa using congrArg List.length
      (map_of_matchLoops (f := Line.number) (fun _ _ _ => rfl) hloops)
  exact ⟨hlines, (forall₂_of_mapM hwords).length_eq.symm.trans hlines⟩

/-- If the lines are read, the loops match and the operands resolve, all that is left is the run. -/
theorem assemble_of_stages (hcount : checkChannelCount channels = .ok ())
    (hparse : parseLines channels source.toList = .ok parsed)
    (hfits : ∀ flags ∈ parsed.map Line.flags, flags.fits channels = true)
    (hloops : matchLoops parsed = .ok lines)
    (hwords : lines.mapM (Line.instruction (labelsOf lines)) = .ok program) :
    assemble source channels limits =
      match Timeline.unroll program.toArray limits with
      | .error e => .error (locate lines e)
      | .ok t => .ok ⟨program.toArray, channels, t⟩ := by
  rw [assemble_eq_of_parsed hcount hparse, hloops]
  simp only [bind, Except.bind]
  rw [hwords]
  simp only
  rw [ofProgram_of_fits hcount (by simpa using fits_of_stages hfits hloops hwords)]
  cases Timeline.unroll program.toArray limits <;> rfl

section Words

variable (hcount : checkChannelCount channels = .ok ())
  (hparse : parseLines channels source.toList = .ok parsed)
  (hread : ReadAs channels (statements source.toList) parsed) (hloops : matchLoops parsed = .ok lines)
  (hwords : lines.mapM (Line.instruction (labelsOf lines)) = .ok program) (hne : program ≠ [])

include hcount hparse hread hloops hwords hne

/-- A run that fails is reported at the line of the word at fault. -/
theorem assemble_of_unroll_error {a : Nat} {fault : FlowFault}
    (hunroll : Timeline.unroll program.toArray limits = .error (.controlFlow a fault)) :
    ∃ st line, (statements source.toList)[a]? = some st ∧ parsed[a]? = some line ∧
      parseStatement channels st = .ok line ∧
      assemble source channels limits = .error (.parse st.line (.flow fault)) := by
  have hnumbers : lines.map Line.number = parsed.map Line.number :=
    map_of_matchLoops (fun _ _ _ => rfl) hloops
  have hsize : 0 < program.toArray.size := List.length_pos_iff.mpr hne
  have hlt : a < parsed.length := by
    rw [← (length_of_stages hloops hwords).2]
    exact lt_size_of_unroll_error hsize hunroll
  have hlt' : a < (statements source.toList).length := by
    rw [hread.length_eq]
    exact hlt
  have hline := hread.get hlt' hlt
  refine ⟨_, _, List.getElem?_eq_getElem hlt', List.getElem?_eq_getElem hlt, hline, ?_⟩
  -- matching keeps the numbers, so the line that is found at the address has that of the statement
  have hnumber : (lines.map Line.number)[a]? = some (statements source.toList)[a].line := by
    rw [hnumbers, hread.numbers, List.getElem?_map, List.getElem?_eq_getElem hlt']
    rfl
  rw [List.getElem?_map] at hnumber
  obtain ⟨found, hfound, hsame⟩ := Option.map_eq_some_iff.mp hnumber
  rw [assemble_of_stages hcount hparse hread.fits hloops hwords, hunroll]
  simp only [locate, hfound, hsame]

/-- Without stacks to be had a program with words is not run. -/
theorem assemble_of_depth (hdepth : stackLimit ≤ limits.maxDepth) :
    assemble source channels limits = .error (.capacity limits.maxDepth) := by
  have hsize : 0 < program.toArray.size := List.length_pos_iff.mpr hne
  rw [assemble_of_stages hcount hparse hread.fits hloops hwords, unroll_of_depth hsize hdepth]
  rfl

/-- A program with words is run, or fails at the line of a word, or lacks stacks. -/
theorem assemble_of_words (limits : Limits) :
    (∃ s, assemble source channels limits = .ok s) ∨
    (∃ st ∈ statements source.toList, ∃ fault,
      assemble source channels limits = .error (.parse st.line fault)) ∨
    stackLimit ≤ limits.maxDepth ∧
      assemble source channels limits = .error (.capacity limits.maxDepth) := by
  rcases Nat.lt_or_ge limits.maxDepth stackLimit with hdepth | hdepth
  · cases hunroll : Timeline.unroll program.toArray limits with
    | error e =>
      obtain ⟨a, fault, rfl⟩ := exists_controlFlow_of_unroll hdepth hunroll
      obtain ⟨st, line, hst, -, -, hresult⟩ :=
        assemble_of_unroll_error hcount hparse hread hloops hwords hne hunroll
      exact .inr (.inl ⟨st, List.mem_of_getElem? hst, _, hresult⟩)
    | ok t =>
      refine .inl ⟨⟨program.toArray, channels, t⟩, ?_⟩
      rw [assemble_of_stages hcount hparse hread.fits hloops hwords, hunroll]
  · exact .inr (.inr ⟨hdepth, assemble_of_depth hcount hparse hread hloops hwords hne hdepth⟩)

end Words

/-- What makes a line unreadable is what the whole text is refused for. -/
theorem assemble_of_parse_error (limits : Limits) (hcount : checkChannelCount channels = .ok ())
    {e : CompileError} (hparse : parseLines channels source.toList = .error e) :
    assemble source channels limits = .error e := by
  unfold assemble
  rw [hcount, hparse]
  rfl

/-- Once the lines have been read, an error is at one of them, unless there is none or the run of the
program has no stacks. -/
theorem assemble_of_parsed (limits : Limits) (hcount : checkChannelCount channels = .ok ())
    (hparse : parseLines channels source.toList = .ok parsed)
    (hread : ReadAs channels (statements source.toList) parsed) :
    (∃ s, assemble source channels limits = .ok s) ∨
    (∃ st ∈ statements source.toList, ∃ fault,
      assemble source channels limits = .error (.parse st.line fault)) ∨
    parsed = [] ∧ assemble source channels limits = .error (.controlFlow 0 .emptyProgram) ∨
    (stackLimit ≤ limits.maxDepth ∧ ∃ lines program, matchLoops parsed = .ok lines ∧
      lines.mapM (Line.instruction (labelsOf lines)) = .ok program ∧ program ≠ []) ∧
      assemble source channels limits = .error (.capacity limits.maxDepth) := by
  have hat : ∀ n ∈ parsed.map Line.number, ∀ fault,
      assemble source channels limits = .error (.parse n fault) →
      ∃ st ∈ statements source.toList, ∃ fault,
        assemble source channels limits = .error (.parse st.line fault) := by
    intro n hn fault h
    rw [hread.numbers] at hn
    obtain ⟨st, hst, rfl⟩ := List.mem_map.mp hn
    exact ⟨st, hst, fault, h⟩
  cases hloops : matchLoops parsed with
  | error e =>
    obtain ⟨n, fault, rfl, hn⟩ := matchLoopsFrom_eq_error hloops
    refine .inr (.inl (hat n (by simpa using hn) fault ?_))
    rw [assemble_eq_of_parsed hcount hparse, hloops]
    rfl
  | ok lines =>
    have hnumbers : lines.map Line.number = parsed.map Line.number :=
      map_of_matchLoops (fun _ _ _ => rfl) hloops
    cases hwords : lines.mapM (Line.instruction (labelsOf lines)) with
    | error e =>
      obtain ⟨line, hline, hinstruction⟩ := exists_of_mapM_eq_error hwords
      obtain ⟨fault, rfl⟩ := instruction_eq_error hinstruction
      have hn : line.number ∈ parsed.map Line.number := hnumbers ▸ List.mem_map_of_mem hline
      refine .inr (.inl (hat _ hn fault ?_))
      rw [assemble_eq_of_parsed hcount hparse, hloops]
      simp only [bind, Except.bind]
      rw [hwords]
    | ok program =>
      by_cases hne : program = []
      · have hlength := (length_of_stages hloops hwords).2
        rw [hne, eq_comm, List.length_nil, List.length_eq_zero_iff] at hlength
        refine .inr (.inr (.inl ⟨hlength, ?_⟩))
        rw [assemble_of_stages hcount hparse hread.fits hloops hwords, hne]
        subst hlength
        cases hloops
        rfl
      · rcases assemble_of_words hcount hparse hread hloops hwords hne limits with h | h | ⟨hdepth, h⟩
        · exact .inl h
        · exact .inr (.inl h)
        · exact .inr (.inr (.inr ⟨⟨hdepth, lines, program, rfl, hwords, hne⟩, h⟩))

/-- Only a text without statements has an error that is at an address instead of a line. -/
theorem controlFlow_iff_of_parsed (limits : Limits) (hcount : checkChannelCount channels = .ok ())
    (hparse : parseLines channels source.toList = .ok parsed)
    (hread : ReadAs channels (statements source.toList) parsed) :
    (∃ address fault, assemble source channels limits = .error (.controlFlow address fault)) ↔
      statements source.toList = [] := by
  have hnil : parsed = [] ↔ statements source.toList = [] := by
    rw [← List.length_eq_zero_iff, ← List.length_eq_zero_iff, hread.length_eq]
  have hne : (¬ ∃ address fault,
      assemble source channels limits = .error (.controlFlow address fault)) →
      statements source.toList ≠ [] := by
    intro h hempty
    -- the run of a program without words fails
    obtain rfl := hnil.mpr hempty
    refine h ⟨0, .emptyProgram, ?_⟩
    rw [assemble_of_stages hcount hparse (by simp) rfl rfl]
    rfl
  rcases assemble_of_parsed limits hcount hparse hread with
    ⟨s, h⟩ | ⟨st, hst, fault, h⟩ | ⟨hempty, h⟩ | ⟨-, h⟩
  · simp [h, hne (by simp [h])]
  · simp [h, List.ne_nil_of_mem hst]
  · simp [h, hnil.mp hempty]
  · simp [h, hne (by simp [h])]

/-- A program of a text lacks stacks exactly if there are words to run and too many levels are allowed. -/
theorem capacity_iff_of_parsed (limits : Limits) (hcount : checkChannelCount channels = .ok ())
    (hparse : parseLines channels source.toList = .ok parsed)
    (hread : ReadAs channels (statements source.toList) parsed) :
    assemble source channels limits = .error (.capacity limits.maxDepth) ↔
      stackLimit ≤ limits.maxDepth ∧ ∃ lines program, matchLoops parsed = .ok lines ∧
        lines.mapM (Line.instruction (labelsOf lines)) = .ok program ∧ program ≠ [] := by
  constructor
  · intro h
    rcases assemble_of_parsed limits hcount hparse hread with
      ⟨s, hs⟩ | ⟨st, -, fault, hline⟩ | ⟨-, hempty⟩ | ⟨hstacks, -⟩
    · cases hs.symm.trans h
    · cases hline.symm.trans h
    · cases hempty.symm.trans h
    · exact hstacks
  · rintro ⟨hdepth, lines, program, hloops, hwords, hne⟩
    exact assemble_of_depth hcount hparse hread hloops hwords hne hdepth

end Stages

theorem parseLines_cases (channels : Nat) (source : List Char) :
    (∃ parsed, parseLines channels source = .ok parsed ∧
      ReadAs channels (statements source) parsed ∧
      ∀ n fault, ¬ Unreadable channels (statements source) n fault) ∨
    ∃ n fault, parseLines channels source = .error (.parse n fault) ∧
      Unreadable channels (statements source) n fault ∧
      ∀ m < n, ∀ fault, ¬ Unreadable channels (statements source) m fault := by
  have hstart : ReadAs channels [] [].reverse := .nil
  exact parseLinesFrom_cases (statements_increasing source) hstart (by simp)

/-- **An error names a line of the text.**  Assembling a text for 1 to 64 channels gives a sequence, or
an error at a line that says something, or, exactly if no line does, an error at address 0.  There is one
more way to fail, which is at no line: the text has a program with words, and more levels are allowed
than stacks can be had for.  If lines cannot be read, the first of them is named.  Otherwise, if the
loops match and the operands resolve, a run that fails at an address is reported at the line of the word
there. -/
theorem error_names_line {channels : Nat} (hpos : 1 ≤ channels) (hmax : channels ≤ 64)
    (limits : Limits) (source : String) :
    ((∃ s, assemble source channels limits = .ok s) ∨
      (∃ k line fault, (Text.fields '\n' source.toList)[k]? = some line ∧ strip line ≠ [] ∧
        assemble source channels limits = .error (.parse (k + 1) fault)) ∨
      assemble source channels limits = .error (.controlFlow 0 .emptyProgram) ∨
      assemble source channels limits = .error (.capacity limits.maxDepth)) ∧
    ((∃ address fault, assemble source channels limits = .error (.controlFlow address fault)) ↔
      ∀ line ∈ Text.fields '\n' source.toList, strip line = []) ∧
    (assemble source channels limits = .error (.capacity limits.maxDepth) ↔
      stackLimit ≤ limits.maxDepth ∧ ∃ parsed lines program,
        parseLines channels source.toList = .ok parsed ∧ matchLoops parsed = .ok lines ∧
        lines.mapM (Line.instruction (labelsOf lines)) = .ok program ∧ program ≠ []) ∧
    ((∃ n fault, Unreadable channels (statements source.toList) n fault) →
      ∃ n fault, Unreadable channels (statements source.toList) n fault ∧
        (∀ m < n, ∀ fault, ¬ Unreadable channels (statements source.toList) m fault) ∧
        assemble source channels limits = .error (.parse n fault)) ∧
    ((∀ n fault, ¬ Unreadable channels (statements source.toList) n fault) →
      ∃ parsed, parseLines channels source.toList = .ok parsed ∧
        ∀ lines program, matchLoops parsed = .ok lines →
          lines.mapM (Line.instruction (labelsOf lines)) = .ok program → program ≠ [] →
          ∀ a fault, Timeline.unroll program.toArray limits = .error (.controlFlow a fault) →
          ∃ st line, (statements source.toList)[a]? = some st ∧ parsed[a]? = some line ∧
            parseStatement channels st = .ok line ∧
            assemble source channels limits = .error (.parse st.line (.flow fault))) := by
  have hcount := checkChannelCount_of_le hpos hmax
  have hstatement : ∀ st ∈ statements source.toList, ∀ fault,
      assemble source channels limits = .error (.parse st.line fault) →
      ∃ k line fault, (Text.fields '\n' source.toList)[k]? = some line ∧ strip line ≠ [] ∧
        assemble source channels limits = .error (.parse (k + 1) fault) := by
    intro st hst fault h
    obtain ⟨k, line, hk, hne, rfl⟩ := mem_statements_iff.mp hst
    exact ⟨k, line, fault, hk, hne, h⟩
  rw [← statements_eq_nil_iff]
  rcases parseLines_cases channels source.toList with
    ⟨parsed, hparse, hread, hclean⟩ | ⟨n, fault, hparse, hbad, hfirst⟩
  · -- every line is read
    refine ⟨?_, controlFlow_iff_of_parsed limits hcount hparse hread, ?_, ?_, ?_⟩
    · rcases assemble_of_parsed limits hcount hparse hread with
        h | ⟨st, hst, fault, h⟩ | ⟨-, h⟩ | ⟨-, h⟩
      · exact .inl h
      · exact .inr (.inl (hstatement st hst fault h))
      · exact .inr (.inr (.inl h))
      · exact .inr (.inr (.inr h))
    · simp [capacity_iff_of_parsed limits hcount hparse hread, hparse]
    · rintro ⟨n, fault, h⟩
      exact absurd h (hclean n fault)
    · intro _
      refine ⟨parsed, hparse, ?_⟩
      intro lines program hloops hwords hne a fault hunroll
      exact assemble_of_unroll_error hcount hparse hread hloops hwords hne hunroll
  · -- the first line that cannot be read ends it
    have hresult := assemble_of_parse_error limits hcount hparse
    obtain ⟨st, hst, rfl⟩ := hbad.exists_statement
    refine ⟨.inr (.inl (hstatement st hst fault hresult)), ?_, ?_, ?_, ?_⟩
    · simp [hresult, List.ne_nil_of_mem hst]
    · simp [hresult, hparse]
    · intro _
      exact ⟨st.line, fault, hbad, hfirst, hresult⟩
    · intro hclean
      exact absurd hbad (hclean st.line fault)

/-- The label of the first line again, after a comment and a line with nothing but a tab. -/
def labelledTwice : String :=
  "a: 0x1, 10ns\n// again\n\t\na: 0x0, 20ns, RTS"

theorem error_names_line_labelledTwice :
    1 ≤ 4 ∧ 4 ≤ 64 ∧
      Unreadable 4 (statements labelledTwice.toList) 4 (.duplicateLabel "a") ∧
      ∃ n fault, n ≤ 4 ∧ Unreadable 4 (statements labelledTwice.toList) n fault ∧
        assemble labelledTwice 4 {} = .error (.parse n fault) := by
  have hsts : statements labelledTwice.toList =
      [⟨1, "a: 0x1, 10ns".toList⟩, ⟨4, "a: 0x0, 20ns, RTS".toList⟩] := by rfl
  have hfirst : parseStatement 4 ⟨1, "a: 0x1, 10ns".toList⟩ =
      .ok ⟨1, some "a", 1, 10, .cont, .written "0"⟩ := rfl
  have hagain : parseStatement 4 ⟨4, "a: 0x0, 20ns, RTS".toList⟩ =
      .ok ⟨4, some "a", 0, 20, .rts, .written "0"⟩ := rfl
  have hbad : Unreadable 4 (statements labelledTwice.toList) 4 (.duplicateLabel "a") := by
    rw [hsts]
    exact .repeated (by simp) rfl hagain rfl (by simp) (by decide) hfirst rfl
  obtain ⟨n, fault, hn, hfirst, hresult⟩ :=
    (error_names_line (by decide) (by decide) {} labelledTwice).2.2.2.1 ⟨4, _, hbad⟩
  refine ⟨by decide, by decide, hbad, n, fault, ?_, hn, hresult⟩
  by_contra hlt
  exact hfirst 4 (by omega) _ hbad

/-- A text of one line without a fault, for which there is neither a sequence nor an error at a line. -/
theorem assemble_tooDeep :
    (Text.fields '\n' "0x1, 10ns".toList).map strip = ["0x1, 10ns".toList] ∧
      assemble "0x1, 10ns" 24 { maxDepth := maxWord } = .error (.capacity maxWord) :=
  ⟨rfl, rfl⟩

end PulseSequencer.Assembly
