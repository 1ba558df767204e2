import PulseSequencer.Proofs.Assembly.Layout
import PulseSequencer.Proofs.Assembly.LoopNesting
import PulseSequencer.Proofs.Assembly.Reports

/-!
# Printed words are read back

A word is printed on a line, with its label in front of a colon if it has one.  The assembler reads the
line as the same word: the ends of loops get the operand they have, and every other operand resolves to
itself, unless a label of another word is spelled like it.

* `statements_of_fields`: the statements of a text, off the lines it is cut into.
* `parseLines_of_statements`, `matchLoops_program`, `mapM_program`: the lines of printed words are read,
  their loops matched and their operands resolved.
* `assemble_of_statements`: all together, for any text whose statements are the printed words.
* `assemble_printed`: the words one below the other.
-/

namespace PulseSequencer.Assembly

open Text (Name)

/-! ### A word as a line -/

/-- The line of a word, field by field. -/
def wordLayout (i : Instruction) : List Char :=
  layout (i.label.map String.toList) ('0' :: 'x' :: Text.hexDigits 6 i.flags.toNat)
    (Nat.toDigits 10 i.duration ++ ['n', 's']) i.opcode.name.toList i.operand.repr.toList

/-- The line that a word is read as. -/
def lineOf (a : Nat) (i : Instruction) : Line :=
  ⟨a + 1, i.label, i.flags, i.duration, i.opcode, .written i.operand.repr⟩

theorem toList_wordText (i : Instruction) : i.text.toList = wordLayout i := by
  unfold Instruction.text
  split <;> next hlabel => simp [Instruction.body, wordLayout, layout, lead, hlabel]

theorem wordText_ne_nil (i : Instruction) : i.text.toList ≠ [] := by
  rw [toList_wordText, wordLayout, layout]
  simp

section Word

variable {i : Instruction} (hname : ∀ label ∈ i.label, Name label.toList)

include hname

theorem name_of_mem_label : ∀ name ∈ i.label.map String.toList, Name name := by
  intro name hmem
  obtain ⟨label, hlabel, rfl⟩ := Option.map_eq_some_iff.mp hmem
  exact hname label hlabel

theorem strip_wordText {pad : List Char} (hpad : ∀ c ∈ pad, c = ' ') :
    strip (pad ++ i.text.toList) = i.text.toList := by
  rw [toList_wordText]
  exact strip_layout (name_of_mem_label hname) (token_flags 6 i.flags) (token_duration i.duration)
    (Text.token_name i.opcode) (Text.token_repr i.operand) hpad

theorem newline_not_mem_wordText : '\n' ∉ i.text.toList := by
  rw [toList_wordText]
  exact not_mem_layout (name_of_mem_label hname) (token_flags 6 i.flags) (token_duration i.duration)
    (Text.token_name i.opcode) (Text.token_repr i.operand) (.inr rfl)

theorem parseStatement_wordText {channels : Nat} (hfits : i.flags.fits channels = true)
    (hduration : 1 ≤ i.duration ∧ i.duration ≤ 2 ^ 53) (a : Nat) :
    parseStatement channels ⟨a + 1, i.text.toList⟩ = .ok (lineOf a i) := by
  have hlabel : (i.label.map String.toList).map String.ofList = i.label := by
    cases i.label <;> simp
  have hline := parseStatement_layout (a + 1) 6 (name_of_mem_label hname)
    (Text.token_repr i.operand) hfits hduration.1 hduration.2 i.opcode
  rw [String.ofList_toList, hlabel] at hline
  rw [toList_wordText]
  exact hline

end Word

/-! ### Reading -/

/-- Lines that all say something are the statements of a text that has nothing else but blank lines
behind them. -/
theorem statements_of_fields {source : List Char} {lines blank : List (List Char)}
    (hfields : Text.fields '\n' source = lines ++ blank) (hne : ∀ line ∈ lines, strip line ≠ [])
    (hblank : ∀ line ∈ blank, strip line = []) :
    statements source = lines.mapIdx fun k line => ⟨k + 1, strip line⟩ := by
  rw [statements, hfields, List.zipIdx_append, List.filterMap_append, List.mapIdx_eq_zipIdx_map,
    ← List.filterMap_eq_map]
  have hnone : ∀ x ∈ blank.zipIdx (0 + lines.length),
      (if (strip x.1).isEmpty then none else some (⟨x.2 + 1, strip x.1⟩ : Statement)) = none := by
    intro x hx
    rw [hblank x.1 (List.fst_mem_of_mem_zipIdx hx)]
    rfl
  rw [List.filterMap_eq_nil_iff.mpr hnone, List.append_nil]
  refine List.filterMap_congr fun x hx => ?_
  have hstrip := hne x.1 (List.fst_mem_of_mem_zipIdx hx)
  simp [hstrip]

/-- The statements of a text that has the words on its first lines, behind spaces or not. -/
theorem statements_of_words {source : List Char} {program : List Instruction}
    (pad : Nat → List Char) (blank : List (List Char))
    (hnames : ∀ i ∈ program, ∀ label ∈ i.label, Name label.toList)
    (hpad : ∀ a, ∀ c ∈ pad a, c = ' ')
    (hfields : Text.fields '\n' source =
      program.mapIdx (fun a i => pad a ++ i.text.toList) ++ blank)
    (hblank : ∀ line ∈ blank, strip line = []) :
    statements source = program.mapIdx fun a i => ⟨a + 1, i.text.toList⟩ := by
  have hstrip : ∀ (a : Nat) (ha : a < program.length),
      strip (pad a ++ program[a].text.toList) = program[a].text.toList :=
    fun a ha => strip_wordText (hnames _ (List.getElem_mem ha)) (hpad a)
  rw [statements_of_fields hfields ?_ hblank, List.mapIdx_mapIdx]
  · refine List.ext_getElem (by simp) fun k h₁ h₂ => ?_
    rw [List.length_mapIdx] at h₂
    simp only [List.getElem_mapIdx, Function.comp_apply, hstrip k h₂]
  · intro line hline
    obtain ⟨a, ha, rfl⟩ := List.mem_mapIdx.mp hline
    rw [hstrip a ha]
    exact wordText_ne_nil _

theorem parseLines_of_statements {channels : Nat} {source : List Char} {program : List Instruction}
    (hsource : statements source = program.mapIdx fun a i => ⟨a + 1, i.text.toList⟩)
    (hnames : ∀ i ∈ program, ∀ label ∈ i.label, Name label.toList)
    (hdistinct : (program.filterMap Instruction.label).Nodup)
    (hfits : ∀ i ∈ program, i.flags.fits channels = true)
    (hdurations : ∀ i ∈ program, 1 ≤ i.duration ∧ i.duration ≤ 2 ^ 53) :
    ReadAs channels (statements source) (program.mapIdx lineOf) ∧
    parseLines channels source = .ok (program.mapIdx lineOf) := by
  have hread : ReadAs channels (statements source) (program.mapIdx lineOf) := by
    rw [hsource]
    refine List.forall₂_iff_get.mpr ⟨by simp, fun k h₁ h₂ => ?_⟩
    rw [List.length_mapIdx] at h₁
    have hmem := List.getElem_mem h₁
    simpa using parseStatement_wordText (hnames _ hmem) (hfits _ hmem) (hdurations _ hmem) k
  refine ⟨hread, ?_⟩
  have hlabels : (program.mapIdx lineOf).Pairwise fun a b =>
      ∀ label, b.label = some label → a.label ≠ some label := by
    have hpairs := List.pairwise_filterMap.mp hdistinct
    rw [List.pairwise_iff_getElem] at hpairs ⊢
    intro k l hk hl hkl label hlabel hsame
    simp only [List.length_mapIdx] at hk hl
    simp only [List.getElem_mapIdx, lineOf] at hlabel hsame
    exact hpairs k l hk hl hkl label hsame label hlabel rfl
  exact parseLinesFrom_of_readAs hread hlabels

/-! ### Matching loops -/

/-- The line of a word after the loops have been matched. -/
def matchedLine (a : Nat) (i : Instruction) : Line :=
  if i.opcode = .endLoop then { lineOf a i with operand := .address i.operand.toNat } else lineOf a i

/-- Matching writes into the end of every loop the operand that the word has. -/
theorem matchLoopsFrom_program {program front rest : List Instruction} (hclosed : Closed program)
    (hsplit : program = front ++ rest) {opened : List OpenLoop}
    (hopened : scan 0 [] (front.map Instruction.opcode) = some (opened.map OpenLoop.address)) :
    matchLoopsFrom opened (front.mapIdx matchedLine).reverse front.length
      (rest.mapIdx fun k i => lineOf (front.length + k) i) = .ok (program.mapIdx matchedLine) := by
  induction rest generalizing front opened with
  | nil =>
    rw [List.append_nil] at hsplit
    subst hsplit
    rw [hclosed.scan_eq, Option.some_inj] at hopened
    obtain rfl := List.map_eq_nil_iff.mp hopened.symm
    rw [List.mapIdx_nil, matchLoopsFrom, List.reverse_reverse]
  | cons i rest ih =>
    have hword : program[front.length]? = some i := by simp [hsplit]
    have hsplit' : program = (front ++ [i]) ++ rest := by simp [hsplit]
    have hlength : (front ++ [i]).length = front.length + 1 := by simp
    have hdone : ((front ++ [i]).mapIdx matchedLine).reverse =
        matchedLine front.length i :: (front.mapIdx matchedLine).reverse := by
      simp
    have hlines : (i :: rest).mapIdx (fun k i => lineOf (front.length + k) i) =
        lineOf front.length i :: rest.mapIdx fun k i => lineOf (front.length + 1 + k) i := by
      simp [List.mapIdx_cons, Nat.add_assoc, Nat.add_comm 1]
    have hscan : scan 0 [] ((front ++ [i]).map Instruction.opcode) =
        stackAfter front.length (opened.map OpenLoop.address) i.opcode := by
      rw [List.map_append, List.map_singleton, scan_concat, hopened, Option.bind_some,
        List.length_map, Nat.zero_add]
    have ih := fun opened' => @ih (front ++ [i]) hsplit' opened'
    rw [hlength, hdone, hscan] at ih
    rw [hlines]
    by_cases hloop : i.opcode = .loop
    · have hmatched : matchedLine front.length i = lineOf front.length i := by
        simp [matchedLine, hloop]
      rw [matchLoopsFrom_loop hloop, ← hmatched]
      exact ih _ (by rw [hloop]; rfl)
    · by_cases hend : i.opcode = .endLoop
      · -- the innermost open loop is the one that the operand names
        obtain ⟨l, stack, hstack, hoperand⟩ := hclosed.operands _ i hword hend
        rw [hsplit, List.map_append, List.take_left' (by simp), hopened, Option.some_inj] at hstack
        obtain ⟨start, outer, rfl, rfl, rfl⟩ := List.map_eq_cons_iff.mp hstack
        have hmatched : matchedLine front.length i =
            { lineOf front.length i with operand := .address start.address } := by
          simp [matchedLine, hend, hoperand]
        rw [matchLoopsFrom_endLoop hend, ← hmatched]
        exact ih outer (by rw [hend]; rfl)
      · have hmatched : matchedLine front.length i = lineOf front.length i := by
          simp [matchedLine, hend]
        rw [matchLoopsFrom_other hloop hend, ← hmatched]
        exact ih opened (stackAfter_other hloop hend _ _)

theorem matchLoops_program {program : List Instruction} (hclosed : Closed program) :
    matchLoops (program.mapIdx lineOf) = .ok (program.mapIdx matchedLine) := by
  have hstart : scan 0 [] (([] : List Instruction).map Instruction.opcode) =
      some (([] : List OpenLoop).map OpenLoop.address) := rfl
  simpa [matchLoops] using matchLoopsFrom_program hclosed (List.nil_append program).symm hstart

/-! ### Operands among the labels -/

/-- A label that is spelled like an operand is the label of the word that the operand is the address of. -/
def MeansItself (program : List Instruction) : Prop :=
  ∀ (a : Nat) (i : Instruction), program[a]? = some i →
    ∀ j ∈ program, i.label = some j.operand.repr → j.operand = a

theorem exists_line_of_mem_labelsOf {lines : List Line} {text : String} {a : Nat}
    (h : (text, a) ∈ labelsOf lines) : ∃ line, lines[a]? = some line ∧ line.label = some text := by
  unfold labelsOf at h
  obtain ⟨⟨line, address⟩, hmem, hlabel⟩ := List.mem_filterMap.mp h
  obtain ⟨label, hsome, heq⟩ := Option.map_eq_some_iff.mp hlabel
  obtain ⟨rfl, rfl⟩ := Prod.mk.inj heq
  exact ⟨line, List.mem_zipIdx_iff_getElem?.mp hmem, hsome⟩

theorem label_matchedLine (a : Nat) (i : Instruction) : (matchedLine a i).label = i.label := by
  unfold matchedLine
  split <;> rfl

theorem MeansItself.eq_of_mem_labelsOf {program : List Instruction} (h : MeansItself program)
    {j : Instruction} (hj : j ∈ program) {a : Nat}
    (hmem : (j.operand.repr, a) ∈ labelsOf (program.mapIdx matchedLine)) : j.operand = a := by
  obtain ⟨line, hline, hlabel⟩ := exists_line_of_mem_labelsOf hmem
  rw [List.getElem?_mapIdx] at hline
  obtain ⟨i, hi, rfl⟩ := Option.map_eq_some_iff.mp hline
  rw [label_matchedLine] at hlabel
  exact h a i hi j hj hlabel

/-- An integer that no label stands for but the one of its own address means itself: as a label if it is
one, and as a number if not. -/
theorem resolve_repr {labels : List (String × Nat)} {z : Int}
    (hlabels : ∀ a, (z.repr, a) ∈ labels → z = a)
    (hrange : -2 ^ 63 ≤ z ∧ z < 2 ^ 63) : Operand.resolve labels (.written z.repr) = .ok z := by
  rw [Operand.resolve]
  cases hlookup : labels.lookup z.repr with
  | some a =>
    have hmem : (z.repr, a) ∈ labels := by
      obtain ⟨front, back, rfl, -⟩ := List.lookup_eq_some_iff.mp hlookup
      simp
    rw [hlabels a hmem]
  | none => simp only [Text.readInt_repr hrange.1 hrange.2]

theorem instruction_matchedLine {labels : List (String × Nat)} {i : Instruction}
    (hlabels : ∀ a, (i.operand.repr, a) ∈ labels → i.operand = a)
    (hrange : -2 ^ 63 ≤ i.operand ∧ i.operand < 2 ^ 63)
    (hend : i.opcode = .endLoop → 0 ≤ i.operand) (a : Nat) :
    (matchedLine a i).instruction labels = .ok i := by
  by_cases hop : i.opcode = .endLoop
  · have hoperand : (i.operand.toNat : Int) = i.operand := Int.toNat_of_nonneg (hend hop)
    simp only [matchedLine, hop, if_true, Line.instruction, lineOf, Operand.resolve, hoperand]
    rw [← hop]
  · simp only [matchedLine, hop, if_false, Line.instruction, lineOf, resolve_repr hlabels hrange]

theorem mapM_program {program : List Instruction} (hclosed : Closed program)
    (hoperands : ∀ i ∈ program, -2 ^ 63 ≤ i.operand ∧ i.operand < 2 ^ 63)
    (hlabels : MeansItself program) :
    (program.mapIdx matchedLine).mapM (Line.instruction (labelsOf (program.mapIdx matchedLine))) =
      .ok program := by
  rw [mapM_eq_ok_iff, List.forall₂_iff_get]
  refine ⟨by simp, fun k h₁ h₂ => ?_⟩
  have hend : program[k].opcode = .endLoop → 0 ≤ program[k].operand := by
    intro hop
    obtain ⟨l, -, -, hoperand⟩ := hclosed.operands k _ (List.getElem?_eq_getElem h₂) hop
    omega
  have hmem := List.getElem_mem h₂
  simpa using instruction_matchedLine (fun _ => hlabels.eq_of_mem_labelsOf hmem)
    (hoperands _ hmem) hend k

/-! ### Whole programs -/

/-- What printed words can be read back from: labels that are names and differ from each other, durations
that are exact as doubles, operands that fit a signed word, loops that are balanced and ends of loops that
name the loop they match. -/
structure Printable (program : Program) : Prop where
  names : ∀ i ∈ program.toList, ∀ label ∈ i.label, Name label.toList
  distinct : (program.toList.filterMap Instruction.label).Nodup
  durations : ∀ i ∈ program.toList, 1 ≤ i.duration ∧ i.duration ≤ 2 ^ 53
  operands : ∀ i ∈ program.toList, -2 ^ 63 ≤ i.operand ∧ i.operand < 2 ^ 63
  balanced : Balanced (program.toList.map Instruction.opcode)
  ends : ∀ l e i, Matches (program.toList.map Instruction.opcode) l e →
    program.toList[e]? = some i → i.operand = l

/-- A text whose statements are the printed words is assembled to these words. -/
theorem assemble_of_statements {program : Program} {channels : Nat} {limits : Limits} {s : Sequence}
    (hs : Sequence.ofProgram program channels limits = .ok s) (h : Printable program)
    (hlabels : MeansItself program.toList) {source : String}
    (hsource : statements source.toList =
      program.toList.mapIdx fun a i => ⟨a + 1, i.text.toList⟩) :
    assemble source channels limits = .ok s := by
  obtain ⟨hcount, hwide, t, hunroll, rfl⟩ := ofProgram_eq_ok_iff.mp hs
  have hclosed := closed_of_balanced h.balanced h.ends
  obtain ⟨hread, hparse⟩ := parseLines_of_statements hsource h.names h.distinct
    (firstTooWide?_eq_none_iff.mp hwide) h.durations
  rw [assemble_of_stages hcount hparse hread.fits (matchLoops_program hclosed)
    (mapM_program hclosed h.operands hlabels), Array.toArray_toList, hunroll]

theorem statements_printed {program : List Instruction}
    (hnames : ∀ i ∈ program, ∀ label ∈ i.label, Name label.toList) :
    statements ("\n".intercalate (program.map Instruction.text)).toList =
      program.mapIdx fun a i => ⟨a + 1, i.text.toList⟩ := by
  by_cases hempty : program = []
  · subst hempty
    rfl
  · have hlines : ∀ line ∈ program.map (String.toList ∘ Instruction.text), '\n' ∉ line := by
      intro line hline
      obtain ⟨i, hi, rfl⟩ := List.mem_map.mp hline
      exact newline_not_mem_wordText (hnames i hi)
    rw [String.toList_intercalate, List.map_map]
    refine statements_of_words (fun _ => []) [] hnames (fun _ _ => nofun) ?_ nofun
    refine (Text.fields_intercalate (by simpa using hempty) hlines).trans ?_
    exact List.ext_getElem (by simp) fun k _ _ => by simp

/-- **Printed words are read back.**  Let a program be accepted for a number of channels under some limits.
If its labels are names that differ from each other, none of them is spelled like an operand, its durations
are exact as doubles, and its loops are balanced, with every end naming the loop it matches, then the words
printed one below the other are assembled to the very same sequence, labels included. -/
theorem assemble_printed {program : Program} {channels : Nat} {limits : Limits} {s : Sequence}
    (hs : Sequence.ofProgram program channels limits = .ok s) (h : Printable program)
    (hlabels : ∀ i ∈ program.toList, ∀ j ∈ program.toList, i.label ≠ some j.operand.repr) :
    assemble ("\n".intercalate (program.toList.map Instruction.text)) channels limits = .ok s := by
  refine assemble_of_statements hs h ?_ (statements_printed h.names)
  intro a i hi j hj hlabel
  exact absurd hlabel (hlabels i (List.mem_of_getElem? hi) j hj)

/-- A loop in a loop, on all 64 channels.  Of the labels one has blanks and slashes, one is a numeral with
zeros in front, one is nothing but a slash and one is the number of no operand; two words have none.  The
operands reach from one end of the signed word to the other. -/
def labelledLoops : Program :=
  #[⟨some "outer / loop", 0xFFFFFFFFFFFFFFFF, 1, .loop, 2⟩, ⟨none, 0x8000000000000001, 20, .loop, 3⟩,
    ⟨some "007", 0, 9007199254740992, .endLoop, 1⟩, ⟨some "/", 0xABCDEF, 40, .endLoop, 0⟩,
    ⟨some "9", 0, 60, .cont, -9223372036854775808⟩, ⟨none, 0, 70, .cont, 9223372036854775807⟩,
    ⟨some "naïve", 0, 80, .branch, 4⟩]

theorem printable_labelledLoops : Printable labelledLoops := by
  have hbalanced : Balanced (labelledLoops.toList.map Instruction.opcode) := by
    have hinner : Balanced (.loop :: ([] ++ .endLoop :: [])) := .loop .nil .nil
    have hrest : Balanced [.cont, .cont, .branch] := balanced_of_no_loops (by decide)
    exact .loop hinner hrest
  have hclosed : Closed labelledLoops.toList := by decide
  exact ⟨by decide +kernel, by decide, by decide, by decide, hbalanced,
    fun l e i hmatch hi => hclosed.operand_of_matches hmatch hi⟩

theorem assemble_printed_labelledLoops :
    ∃ s, Sequence.ofProgram labelledLoops 64 {} = .ok s ∧ Printable labelledLoops ∧
      (∀ i ∈ labelledLoops.toList, ∀ j ∈ labelledLoops.toList, i.label ≠ some j.operand.repr) ∧
      assemble ("\n".intercalate (labelledLoops.toList.map Instruction.text)) 64 {} = .ok s := by
  obtain ⟨s, hs⟩ : ∃ s, Sequence.ofProgram labelledLoops 64 {} = .ok s := ⟨_, rfl⟩
  have hlabels : ∀ i ∈ labelledLoops.toList, ∀ j ∈ labelledLoops.toList,
      i.label ≠ some j.operand.repr := by
    decide +kernel
  exact ⟨s, hs, printable_labelledLoops, hlabels, assemble_printed hs printable_labelledLoops hlabels⟩

end PulseSequencer.Assembly
