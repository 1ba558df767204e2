import PulseSequencer.Compiler
import PulseSequencer.Proofs.Assembly.Printing
import PulseSequencer.Proofs.Compiler.Shape

/-!
# Listings are read back

The text of a sequence has a line for every word, with the address in front of a colon.  The assembler
takes the address for a label, so every operand that is the address of a word is found among the labels
before it is read as a number, and means the same either way.

* `statements_text`: the statements of a listing are its words, with their addresses as labels.
* `printable_numbered`, `meansItself_numbered`: these can be read back.
* `assemble_text`: all together.
-/

namespace PulseSequencer.Assembly

/-! ### Addresses as labels -/

/-- The program with the address of every word as its label. -/
def numbered (program : Program) : Program :=
  program.mapIdx fun a i => { i with label := some a.repr }

theorem sameWords_numbered (program : Program) : SameWords (numbered program) program := by
  unfold SameWords numbered
  ext k h₁ h₂
  · simp
  · simp [bare]

theorem toList_numbered (program : Program) :
    (numbered program).toList = program.toList.mapIdx fun a i => { i with label := some a.repr } := by
  rw [numbered, Array.toList_mapIdx]

theorem exists_word_of_numbered {program : Program} {a : Nat} {i : Instruction}
    (h : (numbered program).toList[a]? = some i) :
    ∃ j, program.toList[a]? = some j ∧ i = { j with label := some a.repr } := by
  rw [toList_numbered, List.getElem?_mapIdx] at h
  obtain ⟨j, hj, rfl⟩ := Option.map_eq_some_iff.mp h
  exact ⟨j, hj, rfl⟩

theorem opcodes_numbered (program : Program) :
    (numbered program).toList.map Instruction.opcode = program.toList.map Instruction.opcode := by
  rw [toList_numbered]
  exact List.ext_getElem (by simp) fun k _ _ => by simp

/-- A label that is an address can only be spelled like an operand that is the same number. -/
theorem meansItself_numbered (program : Program) : MeansItself (numbered program).toList := by
  intro a i hi j _ hlabel
  obtain ⟨i, -, rfl⟩ := exists_word_of_numbered hi
  exact Text.intRepr_eq_natRepr_iff.mp (Option.some_inj.mp hlabel).symm

theorem names_numbered (program : Program) :
    ∀ i ∈ (numbered program).toList, ∀ label ∈ i.label, Text.Name label.toList := by
  intro i hi label hlabel
  obtain ⟨a, ha⟩ := List.getElem?_of_mem hi
  obtain ⟨j, -, rfl⟩ := exists_word_of_numbered ha
  obtain rfl := Option.some_inj.mp hlabel
  rw [Nat.toList_repr]
  exact (Text.token_toDigits a).name

theorem distinct_numbered (program : Program) :
    ((numbered program).toList.filterMap Instruction.label).Nodup := by
  refine List.pairwise_filterMap.mpr (List.pairwise_iff_getElem.mpr ?_)
  intro k l hk hl hkl label hlabel label' hlabel' hsame
  simp only [toList_numbered, List.getElem_mapIdx, Option.some_inj] at hlabel hlabel'
  have heq : k = l := Text.natRepr_inj.mp (hlabel.trans (hsame.trans hlabel'.symm))
  omega

/-! ### The lines of a listing -/

/-- The blanks in front of an address. -/
def margin (a : Nat) : List Char :=
  List.replicate (4 - (Nat.toDigits 10 a).length) ' '

theorem toList_text {s : Sequence} (hlabels : ∀ i ∈ s.program.toList, i.label = none) :
    s.text.toList = ((numbered s.program).toList.mapIdx fun a i => margin a ++ i.text.toList).flatMap
      (· ++ ['\n']) := by
  rw [Sequence.text, String.toList_join, toList_numbered, List.mapIdx_mapIdx,
    List.mapIdx_eq_zipIdx_map, List.flatMap_map, List.flatMap_map]
  refine List.flatMap_congr fun x hx => ?_
  obtain ⟨i, a⟩ := x
  have hlabel := hlabels i (List.fst_mem_of_mem_zipIdx hx)
  simp [Instruction.text, hlabel, Instruction.body, margin, Text.alignedDecimal, List.leftpad]

theorem fields_lines {lines : List (List Char)} (h : ∀ line ∈ lines, '\n' ∉ line) :
    Text.fields '\n' (lines.flatMap (· ++ ['\n'])) = lines ++ [[]] := by
  induction lines with
  | nil => rfl
  | cons line lines ih =>
    rw [List.flatMap_cons, List.append_assoc, List.singleton_append,
      Text.fields_append (h line List.mem_cons_self),
      ih fun line' hline' => h line' (List.mem_cons_of_mem _ hline'), List.cons_append]

theorem statements_text {s : Sequence} (hlabels : ∀ i ∈ s.program.toList, i.label = none) :
    statements s.text.toList =
      (numbered s.program).toList.mapIdx fun a i => ⟨a + 1, i.text.toList⟩ := by
  have hnames := names_numbered s.program
  have hmargin : ∀ a, ∀ c ∈ margin a, c = ' ' := fun a c hc => (List.mem_replicate.mp hc).2
  have hlines : ∀ line ∈ (numbered s.program).toList.mapIdx fun a i => margin a ++ i.text.toList,
      '\n' ∉ line := by
    intro line hline hmem
    obtain ⟨a, ha, rfl⟩ := List.mem_mapIdx.mp hline
    rcases List.mem_append.mp hmem with hmem | hmem
    · exact absurd (hmargin a _ hmem) (by decide)
    · exact newline_not_mem_wordText (hnames _ (List.getElem_mem ha)) hmem
  rw [toList_text hlabels]
  exact statements_of_words margin [[]] hnames hmargin (fields_lines hlines) (by simp [strip, cutComment])

/-! ### The whole listing -/

/-- What a listing can be read back from: words without labels, whose durations are exact as doubles and
whose operands fit a signed word, with loops that are balanced and ends of loops that name the loop they
match. -/
structure Listable (program : Program) : Prop where
  unlabelled : ∀ i ∈ program.toList, i.label = none
  durations : ∀ i ∈ program.toList, 1 ≤ i.duration ∧ i.duration ≤ 2 ^ 53
  operands : ∀ i ∈ program.toList, -2 ^ 63 ≤ i.operand ∧ i.operand < 2 ^ 63
  balanced : Balanced (program.toList.map Instruction.opcode)
  ends : ∀ l e i, Matches (program.toList.map Instruction.opcode) l e →
    program.toList[e]? = some i → i.operand = l

theorem printable_numbered {program : Program} (h : Listable program) :
    Printable (numbered program) := by
  have hwords : ∀ i ∈ (numbered program).toList, ∃ j ∈ program.toList,
      i.duration = j.duration ∧ i.operand = j.operand := by
    intro i hi
    obtain ⟨a, ha⟩ := List.getElem?_of_mem hi
    obtain ⟨j, hj, rfl⟩ := exists_word_of_numbered ha
    exact ⟨j, List.mem_of_getElem? hj, rfl, rfl⟩
  refine ⟨names_numbered program, distinct_numbered program, fun i hi => ?_, fun i hi => ?_, ?_, ?_⟩
  · obtain ⟨j, hj, hduration, -⟩ := hwords i hi
    rw [hduration]
    exact h.durations j hj
  · obtain ⟨j, hj, -, hoperand⟩ := hwords i hi
    rw [hoperand]
    exact h.operands j hj
  · rw [opcodes_numbered]
    exact h.balanced
  · intro l e i hmatch hi
    rw [opcodes_numbered] at hmatch
    obtain ⟨j, hj, rfl⟩ := exists_word_of_numbered hi
    exact h.ends l e j hmatch hj

theorem ofProgram_numbered {program : Program} {channels : Nat} {limits : Limits} {s : Sequence}
    (hs : Sequence.ofProgram program channels limits = .ok s) :
    Sequence.ofProgram (numbered program) channels limits =
      .ok { s with program := numbered s.program } := by
  obtain ⟨hcount, hwide, t, hunroll, rfl⟩ := ofProgram_eq_ok_iff.mp hs
  have hfits : ∀ i ∈ (numbered program).toList, i.flags.fits channels = true := by
    intro i hi
    obtain ⟨a, ha⟩ := List.getElem?_of_mem hi
    obtain ⟨j, hj, rfl⟩ := exists_word_of_numbered ha
    exact firstTooWide?_eq_none_iff.mp hwide j (List.mem_of_getElem? hj)
  rw [ofProgram_of_fits hcount hfits, (sameWords_numbered program).unroll_eq, hunroll]

theorem assemble_of_listable {program : Program} {channels : Nat} {limits : Limits} {s : Sequence}
    (hs : Sequence.ofProgram program channels limits = .ok s) (h : Listable program) :
    assemble s.text channels limits = .ok { s with program := numbered s.program } := by
  have hprogram : s.program = program := by
    obtain ⟨-, -, t, -, rfl⟩ := ofProgram_eq_ok_iff.mp hs
    rfl
  subst hprogram
  exact assemble_of_statements (ofProgram_numbered hs) (printable_numbered h)
    (meansItself_numbered s.program) (statements_text h.unlabelled)

/-- A compiled program has no loops, so all that its listing needs is durations that are exact. -/
theorem listable_of_compile {c : Config} {given : Option Nat} {signals masking : List Signal}
    {s : Sequence} (h : Compiler.compile c given signals masking = .ok s) :
    (∀ i ∈ s.program.toList, i.opcode ≠ .loop ∧ i.opcode ≠ .endLoop) ∧
      ((∀ i ∈ s.program.toList, 1 ≤ i.duration ∧ i.duration ≤ 2 ^ 53) → Listable s.program) := by
  obtain ⟨-, words, flags, duration, hprogram, hcont⟩ := Compiler.straight_of_compile h
  have hword : ∀ i ∈ s.program.toList, i.label = none ∧ i.operand = 0 ∧
      i.opcode ≠ .loop ∧ i.opcode ≠ .endLoop := by
    intro i hi
    rw [hprogram] at hi
    rcases List.mem_append.mp hi with hi | hi
    · rw [hcont i hi]
      simp [Instruction.cont]
    · rw [List.mem_singleton.mp hi]
      simp [Instruction.branch]
  have hops : ∀ op ∈ s.program.toList.map Instruction.opcode, op ≠ .loop ∧ op ≠ .endLoop := by
    intro op hop
    obtain ⟨i, hi, rfl⟩ := List.mem_map.mp hop
    exact (hword i hi).2.2
  refine ⟨fun i hi => (hword i hi).2.2, fun hdurations => ?_⟩
  refine ⟨fun i hi => (hword i hi).1, hdurations, fun i hi => ?_, balanced_of_no_loops hops, ?_⟩
  · rw [(hword i hi).2.1]
    decide
  · intro l e i hmatch hi
    exact absurd rfl (hops _ (List.mem_of_getElem? hmatch.opcodes.1)).1

/-- **A listing is read back.**  The text of an accepted sequence, assembled for the same channels and
under the same limits, gives the same sequence: the same flags, durations, opcodes, operands and
timeline, with nothing new but the addresses as labels.  Every compiled sequence is without loops and
qualifies as soon as its durations do. -/
theorem assemble_text :
    (∀ (program : Program) (channels : Nat) (limits : Limits) (s : Sequence),
      Sequence.ofProgram program channels limits = .ok s → Listable program →
      assemble s.text channels limits = .ok { s with program := numbered s.program }) ∧
    ∀ (c : Config) (given : Option Nat) (signals masking : List Signal) (s : Sequence),
      Compiler.compile c given signals masking = .ok s →
      (∀ i ∈ s.program.toList, i.opcode ≠ .loop ∧ i.opcode ≠ .endLoop) ∧
      ((∀ i ∈ s.program.toList, 1 ≤ i.duration ∧ i.duration ≤ 2 ^ 53) →
        Listable s.program ∧
        assemble s.text c.channels c.limits = .ok { s with program := numbered s.program }) := by
  refine ⟨fun _ _ _ _ hs h => assemble_of_listable hs h, ?_⟩
  intro c given signals masking s hs
  obtain ⟨hloops, hlistable⟩ := listable_of_compile hs
  refine ⟨hloops, fun hdurations => ⟨hlistable hdurations, ?_⟩⟩
  exact assemble_of_listable (Compiler.straight_of_compile hs).1 (hlistable hdurations)

/-- A loop in a loop.  The number of passes of the outer one and the target of the branch are the address
of a word and so are taken for labels; the number of passes of the inner one and the operand of the
fifth word are not.  The third word has the longest duration that a listing is known to keep. -/
def countedLoops : Program :=
  #[⟨none, 0xFF, 100, .loop, 4⟩, ⟨none, 0x01, 20, .loop, 9⟩,
    ⟨none, 0, 9007199254740992, .endLoop, 1⟩, ⟨none, 0x03, 40, .endLoop, 0⟩,
    ⟨none, 0, 60, .cont, -7⟩, ⟨none, 0, 80, .branch, 4⟩]

theorem listable_countedLoops : Listable countedLoops := by
  have hbalanced : Balanced (countedLoops.toList.map Instruction.opcode) := by
    have hinner : Balanced (.loop :: ([] ++ .endLoop :: [])) := .loop .nil .nil
    have hrest : Balanced [.cont, .branch] :=
      .other (by decide) (by decide) (.other (by decide) (by decide) .nil)
    exact .loop hinner hrest
  have hclosed : Closed countedLoops.toList := by decide
  exact ⟨by decide, by decide, by decide, hbalanced,
    fun l e i hmatch hi => hclosed.operand_of_matches hmatch hi⟩

theorem assemble_text_countedLoops :
    (∃ s, Sequence.ofProgram countedLoops 8 {} = .ok s ∧ Listable countedLoops ∧
      assemble s.text 8 {} = .ok { s with program := numbered s.program }) ∧
    ∃ s, Compiler.compile {} none [Compiler.fast, Compiler.slow] [Compiler.gate] = .ok s ∧
      (∀ i ∈ s.program.toList, 1 ≤ i.duration ∧ i.duration ≤ 2 ^ 53) ∧
      assemble s.text 24 {} = .ok { s with program := numbered s.program } := by
  constructor
  · obtain ⟨s, hs⟩ : ∃ s, Sequence.ofProgram countedLoops 8 {} = .ok s := ⟨_, rfl⟩
    exact ⟨s, hs, listable_countedLoops, assemble_text.1 _ _ _ _ hs listable_countedLoops⟩
  · have hrun : ((Compiler.compile {} none [Compiler.fast, Compiler.slow]
        [Compiler.gate]).toOption.map fun s =>
          decide (∀ i ∈ s.program.toList, 1 ≤ i.duration ∧ i.duration ≤ 2 ^ 53)) = some true := by
      decide +kernel
    obtain ⟨s, hs, hdurations⟩ := Option.map_eq_some_iff.mp hrun
    have hs := toOption_eq_some_iff.mp hs
    have hdurations := of_decide_eq_true hdurations
    exact ⟨s, hs, hdurations, ((assemble_text.2 _ _ _ _ s hs).2 hdurations).2⟩

end PulseSequencer.Assembly
