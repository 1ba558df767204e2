import PulseSequencer.Board.Word
import PulseSequencer.Proofs.Compiler.Shape
import Mathlib.Algebra.Ring.Int.Defs

/-!
# Programs on a board

A program word has a form on a board if its flags fit the outputs, its duration rounds to at least one
tick and its operand fits 32 bits.  A program has one if all its words do; otherwise the first word
without a form is named, with the first of its defects.

* `Representable`, `Defect`, `Word.Holds`: which words have a form, what is reported of the others, and
  what the form keeps.
* `ofInstruction_cases`: one word.
* `wordsOf_cases`: a whole program.
* `unroll_readBack`: the words on the board run as the program does.
* `defect_of_compileWith`: compiled programs have only durations to fail for.
* `wordsOf_faithful`: all together.
-/

namespace PulseSequencer.Board

/-- The word has a form on a board with the given clock. -/
structure Representable (clock : Float) (i : Instruction) : Prop where
  flags : i.flags.toNat < 2 ^ 24
  ticks : ticksOf clock i.duration ≠ 0
  operand : -2 ^ 31 ≤ i.operand ∧ i.operand < 2 ^ 31

theorem representable_iff {clock : Float} {i : Instruction} :
    Representable clock i ↔ i.flags.toNat < 2 ^ 24 ∧ ticksOf clock i.duration ≠ 0 ∧
      -2 ^ 31 ≤ i.operand ∧ i.operand < 2 ^ 31 :=
  ⟨fun h => ⟨h.flags, h.ticks, h.operand⟩, fun ⟨hflags, hticks, hoperand⟩ => ⟨hflags, hticks, hoperand⟩⟩

instance (clock : Float) (i : Instruction) : Decidable (Representable clock i) :=
  decidable_of_iff' _ representable_iff

/-- What is reported of a word without a form: its flags before its duration, and its duration before
its operand. -/
inductive Defect (clock : Float) (i : Instruction) : WordFault → Prop
  | flags (hflags : 2 ^ 24 ≤ i.flags.toNat) : Defect clock i (.flagsTooWide i.flags)
  | duration (hflags : i.flags.toNat < 2 ^ 24) (hticks : ticksOf clock i.duration = 0) :
    Defect clock i (.shorterThanTick i.duration clock)
  | operand (hflags : i.flags.toNat < 2 ^ 24) (hticks : ticksOf clock i.duration ≠ 0)
      (hoperand : ¬ (-2 ^ 31 ≤ i.operand ∧ i.operand < 2 ^ 31)) :
    Defect clock i (.operandOutOfRange i.operand)

/-- The board word has what the program word has, with the duration in ticks. -/
structure Word.Holds (clock : Float) (w : Word) (i : Instruction) : Prop where
  flags : w.flags.toNat = i.flags.toNat
  opcode : w.opcode = i.opcode
  operand : w.operand = i.operand
  ticks : w.ticks = ticksOf clock i.duration

/-- The program word that a board word stands for, held for the given time. -/
def Word.instruction (w : Word) (duration : Nat) : Instruction :=
  { flags := w.flags.setWidth 64, duration, opcode := w.opcode, operand := w.operand }

/-- The program read back from a board, with the given durations. -/
def readBack (words : List Word) (durations : List Nat) : Program :=
  (List.zipWith Word.instruction words durations).toArray

/-! ### One word -/

section Word

variable {clock : Float} {i : Instruction} {w : Word} {fault : WordFault}

theorem operandFits_iff {operand : Int} :
    operandFits operand = true ↔ -2 ^ 31 ≤ operand ∧ operand < 2 ^ 31 := by
  simp only [operandFits, Bool.and_eq_true, decide_eq_true_eq]
  exact Iff.rfl

theorem Defect.not_representable (h : Defect clock i fault) : ¬ Representable clock i := by
  intro hform
  cases h with
  | flags hflags => exact absurd hform.flags (Nat.not_lt.mpr hflags)
  | duration _ hticks => exact hform.ticks hticks
  | operand _ _ hoperand => exact hoperand hform.operand

/-- A word is converted, or its first defect is reported. -/
theorem ofInstruction_cases (clock : Float) (i : Instruction) :
    (Representable clock i ∧ ∃ w, Word.ofInstruction clock i = .ok w ∧ w.Holds clock i) ∨
    ∃ fault, Word.ofInstruction clock i = .error fault ∧ Defect clock i fault := by
  have hfits : i.flags.fits outputs = true ↔ i.flags.toNat < 2 ^ 24 := FlagWord.fits_iff_lt
  unfold Word.ofInstruction
  by_cases hflags : i.flags.toNat < 2 ^ 24
  · rw [if_neg (by simp [hfits.mpr hflags])]
    by_cases hticks : ticksOf clock i.duration = 0
    · rw [if_pos hticks]
      exact .inr ⟨_, rfl, .duration hflags hticks⟩
    · rw [if_neg hticks]
      by_cases hoperand : -2 ^ 31 ≤ i.operand ∧ i.operand < 2 ^ 31
      · rw [if_neg (by simp [operandFits_iff.mpr hoperand])]
        refine .inl ⟨⟨hflags, hticks, hoperand⟩, _, rfl, ?_, rfl, rfl, rfl⟩
        exact (BitVec.toNat_setWidth 24 i.flags).trans (Nat.mod_eq_of_lt hflags)
      · rw [if_pos (by simpa using fun h => hoperand (operandFits_iff.mp h))]
        exact .inr ⟨_, rfl, .operand hflags hticks hoperand⟩
  · rw [if_pos (by simpa using fun h => hflags (hfits.mp h))]
    exact .inr ⟨_, rfl, .flags (Nat.le_of_not_lt hflags)⟩

theorem Word.Holds.bare_instruction (h : w.Holds clock i) :
    bare (w.instruction i.duration) = bare i := by
  have hflags : w.flags.setWidth 64 = i.flags := by
    apply BitVec.eq_of_toNat_eq
    rw [BitVec.toNat_setWidth, h.flags]
    exact Nat.mod_eq_of_lt i.flags.isLt
  simp only [bare, Word.instruction, hflags, h.opcode, h.operand]

end Word

/-! ### A whole program -/

section Program

variable {clock : Float} {s : Sequence} {words : List Word}

theorem wordsOf_of_isPositive (hclock : Binary64.isPositive clock = true) (s : Sequence) :
    wordsOf s clock = s.program.toList.zipIdx.mapM fun (i, address) =>
      (Word.ofInstruction clock i).mapError (.word address) := by
  unfold wordsOf checkClock
  rw [if_pos hclock]
  rfl

/-- The words of a program are all converted, or the first one without a form is named. -/
theorem wordsOf_cases (hclock : Binary64.isPositive clock = true) (s : Sequence) :
    (∃ words, wordsOf s clock = .ok words ∧ (∀ i ∈ s.program.toList, Representable clock i) ∧
      List.Forall₂ (fun i w => w.Holds clock i) s.program.toList words) ∨
    ∃ address i fault, wordsOf s clock = .error (.word address fault) ∧
      s.program[address]? = some i ∧ Defect clock i fault ∧
      ∀ a < address, ∀ j, s.program[a]? = some j → Representable clock j := by
  -- a word that is converted has a form, and the board word holds it
  have hform : ∀ i w, Word.ofInstruction clock i = .ok w →
      Representable clock i ∧ w.Holds clock i := by
    intro i w hw
    rcases ofInstruction_cases clock i with ⟨hform, w', hw', hholds⟩ | ⟨fault, hfault, -⟩
    · obtain rfl := Except.ok.inj (hw'.symm.trans hw)
      exact ⟨hform, hholds⟩
    · cases hfault.symm.trans hw
  cases hwords : wordsOf s clock with
  | ok words =>
    rw [wordsOf_of_isPositive hclock] at hwords
    have hall : List.Forall₂ (fun i w => Representable clock i ∧ w.Holds clock i)
        s.program.toList words := by
      rw [← List.zipIdx_map_fst 0 s.program.toList, List.forall₂_map_left_iff]
      exact (forall₂_of_mapM hwords).imp fun x w hw => hform x.1 w (mapError_eq_ok_iff.mp hw)
    refine .inl ⟨words, rfl, fun i hi => ?_, hall.imp fun _ _ h => h.2⟩
    obtain ⟨w, -, hw⟩ := exists_right_of_mem hall hi
    exact hw.1
  | error e =>
    rw [wordsOf_of_isPositive hclock] at hwords
    obtain ⟨k, ⟨i, address⟩, hi, herror, hbefore⟩ := exists_first_of_mapM_eq_error hwords
    have hget : ∀ a : Nat, s.program.toList.zipIdx[a]? = s.program[a]?.map (·, a) := by
      intro a
      rw [List.getElem?_zipIdx, Array.getElem?_toList, Nat.zero_add]
    obtain ⟨i', hword, heq⟩ := Option.map_eq_some_iff.mp ((hget k).symm.trans hi)
    obtain ⟨rfl, rfl⟩ := Prod.mk.inj heq
    obtain ⟨fault, hfault, rfl⟩ := mapError_eq_error_iff.mp herror
    refine .inr ⟨k, i', fault, rfl, hword, ?_, fun a ha j hj => ?_⟩
    · rcases ofInstruction_cases clock i' with ⟨-, w, hw, -⟩ | ⟨fault', hfault', hdefect⟩
      · cases hfault.symm.trans hw
      · obtain rfl := Except.error.inj (hfault'.symm.trans hfault)
        exact hdefect
    · obtain ⟨w, hw⟩ := hbefore a ha (j, a) (by rw [hget, hj, Option.map_some])
      exact (hform j w (mapError_eq_ok_iff.mp hw)).1

/-- What is read back from a board is the program, labels apart. -/
theorem sameWords_readBack (h : List.Forall₂ (fun i w => w.Holds clock i) s.program.toList words) :
    SameWords (readBack words (s.program.toList.map Instruction.duration)) s.program := by
  have hlists : ∀ {program : List Instruction} {words : List Word},
      List.Forall₂ (fun i w => w.Holds clock i) program words →
        (List.zipWith Word.instruction words (program.map Instruction.duration)).map bare =
          program.map bare := by
    intro program words h
    induction h with
    | nil => rfl
    | cons hholds _ ih =>
      rw [List.map_cons, List.zipWith_cons_cons, List.map_cons, List.map_cons,
        hholds.bare_instruction, ih]
  unfold SameWords readBack
  rw [List.map_toArray, hlists h, ← List.map_toArray, Array.toArray_toList]

/-- What is read back from a board runs as the program does. -/
theorem unroll_readBack {channels : Nat} {limits : Limits}
    (hs : Sequence.ofProgram s.program channels limits = .ok s)
    (h : List.Forall₂ (fun i w => w.Holds clock i) s.program.toList words) :
    Timeline.unroll (readBack words (s.program.toList.map Instruction.duration)) limits =
      .ok s.timeline := by
  obtain ⟨-, -, t, hunroll, hs⟩ := ofProgram_eq_ok_iff.mp hs
  rw [(sameWords_readBack h).unroll_eq, hunroll, hs]

end Program

/-! ### Compiled programs -/

/-- The words of a program compiled for a board have its outputs and no operands of their own. -/
theorem defect_of_compileWith {σ : Type} {observe : Nat → Nat → σ → σ} {start observed : σ}
    {c : Config} {given : Option Nat} {signals masking : List Signal} {s : Sequence}
    (h : Compiler.compileWith observe start c given signals masking = .ok (s, observed))
    (hchannels : c.channels ≤ 24) {clock : Float} {i : Instruction} (hi : i ∈ s.program.toList)
    {fault : WordFault} (hdefect : Defect clock i fault) :
    fault = .shorterThanTick i.duration clock ∧ ticksOf clock i.duration = 0 := by
  obtain ⟨hs, words, flags, duration, hprogram, hcont⟩ := Compiler.straight_of_compileWith h
  obtain ⟨-, hwide, -⟩ := ofProgram_eq_ok_iff.mp hs
  have hflags : i.flags.toNat < 2 ^ 24 :=
    Nat.lt_of_lt_of_le (FlagWord.fits_iff_lt.mp (firstTooWide?_eq_none_iff.mp hwide i hi))
      (Nat.pow_le_pow_right (by decide) hchannels)
  have hoperand : i.operand = 0 := by
    rw [hprogram] at hi
    rcases List.mem_append.mp hi with hi | hi
    · rw [hcont i hi]
      rfl
    · rw [List.mem_singleton.mp hi]
      rfl
  cases hdefect with
  | flags hwide => exact absurd hflags (Nat.not_lt.mpr hwide)
  | duration _ hticks => exact ⟨rfl, hticks⟩
  | operand _ _ hrange => exact absurd (by rw [hoperand]; decide) hrange

/-- **A board holds the program, or its first word without a form is named.**  For every clock, the
program of a sequence is converted exactly if every word has a form on the board.  Then there is one
board word for each program word, with the same flags, opcode and operand, and what is read back runs
as the sequence says.  Otherwise the error names the first word without a form, with its flags before
its duration and that before its operand.  A program compiled for at most 24 channels can only fail
for a duration that is shorter than a tick. -/
theorem wordsOf_faithful {clock : Float} (hclock : Binary64.isPositive clock = true) (s : Sequence) :
    ((∃ words, wordsOf s clock = .ok words) ↔ ∀ i ∈ s.program.toList, Representable clock i) ∧
    (∀ words, wordsOf s clock = .ok words →
      List.Forall₂ (fun i w => w.Holds clock i) s.program.toList words ∧
      ∀ channels limits, Sequence.ofProgram s.program channels limits = .ok s →
        Timeline.unroll (readBack words (s.program.toList.map Instruction.duration)) limits =
          .ok s.timeline) ∧
    (∀ e, wordsOf s clock = .error e → ∃ address i fault, e = .word address fault ∧
      s.program[address]? = some i ∧ Defect clock i fault ∧
      ∀ a < address, ∀ j, s.program[a]? = some j → Representable clock j) ∧
    ∀ {σ : Type} (observe : Nat → Nat → σ → σ) (start observed : σ) (c : Config)
      (given : Option Nat) (signals masking : List Signal),
      Compiler.compileWith observe start c given signals masking = .ok (s, observed) →
      c.channels ≤ 24 → ∀ e, wordsOf s clock = .error e → ∃ address i,
        e = .word address (.shorterThanTick i.duration clock) ∧ s.program[address]? = some i ∧
        ticksOf clock i.duration = 0 := by
  rcases wordsOf_cases hclock s with
    ⟨words, hwords, hform, hholds⟩ | ⟨address, i, fault, herror, hi, hdefect, hbefore⟩
  · refine ⟨iff_of_true ⟨words, hwords⟩ hform, ?_, ?_, ?_⟩
    · intro words' hwords'
      obtain rfl := Except.ok.inj (hwords.symm.trans hwords')
      exact ⟨hholds, fun channels limits hs => unroll_readBack hs hholds⟩
    · intro e he
      cases hwords.symm.trans he
    · intro σ observe start observed c given signals masking _ _ e he
      cases hwords.symm.trans he
  · have hmem : i ∈ s.program.toList := List.mem_of_getElem? (by rwa [Array.getElem?_toList])
    refine ⟨iff_of_false ?_ fun hform => hdefect.not_representable (hform i hmem), ?_, ?_, ?_⟩
    · rintro ⟨words, hwords⟩
      cases herror.symm.trans hwords
    · intro words hwords
      cases herror.symm.trans hwords
    · intro e he
      obtain rfl := Except.error.inj (herror.symm.trans he)
      exact ⟨address, i, fault, rfl, hi, hdefect, hbefore⟩
    · intro σ observe start observed c given signals masking hcompile hchannels e he
      obtain rfl := Except.error.inj (herror.symm.trans he)
      obtain ⟨rfl, hticks⟩ := defect_of_compileWith hcompile hchannels hmem hdefect
      exact ⟨address, i, rfl, hi, hticks⟩

/-- Three passes of a loop with all outputs on and off, over and over; the first word has a label. -/
def ramp : Program :=
  #[⟨some "again", 0xFFFFFF, 1000, .loop, 3⟩, ⟨none, 0, 50, .endLoop, 0⟩, .branch 0 60 0]

-- at 100 MHz every word has a form; at 10 MHz the second one takes half a tick, which rounds to none
theorem wordsOf_faithful_ramp :
    Binary64.isPositive 100 = true ∧ Binary64.isPositive 10 = true ∧
    ∃ s words, Sequence.ofProgram ramp 24 {} = .ok s ∧ wordsOf s 100 = .ok words ∧
      Timeline.unroll (readBack words [1000, 50, 60]) {} = .ok s.timeline ∧
      ∃ address i fault, wordsOf s 10 = .error (.word address fault) ∧ ramp[address]? = some i ∧
        Defect 10 i fault := by
  have hfast : Binary64.isPositive 100 = true := by decide +kernel
  have hslow : Binary64.isPositive 10 = true := by decide +kernel
  have hall : ∀ i ∈ ramp.toList, Representable 100 i := by decide +kernel
  have hshort : ¬ ∀ i ∈ ramp.toList, Representable 10 i := by decide +kernel
  obtain ⟨s, hs⟩ : ∃ s, Sequence.ofProgram ramp 24 {} = .ok s := ⟨_, rfl⟩
  obtain ⟨-, -, t, -, rfl⟩ := ofProgram_eq_ok_iff.mp hs
  obtain ⟨hform, hwords, -, -⟩ := wordsOf_faithful hfast ⟨ramp, 24, t⟩
  obtain ⟨words, hconverted⟩ := hform.mpr hall
  refine ⟨hfast, hslow, _, words, hs, hconverted, (hwords words hconverted).2 24 {} hs, ?_⟩
  obtain ⟨hform, -, herror, -⟩ := wordsOf_faithful hslow ⟨ramp, 24, t⟩
  cases hresult : wordsOf ⟨ramp, 24, t⟩ 10 with
  | ok words => exact absurd (hform.mp ⟨words, hresult⟩) hshort
  | error e =>
    obtain ⟨address, i, fault, rfl, hi, hdefect, -⟩ := herror e hresult
    exact ⟨address, i, fault, rfl, hi, hdefect⟩

end PulseSequencer.Board
