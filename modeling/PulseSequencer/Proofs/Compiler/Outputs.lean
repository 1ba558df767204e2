import PulseSequencer.Proofs.Compiler.Shape
import PulseSequencer.Proofs.Waveform.Coarsening

/-!
# The outputs of compiled programs

Every word of a compiled program, the branch at its end included, sets its outputs by the same rules:
the channels of the board and no others, the reserved ones as followers of the rest, and of the rest
only those that a signal drives.

* `getLsbD_drive`: the channels that are on after others have been made to follow.
* `DrivenBy`: the channels that are on are channels of signals; so it is before the reserved ones follow.
* `Disciplined`: the rules; `disciplined_driveReserved` is the step that establishes them.
* `disciplined_of_compileWith`: all words of a compiled program.
* `outputAt_of_compileWith`: when the outputs show which sample, and when they show none.
-/

namespace PulseSequencer

namespace FlagWord

variable {flags leaders followers : FlagWord} {width reserved n : Nat}

/-- Followers show whether any leader is on; all other channels stay as they are. -/
theorem getLsbD_drive :
    (flags.drive leaders followers).getLsbD n =
      if followers.getLsbD n then decide (flags &&& leaders ≠ 0) else flags.getLsbD n := by
  unfold drive
  by_cases hoff : flags &&& leaders = 0
  · rw [if_pos hoff, getLsbD_without, decide_eq_false (not_not.mpr hoff)]
    cases followers.getLsbD n <;> simp
  · rw [if_neg hoff, BitVec.getLsbD_or, decide_eq_true hoff]
    cases followers.getLsbD n <;> simp

theorem and_widthMask_ne_zero_iff :
    flags &&& widthMask width ≠ 0 ↔ ∃ m < width, flags.getLsbD m = true := by
  have hbit : ∀ m, (flags &&& widthMask width).getLsbD m = true ↔
      m < width ∧ flags.getLsbD m = true := by
    intro m
    rw [BitVec.getLsbD_and, getLsbD_widthMask]
    by_cases hm : m < 64
    · simp [hm, and_comm]
    · simp [BitVec.getLsbD_of_ge flags m (Nat.not_lt.mp hm)]
  constructor
  · intro hne
    by_contra hnone
    refine hne (BitVec.eq_of_getLsbD_eq fun m _ => ?_)
    have hoff : (flags &&& widthMask width).getLsbD m = false :=
      Bool.eq_false_iff.mpr fun hm => hnone ⟨m, (hbit m).mp hm⟩
    simpa using hoff
  · rintro ⟨m, hm, hon⟩ hzero
    have hon := (hbit m).mpr ⟨hm, hon⟩
    simp [hzero] at hon

theorem getLsbD_reservedMask :
    (reservedMask width reserved).getLsbD n = true ↔ n < 64 ∧ n < width ∧ width - reserved ≤ n := by
  rw [reservedMask, getLsbD_without, getLsbD_widthMask, getLsbD_widthMask]
  by_cases hn : n < 64
  · simp [hn]
  · simp [hn]

/-- The channels below the reserved ones stay as they are. -/
theorem getLsbD_driveReserved_of_lt (h : n < width - reserved) :
    (flags.driveReserved width reserved).getLsbD n = flags.getLsbD n := by
  have hnot : (reservedMask width reserved).getLsbD n = false := by
    rw [Bool.eq_false_iff, Ne, getLsbD_reservedMask]
    omega
  rw [driveReserved, getLsbD_drive, hnot]
  rfl

end FlagWord

open FlagWord (Below)

namespace Compiler

open Waveform (sampleAt outputAt)

variable {c : Config} {signals masking : List Signal}

/-! ### The channels of signals -/

/-- Every channel that is on is a channel of one of the signals. -/
def DrivenBy (signals : List Signal) (flags : FlagWord) : Prop :=
  ∀ n, flags.getLsbD n = true → ∃ s ∈ signals, n ∈ s.channels

theorem getLsbD_mask_iff {s : ChannelSet} {n : Nat} : s.mask.getLsbD n = true ↔ n < 64 ∧ n ∈ s := by
  rw [ChannelSet.mask, FlagWord.getLsbD_ofChannels, Bool.and_eq_true, decide_eq_true_iff,
    decide_eq_true_iff, ChannelSet.mem_def]

theorem drivenBy_activeLowMask (signals : List Signal) : DrivenBy signals (activeLowMask signals) := by
  intro n hn
  obtain ⟨s, hs, -, hbit⟩ := getLsbD_activeLowMask.mp hn
  exact ⟨s, hs, (getLsbD_mask_iff.mp hbit).2⟩

theorem drivenBy_activeAt {pulses : List Pulse}
    (h : ∀ p ∈ pulses, ∃ s ∈ signals, p.channels = s.channels) (k : Nat) :
    DrivenBy signals (Waveform.activeAt pulses k) := by
  intro n hn
  rw [Waveform.activeAt, Waveform.getLsbD_drivenChannels, List.any_eq_true] at hn
  obtain ⟨p, hp, hbit⟩ := hn
  obtain ⟨s, hs, hchannels⟩ := h p (List.mem_of_mem_filter hp)
  exact ⟨s, hs, hchannels ▸ (getLsbD_mask_iff.mp hbit).2⟩

theorem DrivenBy.without {a : FlagWord} (h : DrivenBy signals a) (b : FlagWord) :
    DrivenBy signals (a.without b) := by
  intro n hn
  rw [FlagWord.getLsbD_without, Bool.and_eq_true] at hn
  exact h n hn.1

theorem DrivenBy.xor {a b : FlagWord} (ha : DrivenBy signals a) (hb : DrivenBy signals b) :
    DrivenBy signals (a ^^^ b) := by
  intro n hn
  rw [BitVec.getLsbD_xor] at hn
  cases hbit : a.getLsbD n with
  | true => exact ha n hbit
  | false =>
    rw [hbit, Bool.false_xor] at hn
    exact hb n hn

/-! ### The rules for outputs -/

/-- Outputs that keep to the rules of a board. -/
structure Disciplined (c : Config) (signals : List Signal) (flags : FlagWord) : Prop where
  /-- No channel is on that the board does not have. -/
  within : ∀ n, c.channels ≤ n → flags.isOn n = false
  /-- A reserved channel is on if any channel below the reserved ones is on. -/
  following : ∀ n, c.channels - c.reserved ≤ n → n < c.channels →
    (flags.isOn n = true ↔ ∃ m < c.channels - c.reserved, flags.isOn m = true)
  /-- Below the reserved ones, only channels of signals are on. -/
  driven : ∀ n < c.channels - c.reserved, (∀ s ∈ signals, n ∉ s.channels) → flags.isOn n = false

/-- Channels of signals, and reserved ones that follow them, keep to the rules. -/
theorem disciplined_driveReserved (hvalid : Valid c signals masking) {flags : FlagWord}
    (h : DrivenBy signals flags) :
    Disciplined c signals (flags.driveReserved c.channels c.reserved) := by
  have hwidth := hvalid.le_maxChannels
  have hlow : ∀ n, flags.getLsbD n = true → n < c.channels - c.reserved := by
    intro n hn
    obtain ⟨s, hs, hmem⟩ := h n hn
    exact hvalid.controllable s (List.mem_append_left masking hs) n hmem
  refine ⟨?_, ?_, ?_⟩
  · have hbelow : Below c.channels flags := by
      intro n hn
      rw [Bool.eq_false_iff]
      intro hon
      have := hlow n hon
      omega
    exact hbelow.drive (below_reservedMask c.channels c.reserved)
  · intro n hle hlt
    have hfollows : (FlagWord.reservedMask c.channels c.reserved).getLsbD n = true :=
      FlagWord.getLsbD_reservedMask.mpr ⟨by omega, hlt, hle⟩
    have hsame : (∃ m < c.channels - c.reserved, flags.getLsbD m = true) ↔
        ∃ m < c.channels - c.reserved,
          (flags.driveReserved c.channels c.reserved).getLsbD m = true := by
      refine exists_congr fun m => and_congr_right fun hm => ?_
      rw [FlagWord.getLsbD_driveReserved_of_lt hm]
    show (flags.driveReserved c.channels c.reserved).getLsbD n = true ↔ _
    rw [FlagWord.driveReserved, FlagWord.getLsbD_drive, hfollows, if_pos rfl, decide_eq_true_iff,
      FlagWord.and_widthMask_ne_zero_iff, hsame]
    rfl
  · intro n hn hnone
    show (flags.driveReserved c.channels c.reserved).getLsbD n = false
    rw [FlagWord.getLsbD_driveReserved_of_lt hn, Bool.eq_false_iff]
    intro hon
    obtain ⟨s, hs, hmem⟩ := h n hon
    exact hnone s hs hmem

/-- The branch at the end shows the active-low signals. -/
theorem isOn_allOff_iff (hvalid : Valid c signals masking) {n : Nat}
    (hn : n < c.channels - c.reserved) :
    (outputStage c.channels c.reserved signals).allOff.isOn n = true ↔
      ∃ s ∈ signals, s.activeHigh = false ∧ n ∈ s.channels := by
  have hwidth := hvalid.le_maxChannels
  have hbit : ∀ s : Signal, s.channels.mask.getLsbD n = true ↔ n ∈ s.channels :=
    fun s => getLsbD_mask_iff.trans (and_iff_right (by omega))
  show ((activeLowMask signals).driveReserved c.channels c.reserved).getLsbD n = true ↔ _
  rw [FlagWord.getLsbD_driveReserved_of_lt hn, getLsbD_activeLowMask]
  simp only [hbit]

/-! ### Compiled programs -/

variable {σ : Type} {observe : Nat → Nat → σ → σ} {start observed : σ} {given : Option Nat}

/-- **Discipline of the outputs.**  Every word of a compiled program keeps to the rules of the board.
The last one is the branch to the first, and below the reserved channels it has exactly the channels
of the active-low signals on. -/
theorem disciplined_of_compileWith {s : Sequence}
    (h : compileWith observe start c given signals masking = .ok (s, observed)) :
    (∀ i ∈ s.program.toList, Disciplined c signals i.flags) ∧
      ∃ words last, s.program.toList = words ++ [last] ∧ last.opcode = .branch ∧ last.operand = 0 ∧
        ∀ n < c.channels - c.reserved,
          (last.flags.isOn n = true ↔ ∃ s ∈ signals, s.activeHigh = false ∧ n ∈ s.channels) := by
  obtain ⟨hvalid, synchrony, q, hsync, hquantize, -, hsequence⟩ := exists_stages_of_compileWith h
  have hvalid := valid_of_validate hvalid
  obtain ⟨hstep, -⟩ := sampled_of_stages hsync hquantize
  obtain ⟨hmerged, hexpand⟩ := Waveform.simulateWith_merged observe start
    (outputStage c.channels c.reserved signals) q.pulses q.masking hstep
    (sampledCycles synchrony.duration q.step)
  obtain ⟨-, -, t, -, rfl⟩ := ofProgram_eq_ok_iff.mp hsequence
  refine ⟨fun i hi => ?_, _, _, rfl, rfl, rfl, fun n hn => isOn_allOff_iff hvalid hn⟩
  rcases List.mem_append.mp hi with hi | hi
  · obtain ⟨k, hk⟩ := exists_sample_of_mem hmerged hexpand hi
    rw [hk]
    have hactive := drivenBy_activeAt (fun p hp => exists_signal_of_pulse hquantize hp) k
    exact disciplined_driveReserved hvalid
      ((hactive.without (Waveform.maskedAt q.masking k)).xor (drivenBy_activeLowMask signals))
  · rw [List.mem_singleton.mp hi]
    exact disciplined_driveReserved hvalid (drivenBy_activeLowMask signals)

-- the branch switches the active-low signal on channel 2 high, and with it the three reserved channels
theorem disciplined_of_compileWith_gated :
    ∃ s, compileWith (fun _ _ => id) () {} none [fast, slow] [gate] = .ok (s, ()) ∧
      (∀ i ∈ s.program.toList, Disciplined {} [fast, slow] i.flags) ∧
      s.program.toList.getLast?.map Instruction.flags = some 0xe00004 := by
  have hrun : (compileWith (fun _ _ => id) () {} none [fast, slow] [gate]).toOption.map
      (fun r => r.1.program.toList.getLast?.map Instruction.flags) = some (some 0xe00004) := by
    decide +kernel
  obtain ⟨⟨s, ⟨⟩⟩, hs, hlast⟩ := Option.map_eq_some_iff.mp hrun
  have hs := toOption_eq_some_iff.mp hs
  exact ⟨s, hs, (disciplined_of_compileWith hs).1, hlast⟩

/-- A compiled program shows in each quantum the sample of the pulses as they are counted in quanta, up
to the last step of `q.factor` quanta, in which everything is off.  So it shows what the program in
quanta would show exactly if a step is a quantum or the last sample has everything off anyway. -/
theorem outputAt_of_compileWith {s : Sequence}
    (h : compileWith observe start c given signals masking = .ok (s, observed)) :
    ∃ synchrony q counted, Synchrony.ofSignals c given signals masking = .ok synchrony ∧
      quantize c signals masking synchrony = .ok q ∧
      counted.coarsen q.factor = q ∧ counted.step = c.quantum ∧
      (∀ p ∈ counted.pulses ++ counted.masking, p.CountedBy q.factor) ∧
      (∀ t < synchrony.cycles * c.quantum, outputAt s.program.toList t =
        some (if t / c.quantum < synchrony.cycles - q.factor then
            sampleAt (outputStage c.channels c.reserved signals) counted.pulses counted.masking
              (t / c.quantum)
          else (outputStage c.channels c.reserved signals).allOff)) ∧
      ((∀ t < synchrony.cycles * c.quantum,
          outputAt (programWith observe start (outputStage c.channels c.reserved signals) counted
            (synchrony.cycles - 1)).1 t = outputAt s.program.toList t) ↔
        q.factor = 1 ∨
          sampleAt (outputStage c.channels c.reserved signals) counted.pulses counted.masking
            (synchrony.cycles - 1) = (outputStage c.channels c.reserved signals).allOff) := by
  obtain ⟨-, synchrony, q, hsync, hquantize, -, hsequence⟩ := exists_stages_of_compileWith h
  obtain ⟨hquantum, hcycles, -⟩ := Synchrony.ofSignals_eq_ok hsync
  have hpos : 0 < synchrony.cycles := hcycles ▸ cycles_pos_of_ofSignals hsync
  obtain ⟨hstep, hfactor, hdvd⟩ := step_of_quantize hquantize hpos
  obtain ⟨_, _, -, -, hq⟩ := quantize_eq_ok hquantize
  obtain ⟨counted, hcounted, hcoarse, -, hcounts⟩ := Quantization.exists_coarsen_of_ofSignals hq hpos
  have hshort : 0 < counted.step := hcounted ▸ Nat.pos_of_ne_zero hquantum
  have hlong : sampledCycles synchrony.duration q.step = synchrony.cycles / q.factor - 1 := by
    rw [sampledCycles, hstep, hcycles, Nat.div_div_eq_div_mul]
  obtain ⟨-, -, t, -, rfl⟩ := ofProgram_eq_ok_iff.mp hsequence
  refine ⟨synchrony, q, counted, hsync, hquantize, hcoarse, hcounted, hcounts, ?_⟩
  have hshown := fun (t : Nat) (ht : t < synchrony.cycles * counted.step) =>
    outputAt_coarsen (outputStage c.channels c.reserved signals) hshort hfactor hpos hdvd hcounts
      observe start ht
  have hlost := forall_outputAt_eq_iff (outputStage c.channels c.reserved signals) hshort hfactor hpos
    hdvd hcounts observe start
  rw [hcoarse, hcounted] at hshown hlost
  rw [← hlong] at hshown hlost
  exact ⟨hshown, hlost⟩

end Compiler

end PulseSequencer
