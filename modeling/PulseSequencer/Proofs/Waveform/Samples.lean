import PulseSequencer.Compiler
import PulseSequencer.Proofs.Waveform.Counters
import Mathlib.Data.List.Chain

/-!
# The words of a sampling stand for its samples

`Waveform.sampleAt` is the output in a cycle in closed form.  A sampling reaches the same outputs with
counters, and merges equal neighbours as it goes.

* `Waveform.expand`: the outputs that words stand for, one for every step.
* `Merged`: what every list of words keeps that samples are pushed to.
* `Tracks`: the state of a sampling in front of cycle `k`; `Tracks.sample` is one cycle,
  `Tracks.sampleFrom` a whole run.
* `simulateWith_waveform`: the words of a sampling expand to the samples, cycle by cycle.
-/

namespace PulseSequencer.Waveform

variable {σ : Type}

/-- The outputs that words stand for, one for every step of `step` ns. -/
def expand (step : Nat) (words : List Instruction) : List FlagWord :=
  words.flatMap fun i => List.replicate (i.duration / step) i.flags

/-- The outputs in cycle `k`. -/
def sampleAt (o : OutputStage) (pulses masking : List Pulse) (k : Nat) : FlagWord :=
  o.flags ((activeAt pulses k).without (maskedAt masking k))

/-! ### Merging -/

/-- Words that hold whole numbers of steps, of which no two neighbours could be merged. -/
structure Merged (step : Nat) (words : List Instruction) : Prop where
  cont : ∀ i ∈ words, i = .cont i.flags i.duration
  positive : ∀ i ∈ words, 0 < i.duration
  whole : ∀ i ∈ words, step ∣ i.duration
  distinct : words.IsChain fun a b => a.flags ≠ b.flags

theorem merged_nil (step : Nat) : Merged step [] :=
  ⟨by simp, by simp, by simp, .nil⟩

theorem Merged.reverse {step : Nat} {words : List Instruction} (h : Merged step words) :
    Merged step words.reverse := by
  refine ⟨fun i hi => h.cont i (List.mem_reverse.mp hi),
    fun i hi => h.positive i (List.mem_reverse.mp hi),
    fun i hi => h.whole i (List.mem_reverse.mp hi), ?_⟩
  rw [List.isChain_reverse]
  exact h.distinct.imp fun _ _ hab => hab.symm

theorem Merged.push {step : Nat} (hstep : 0 < step) (flags : FlagWord) {words : List Instruction}
    (h : Merged step words) : Merged step (push step flags words) := by
  cases words with
  | nil =>
    refine ⟨?_, ?_, ?_, .singleton _⟩ <;> simp [Waveform.push, Instruction.cont, hstep]
  | cons last rest =>
    by_cases heq : last.flags = flags
    · -- the last word grows by one step and keeps its outputs
      rw [Waveform.push, if_pos heq]
      obtain ⟨hlast, hcont⟩ := List.forall_mem_cons.mp h.cont
      obtain ⟨hp, hpos⟩ := List.forall_mem_cons.mp h.positive
      obtain ⟨hw, hwhole⟩ := List.forall_mem_cons.mp h.whole
      refine ⟨List.forall_mem_cons.mpr ⟨?_, hcont⟩, List.forall_mem_cons.mpr ⟨?_, hpos⟩,
        List.forall_mem_cons.mpr ⟨?_, hwhole⟩, ?_⟩
      · rw [hlast]; rfl
      · show 0 < last.duration + step
        omega
      · exact Nat.dvd_add hw (Nat.dvd_refl step)
      · cases h.distinct with
        | singleton => exact .singleton _
        | cons_cons hab hrest => exact .cons_cons hab hrest
    · rw [Waveform.push, if_neg heq]
      refine ⟨List.forall_mem_cons.mpr ⟨rfl, h.cont⟩, List.forall_mem_cons.mpr ⟨hstep, h.positive⟩,
        List.forall_mem_cons.mpr ⟨Nat.dvd_refl step, h.whole⟩, .cons_cons ?_ h.distinct⟩
      exact fun h' => heq h'.symm

theorem expand_append (step : Nat) (xs ys : List Instruction) :
    expand step (xs ++ ys) = expand step xs ++ expand step ys :=
  List.flatMap_append

theorem expand_singleton (step : Nat) (i : Instruction) :
    expand step [i] = List.replicate (i.duration / step) i.flags :=
  List.flatMap_singleton _ i

/-- Pushing a sample appends it to the expansion, merged or not. -/
theorem expand_push {step : Nat} (hstep : 0 < step) (flags : FlagWord) (words : List Instruction) :
    expand step (push step flags words).reverse = expand step words.reverse ++ [flags] := by
  have hone : expand step [.cont flags step] = [flags] := by
    rw [expand_singleton]
    simp [Instruction.cont, Nat.div_self hstep]
  cases words with
  | nil => exact hone
  | cons last rest =>
    by_cases heq : last.flags = flags
    · rw [push, if_pos heq]
      simp only [List.reverse_cons, expand_append, expand_singleton, List.append_assoc]
      rw [Nat.add_div_right _ hstep, List.replicate_succ', heq]
    · rw [push, if_neg heq, List.reverse_cons, expand_append, hone]

/-- The durations of merged words add up to the length of their expansion. -/
theorem Merged.sum_durations {step : Nat} {words : List Instruction} (h : Merged step words) :
    Timeline.sum (words.map Instruction.duration) = (expand step words).length * step := by
  have hwhole := h.whole
  clear h
  induction words with
  | nil => simp [Timeline.sum, expand]
  | cons i rest ih =>
    obtain ⟨hi, hrest⟩ := List.forall_mem_cons.mp hwhole
    have hexp : (expand step (i :: rest)).length = i.duration / step + (expand step rest).length := by
      simp [expand]
    rw [List.map_cons, Timeline.sum_cons, hexp, ih hrest, Nat.add_mul, Nat.div_mul_cancel hi]

/-! ### A run of the sampler -/

/-- The state of a sampling in front of cycle `k`: every counter is where its closed form says, and the
words stand for the samples of the cycles before. -/
structure Tracks (u : Setup σ) (pulses masking : List Pulse) (k : Nat) (s : Sampler σ) : Prop where
  primary_eq : s.primary = pulses.map (.atCycle k)
  masking_eq : s.masking = masking.map (.atCycle k)
  merged : Merged u.step s.words
  samples : expand u.step s.words.reverse =
    (List.range k).map (sampleAt u.output pulses masking)

/-- The counters find the sample of a cycle. -/
theorem flags_atCycle (o : OutputStage) (pulses masking : List Pulse) (k : Nat) :
    o.flags (PulseCounter.activeChannels (pulses.map (.atCycle k)) k &&&
      PulseCounter.openChannels (masking.map (.atCycle k)) k (drivenChannels pulses)) =
        sampleAt o pulses masking k := by
  rw [activeChannels_atCycle, openChannels_atCycle, activeAt_and_without]
  rfl

variable {u : Setup σ} {pulses masking : List Pulse} {s : Sampler σ}

theorem Tracks.sample {k : Nat} (hstep : 0 < u.step) (hdriven : u.driven = drivenChannels pulses)
    (h : Tracks u pulses masking k s) : Tracks u pulses masking (k + 1) (sample u k s) := by
  have hflags : u.output.flags (PulseCounter.activeChannels s.primary k &&&
      PulseCounter.openChannels s.masking k u.driven) = sampleAt u.output pulses masking k := by
    rw [h.primary_eq, h.masking_eq, hdriven, flags_atCycle]
  refine ⟨?_, ?_, h.merged.push hstep _, ?_⟩
  · show s.primary.map (PulseCounter.tick k) = _
    rw [h.primary_eq, PulseCounter.map_tick_atCycle]
  · show s.masking.map (PulseCounter.tick k) = _
    rw [h.masking_eq, PulseCounter.map_tick_atCycle]
  · show expand u.step (push u.step _ s.words).reverse = _
    rw [hflags, expand_push hstep, h.samples, List.range_succ, List.map_append, List.map_singleton]

theorem Tracks.sampleFrom (hstep : 0 < u.step) (hdriven : u.driven = drivenChannels pulses)
    (remaining : Nat) {k : Nat} (h : Tracks u pulses masking k s) :
    Tracks u pulses masking (k + remaining) (sampleFrom u remaining k s) := by
  induction remaining generalizing k s with
  | zero => exact h
  | succ remaining ih =>
    have hnext := ih (h.sample hstep hdriven)
    rwa [Nat.add_right_comm] at hnext

/-- A sampling starts with every counter at zero and without words. -/
theorem tracks_start (u : Setup σ) (pulses masking : List Pulse) (start : σ) :
    Tracks u pulses masking 0
      { primary := pulses.map .ofPulse, masking := masking.map .ofPulse, words := []
        observed := start } := by
  refine ⟨?_, ?_, merged_nil u.step, rfl⟩
  · exact List.map_congr_left fun p _ => (PulseCounter.atCycle_zero p).symm
  · exact List.map_congr_left fun p _ => (PulseCounter.atCycle_zero p).symm

/-- The words of a sampling are merged and expand to the samples of its cycles. -/
theorem simulateWith_merged (observe : Nat → Nat → σ → σ) (start : σ) (o : OutputStage)
    (pulses masking : List Pulse) {step : Nat} (hstep : 0 < step) (cycles : Nat) :
    Merged step (simulateWith observe start o pulses masking step cycles).1 ∧
      expand step (simulateWith observe start o pulses masking step cycles).1 =
        (List.range cycles).map (sampleAt o pulses masking) := by
  let u : Setup σ := { output := o, step, driven := drivenChannels pulses, cycles, observe }
  have hrun := (tracks_start u pulses masking start).sampleFrom hstep rfl cycles
  rw [Nat.zero_add] at hrun
  exact ⟨hrun.merged.reverse, hrun.samples⟩

/-- **The waveform of a sampling.**  The words expand to one output for each of the `N` cycles: the
channels of the pulses that are high, without those of the masking pulses that are low, inverted for
active-low signals, and with the reserved channels following.  Every word goes on to the next one
and holds for a positive whole number of steps that fits a word, and no two neighbours are equal. -/
theorem simulateWith_waveform (observe : Nat → Nat → σ → σ) (start : σ) (channels reserved : Nat)
    (signals : List Signal) (Q : Quantization) (N : Nat) (hq : 0 < Q.step)
    (hN : N * Q.step < wordLimit) :
    let words := (simulateWith observe start (Compiler.outputStage channels reserved signals)
      Q.pulses Q.masking Q.step N).1
    (expand Q.step words).length = N ∧
    (∀ k < N, (expand Q.step words)[k]? = some (FlagWord.driveReserved
      ((activeAt Q.pulses k).without (maskedAt Q.masking k) ^^^ Compiler.activeLowMask signals)
      channels reserved)) ∧
    (∀ i ∈ words, i = .cont i.flags i.duration ∧ 0 < i.duration ∧ Q.step ∣ i.duration ∧
      i.duration < wordLimit) ∧
    words.IsChain fun a b => a.flags ≠ b.flags := by
  intro words
  obtain ⟨hmerged, hexpand⟩ := simulateWith_merged observe start
    (Compiler.outputStage channels reserved signals) Q.pulses Q.masking hq N
  have hlength : (expand Q.step words).length = N := by
    rw [hexpand, List.length_map, List.length_range]
  refine ⟨hlength, ?_, ?_, hmerged.distinct⟩
  · intro k hk
    rw [hexpand, List.getElem?_map, List.getElem?_range hk]
    rfl
  · intro i hi
    refine ⟨hmerged.cont i hi, hmerged.positive i hi, hmerged.whole i hi, ?_⟩
    have hle := Timeline.le_sum_of_mem (List.mem_map_of_mem (f := Instruction.duration) hi)
    rw [hmerged.sum_durations, hlength] at hle
    exact Nat.lt_of_le_of_lt hle hN

/-- A late pulse on channel 0 that a masking pulse gates, and one on channel 1. -/
def gated : Quantization where
  pulses := [{ period := 3, offset := 1, high := 2, channels := .ofList [0] },
    { period := 2, high := 1, channels := .ofList [1] }]
  masking := [{ period := 4, high := 2, channels := .ofList [0] }]
  step := 20
  factor := 1

/-- A signal whose output is low while it is on. -/
def inverted : Signal where
  frequency := 1
  channels := .ofList [1]
  offset := 0
  dutyCycle := 0.5
  high := 0
  activeHigh := false
  authority := .dutyCycle

-- cycle 2: channel 0 is gated, channel 1 is on and inverted, so the reserved channel 3 is off
-- cycle 5: channel 0 passes, channel 1 is off and inverted, so the reserved channel 3 is on
theorem simulateWith_waveform_gated :
    let words := (simulateWith (fun _ _ => id) () (Compiler.outputStage 4 1 [inverted])
      gated.pulses gated.masking gated.step 6).1
    0 < gated.step ∧ 6 * gated.step < wordLimit ∧ (expand gated.step words).length = 6 ∧
      (expand gated.step words)[2]? = some 0b0000 ∧ (expand gated.step words)[5]? = some 0b1011 := by
  have hwave := simulateWith_waveform (fun _ _ => id) () 4 1 [inverted] gated 6 (by decide) (by decide)
  refine ⟨by decide, by decide, hwave.1, (hwave.2.1 2 (by decide)).trans ?_,
    (hwave.2.1 5 (by decide)).trans ?_⟩
  · decide +kernel
  · decide +kernel

end PulseSequencer.Waveform
