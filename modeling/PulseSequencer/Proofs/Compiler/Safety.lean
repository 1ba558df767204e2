import PulseSequencer.Proofs.Compiler.Shape
import PulseSequencer.Proofs.Failures
import PulseSequencer.Proofs.Waveform.Runs

/-!
# Arithmetic after synchronization

Once signals have a duration of at least one quantum that fits a word, nothing that is computed from it
leaves the word, divides by zero or shifts too far.

* `SafePulse`: what is relied on for each counted pulse, now and in longer steps.
* `SafeState`: what is relied on in each state of a sampling; `safeState_stateAt` says that a sampling
  never leaves such states.
* `kind_of_quantize`: the only failures are signals that cannot have their frequency, and periods shorter
  than the quantum.
* `quantize_safe`: all stages together.
-/

namespace PulseSequencer

/-! ### States of a sampling -/

namespace Waveform

variable {σ : Type}

/-- No counter can leave the word by ticking once more, and no word is longer than the duration. -/
structure SafeState (duration : Nat) (s : Sampler σ) : Prop where
  elapsed : ∀ k ∈ s.primary ++ s.masking, k.elapsed < k.pulse.period ∧ k.elapsed + 1 < wordLimit
  durations : ∀ i ∈ s.words, i.duration ≤ duration

theorem elapsed_of_mem_ran {pulses : List Pulse}
    (h : ∀ p ∈ pulses, 0 < p.period ∧ p.period < wordLimit) {k : Nat} {counter : PulseCounter}
    (hmem : counter ∈ PulseCounter.ran pulses k) :
    counter.elapsed < counter.pulse.period ∧ counter.elapsed + 1 < wordLimit := by
  rw [PulseCounter.ran_eq_atCycle] at hmem
  obtain ⟨p, hp, rfl⟩ := List.mem_map.mp hmem
  obtain ⟨hpos, hword⟩ := h p hp
  have hlt : (k - p.offset) % p.period < p.period := Nat.mod_lt _ hpos
  exact ⟨hlt, Nat.lt_of_le_of_lt hlt hword⟩

/-- A sampling of whole steps that fit into the duration goes through safe states only. -/
theorem safeState_stateAt (observe : Nat → Nat → σ → σ) (start : σ) (o : OutputStage)
    {pulses masking : List Pulse} (h : ∀ p ∈ pulses ++ masking, 0 < p.period ∧ p.period < wordLimit)
    {step duration k : Nat} (hstep : 0 < step) (hk : k * step ≤ duration) (cycles : Nat) :
    SafeState duration (stateAt (.ofPulses observe o pulses step cycles) pulses masking start k) := by
  rw [List.forall_mem_append] at h
  have htracks := tracks_stateAt masking start k
    (u := .ofPulses observe o pulses step cycles) hstep rfl
  constructor
  · intro counter hmem
    rw [primary_stateAt, masking_stateAt] at hmem
    rcases List.mem_append.mp hmem with hmem | hmem
    · exact elapsed_of_mem_ran h.1 hmem
    · exact elapsed_of_mem_ran h.2 hmem
  · intro i hi
    have hle := Timeline.le_sum_of_mem
      (List.mem_map_of_mem (f := Instruction.duration) (List.mem_reverse.mpr hi))
    have hsum := htracks.merged.reverse.sum_durations
    rw [htracks.samples, List.length_map, List.length_range] at hsum
    rw [hsum] at hle
    exact Nat.le_trans hle hk

end Waveform

namespace Compiler

variable {c : Config} {signals masking : List Signal} {y : Synchrony} {q : Quantization}

/-! ### Counted pulses -/

/-- A counted pulse that steps of `factor` quanta count without a rest.  All its counts are words, its
period is at least one step, and its channels are bits of a flag word. -/
structure SafePulse (factor : Nat) (p : Pulse) : Prop where
  period : 1 ≤ p.period
  coarsePeriod : 1 ≤ (p.coarsen factor).period
  counted : p.CountedBy factor
  words : p.period < wordLimit ∧ p.offset < wordLimit ∧ p.high < wordLimit
  shifts : ∀ n ∈ p.channels, n < 64

/-- Signals of the given frequencies, counted in quanta. -/
def count (c : Config) (signals : List Signal) (frequencies : List Float) :
    Except CompileError (List Pulse) :=
  rescale signals frequencies >>= Quantization.pulsesOf c.quantum

theorem exists_signal_of_count {frequencies : List Float} {pulses : List Pulse}
    (h : count c signals frequencies = .ok pulses) {p : Pulse} (hp : p ∈ pulses) :
    (∃ s ∈ signals, p.channels = s.channels) ∧
      0 < p.period ∧ p.period < wordLimit ∧ p.offset < wordLimit ∧ p.high < wordLimit := by
  obtain ⟨rescaled, hrescaled, hpulses⟩ := bind_eq_ok_iff.mp h
  obtain ⟨s', hs', hcount⟩ := exists_of_mem_mapM hpulses hp
  obtain ⟨s, hs, -, -, -, hsame⟩ := exists_of_mem_rescale hrescaled hs'
  exact ⟨⟨s, hs, (Quantization.pulseOf_eq_ok hcount).1.trans hsame⟩,
    Quantization.counts_of_pulseOf hcount⟩

/-- Counting in steps is counting in quanta first. -/
theorem exists_counts_of_quantize (h : quantize c signals masking y = .ok q) :
    ∃ pulses maskingPulses, count c signals (y.frequencies.take signals.length) = .ok pulses ∧
      count c masking (y.frequencies.drop signals.length) = .ok maskingPulses ∧
      q.factor = Quantization.commonFactor (pulses ++ maskingPulses) y.cycles ∧
      q.pulses = pulses.map (Pulse.coarsen q.factor) ∧
      q.masking = maskingPulses.map (Pulse.coarsen q.factor) ∧ q.step = c.quantum * q.factor := by
  obtain ⟨rescaled, rescaledMasking, hrescaled, hrescaledMasking, hofSignals⟩ := quantize_eq_ok h
  obtain ⟨pulses, maskingPulses, hpulses, hmasking, hrest⟩ := Quantization.ofSignals_eq_ok hofSignals
  exact ⟨pulses, maskingPulses, bind_eq_ok_iff.mpr ⟨rescaled, hrescaled, hpulses⟩,
    bind_eq_ok_iff.mpr ⟨rescaledMasking, hrescaledMasking, hmasking⟩, hrest⟩

theorem safePulse_of_count {frequencies : List Float} {pulses all : List Pulse} {cycles : Nat}
    (hchannels : ∀ s ∈ signals, ∀ n ∈ s.channels, n < 64) (hcycles : 0 < cycles)
    (h : count c signals frequencies = .ok pulses) {p : Pulse} (hp : p ∈ pulses) (hall : p ∈ all) :
    SafePulse (Quantization.commonFactor all cycles) p := by
  obtain ⟨⟨s, hs, hsame⟩, hpos, hwords⟩ := exists_signal_of_count h hp
  have hcounted := Quantization.countedBy_commonFactor hcycles hall
  refine ⟨hpos, ?_, hcounted, hwords, ?_⟩
  · -- the factor divides the period, so it is not longer
    exact Nat.div_pos (Nat.le_of_dvd hpos hcounted.period) (Quantization.commonFactor_pos _ _)
  · rw [hsame]
    exact hchannels s hs

/-! ### Failures -/

theorem Valid.lt_maxChannels (h : Valid c signals masking) {s : Signal} (hs : s ∈ signals ++ masking)
    {n : Nat} (hn : n ∈ s.channels) : n < 64 := by
  have hwidth := h.le_maxChannels
  have hlt := h.controllable s hs n hn
  omega

/-- As many quanta as divide the whole quanta of a duration fit into it. -/
theorem mul_le_of_dvd_div {quantum factor duration : Nat} (hquantum : 0 < quantum)
    (hcycles : 0 < duration / quantum) (h : factor ∣ duration / quantum) :
    quantum * factor ≤ duration := by
  have hle := Nat.le_of_dvd hcycles h
  rwa [Nat.le_div_iff_mul_le hquantum, Nat.mul_comm] at hle

theorem kind_of_quantize {e : CompileError} (hquantum : 0 < c.quantum)
    (hcycles : y.cycles = y.duration / c.quantum) (hpos : 0 < y.duration / c.quantum)
    (hword : y.duration < wordLimit) (h : quantize c signals masking y = .error e) :
    e.kind = .invalidSignal ∨ e.kind = .synchronization := by
  unfold quantize at h
  rcases bind_eq_error_iff.mp h with h | ⟨rescaled, -, h⟩
  · exact .inl (kind_of_rescale h)
  rcases bind_eq_error_iff.mp h with h | ⟨rescaledMasking, -, h⟩
  · exact .inl (kind_of_rescale h)
  unfold Quantization.ofSignals at h
  rcases bind_eq_error_iff.mp h with h | ⟨pulses, -, h⟩
  · exact .inr (kind_of_pulsesOf h)
  rcases bind_eq_error_iff.mp h with h | ⟨maskingPulses, -, h⟩
  · exact .inr (kind_of_pulsesOf h)
  -- the step fits into the duration, and so into the word
  have hfactor := Quantization.commonFactor_dvd (pulses ++ maskingPulses) hpos
  have hle := mul_le_of_dvd_div hquantum hpos hfactor
  rw [← hcycles] at hle
  have hstep : CompileError.ofArithmetic (Word.mul c.quantum
      (Quantization.commonFactor (pulses ++ maskingPulses) y.cycles)) = .ok _ :=
    mapError_eq_ok_iff.mpr (Word.fit_eq_ok_iff.mpr ⟨Nat.lt_of_le_of_lt hle hword, rfl⟩)
  rcases bind_eq_error_iff.mp h with h | ⟨step, -, h⟩
  · rw [hstep] at h
    cases h
  · cases h

variable {σ : Type} {observe : Nat → Nat → σ → σ} {start : σ} {given : Option Nat}

/-- After synchronization, an arithmetic fault could only come from counting in steps. -/
theorem kind_of_compileWith {e : CompileError} (hvalid : validate c signals masking = .ok ())
    (hsync : Synchrony.ofSignals c given signals masking = .ok y)
    (hquantize : ∀ e, quantize c signals masking y = .error e → e.kind ≠ .arithmetic)
    (h : compileWith observe start c given signals masking = .error e) : e.kind ≠ .arithmetic := by
  unfold compileWith at h
  rcases bind_eq_error_iff.mp h with h | ⟨⟨⟩, -, h⟩
  · rw [hvalid] at h
    cases h
  rw [hsync] at h
  rcases bind_eq_error_iff.mp h with h | ⟨y', hy', h⟩
  · cases h
  cases hy'
  rcases bind_eq_error_iff.mp h with h | ⟨q, -, h⟩
  · exact hquantize e h
  rcases bind_eq_error_iff.mp h with h | ⟨⟨⟩, -, h⟩
  · simp [kind_of_checkSteps h]
  rcases bind_eq_error_iff.mp h with h | ⟨s, -, h⟩
  · rcases Sequence.kind_of_ofProgram h with hkind | hkind | hkind <;> simp [hkind]
  · cases h

/-! ### All stages -/

/-- **Arithmetic after synchronization.**  Signals pass the validation and get any frequencies, and a
duration of at least one quantum that fits a word.  Counting them in steps fails only with errors of
signals and periods.  Where it succeeds, every pulse is safe, the step fits into the duration at least
once, and a sampling of the cycles before the branch goes through safe states only; and compiling
the signals never ends in an arithmetic fault. -/
theorem quantize_safe (observe : Nat → Nat → σ → σ) (start : σ) (given : Option Nat)
    (hvalid : validate c signals masking = .ok ()) (hquantum : c.quantum ≤ y.duration)
    (hword : y.duration < wordLimit) (hcycles : y.cycles = y.duration / c.quantum) :
    (∀ s ∈ signals ++ masking, ∀ n ∈ s.channels, n < 64) ∧
    (∀ e, quantize c signals masking y = .error e →
      e.kind = .invalidSignal ∨ e.kind = .synchronization) ∧
    (∀ q, quantize c signals masking y = .ok q →
      ∃ pulses maskingPulses, count c signals (y.frequencies.take signals.length) = .ok pulses ∧
        count c masking (y.frequencies.drop signals.length) = .ok maskingPulses ∧
        q.pulses = pulses.map (Pulse.coarsen q.factor) ∧
        q.masking = maskingPulses.map (Pulse.coarsen q.factor) ∧
        (∀ p ∈ pulses ++ maskingPulses, SafePulse q.factor p) ∧
        1 ≤ q.factor ∧ q.step = c.quantum * q.factor ∧ 1 ≤ q.step ∧ q.step ≤ y.duration ∧
        1 ≤ y.duration / q.step ∧
        ∀ k ≤ sampledCycles y.duration q.step, Waveform.SafeState y.duration
          (Waveform.stateAt (.ofPulses observe (outputStage c.channels c.reserved signals) q.pulses q.step
            (sampledCycles y.duration q.step)) q.pulses q.masking start k)) ∧
    (Synchrony.ofSignals c given signals masking = .ok y →
      ∀ e, compileWith observe start c given signals masking = .error e → e.kind ≠ .arithmetic) := by
  have hvalid' := valid_of_validate hvalid
  have hpos : 0 < y.duration / c.quantum := Nat.div_pos hquantum hvalid'.quantum
  have hchannels : ∀ s ∈ signals ++ masking, ∀ n ∈ s.channels, n < 64 :=
    fun s hs n hn => hvalid'.lt_maxChannels hs hn
  have hkind : ∀ e, quantize c signals masking y = .error e →
      e.kind = .invalidSignal ∨ e.kind = .synchronization :=
    fun e => kind_of_quantize hvalid'.quantum hcycles hpos hword
  refine ⟨hchannels, hkind, ?_, ?_⟩
  · intro q hq
    rw [List.forall_mem_append] at hchannels
    obtain ⟨pulses, maskingPulses, hcount, hcountMasking, hfactor, hqpulses, hqmasking, hstep⟩ :=
      exists_counts_of_quantize hq
    have hsafe : ∀ p ∈ pulses ++ maskingPulses, SafePulse q.factor p := by
      rw [hfactor]
      intro p hp
      rcases List.mem_append.mp hp with hmem | hmem
      · exact safePulse_of_count hchannels.1 (hcycles ▸ hpos) hcount hmem hp
      · exact safePulse_of_count hchannels.2 (hcycles ▸ hpos) hcountMasking hmem hp
    obtain ⟨-, hfactorPos, hdvd⟩ := step_of_quantize hq (hcycles ▸ hpos)
    have hstepPos : 0 < q.step := hstep ▸ Nat.mul_pos hvalid'.quantum hfactorPos
    have hle : q.step ≤ y.duration := hstep ▸ mul_le_of_dvd_div hvalid'.quantum hpos (hcycles ▸ hdvd)
    refine ⟨pulses, maskingPulses, hcount, hcountMasking, hqpulses, hqmasking, hsafe, hfactorPos,
      hstep, hstepPos, hle, Nat.div_pos hle hstepPos, fun k hk => ?_⟩
    refine Waveform.safeState_stateAt observe start _ ?_ hstepPos ?_ _
    · intro p hp
      rw [hqpulses, hqmasking, ← List.map_append] at hp
      obtain ⟨p', hp', rfl⟩ := List.mem_map.mp hp
      have hsafe := hsafe p' hp'
      exact ⟨hsafe.coarsePeriod, Nat.lt_of_le_of_lt (Nat.div_le_self _ _) hsafe.words.1⟩
    · -- one step less than fits into the duration is sampled
      have hk : k ≤ y.duration / q.step := Nat.le_trans hk (Nat.sub_le _ _)
      rwa [Nat.le_div_iff_mul_le hstepPos] at hk
  · intro hsync e h
    refine kind_of_compileWith hvalid hsync (fun e he => ?_) h
    rcases hkind e he with hkind | hkind <;> simp [hkind]

/-- A signal of one period in 31 million years. -/
def glacial : Signal where
  frequency := 1e-15
  channels := .ofList [63]
  offset := 0
  dutyCycle := 0.5
  high := maxWord
  activeHigh := true
  authority := .dutyCycle

/-- A board with 64 channels, none of them reserved, and a quantum of 1 ns. -/
def wide : Config := { quantum := 1, channels := 64, reserved := 0 }

-- the period is the largest word, so the counter reaches it only by not wrapping before
theorem quantize_safe_glacial :
    validate wide [glacial] [] = .ok () ∧
      ∃ q, quantize wide [glacial] [] ⟨1000, 1000, [1e-15]⟩ = .ok q ∧
        q.pulses.map Pulse.period = [maxWord] ∧
        Waveform.SafeState 1000 (Waveform.stateAt (.ofPulses (fun _ _ => id)
          (outputStage wide.channels wide.reserved [glacial]) q.pulses q.step
          (sampledCycles 1000 q.step)) q.pulses q.masking () (sampledCycles 1000 q.step)) := by
  have hvalid : validate wide [glacial] [] = .ok () := rfl
  have hrun : (quantize wide [glacial] [] ⟨1000, 1000, [1e-15]⟩).toOption.map
      (fun q => q.pulses.map Pulse.period) = some [maxWord] := by decide +kernel
  obtain ⟨q, hq, hperiods⟩ := Option.map_eq_some_iff.mp hrun
  have hq := toOption_eq_some_iff.mp hq
  obtain ⟨-, -, hsafe, -⟩ := quantize_safe (y := ⟨1000, 1000, [1e-15]⟩) (fun _ _ => id) () none hvalid
    (by decide) (by decide) rfl
  obtain ⟨-, -, -, -, -, -, -, -, -, -, -, -, hstates⟩ := hsafe q hq
  exact ⟨hvalid, q, hq, hperiods, hstates _ (Nat.le_refl _)⟩

end Compiler

end PulseSequencer
