import PulseSequencer.Proofs.Compiler.Width
import PulseSequencer.Proofs.Machine.Moves
import PulseSequencer.Proofs.Machine.Path
import PulseSequencer.Proofs.Quantization
import PulseSequencer.Proofs.Synchrony

/-!
# The shape of compiled programs

A compiled program goes through its samples once and branches back to the first word.

* `unroll_repeating`: the machine follows such words one after the other.
* `sampled_mul_step`: a step is as long as the number of cycles allows, so nothing of the duration is
  lost but what does not fill a quantum.
* `sampled_programWith`: what the stages that can fail have settled about the words.
* `compileWith_shape`: from these stages to the sequence that comes out, if there are stacks to run it.
-/

namespace PulseSequencer

open Timeline (stepOf)
open FlagWord (Below)

/-! ### Words one after the other -/

/-- The steps that run the given words from an address on. -/
def stepsFrom : Nat → List Instruction → List Step
  | _, [] => []
  | a, i :: rest => stepOf a i :: stepsFrom (a + 1) rest

theorem stepsFrom_append (a : Nat) (xs ys : List Instruction) :
    stepsFrom a (xs ++ ys) = stepsFrom a xs ++ stepsFrom (a + xs.length) ys := by
  induction xs generalizing a with
  | nil => rfl
  | cons i rest ih =>
    rw [List.cons_append, stepsFrom, stepsFrom, ih, List.cons_append, List.length_cons,
      Nat.add_right_comm, Nat.add_assoc]

@[simp] theorem length_stepsFrom (a : Nat) (words : List Instruction) :
    (stepsFrom a words).length = words.length := by
  induction words generalizing a with
  | nil => rfl
  | cons i rest ih => rw [stepsFrom, List.length_cons, List.length_cons, ih]

@[simp] theorem map_duration_stepsFrom (a : Nat) (words : List Instruction) :
    (stepsFrom a words).map Step.duration = words.map Instruction.duration := by
  induction words generalizing a with
  | nil => rfl
  | cons i rest ih => rw [stepsFrom, List.map_cons, List.map_cons, ih]; rfl

theorem path_stepsFrom {p : Program} {d a : Nat} {words : List Instruction} (h : Located p a words)
    (hcont : ∀ i ∈ words, i.opcode = .cont) (m : Machine) (ha : m.address = a) :
    Path p d m (stepsFrom a words) { m with address := a + words.length } := by
  induction words generalizing a m with
  | nil =>
    subst ha
    exact .refl m
  | cons i rest ih =>
    subst ha
    obtain ⟨hi, hrest⟩ := List.forall_mem_cons.mp hcont
    have hnext : m.advance i p.size d = .ok (.goto m.next) :=
      advance_eq_goto_iff.mpr (.plain (.inl hi))
    have hpath := ih h.tail hrest m.next rfl
    rw [List.length_cons, ← Nat.add_assoc, Nat.add_right_comm]
    exact .step h.head hnext hpath

/-- With stacks to be had, the machine runs words that end in a branch to the first of them once. -/
theorem unroll_repeating {words program : List Instruction} {flags : FlagWord} {duration : Nat}
    {limits : Limits} (hstack : limits.maxDepth < stackLimit)
    (hprogram : program = words ++ [.branch flags duration 0])
    (hcont : ∀ i ∈ words, i.opcode = .cont) (hlength : words.length < limits.maxSteps)
    (htotal : Timeline.sum (program.map Instruction.duration) < wordLimit) :
    Timeline.unroll program.toArray limits = .ok ⟨stepsFrom 0 program, some 0⟩ := by
  subst hprogram
  have hlocated : Located (words ++ [Instruction.branch flags duration 0]).toArray 0
      (words ++ [Instruction.branch flags duration 0]) := ⟨[], [], by simp, rfl⟩
  have hpath := path_stepsFrom (d := limits.maxDepth) hlocated.left hcont {} rfl
  have hbranch : Machine.advance { address := 0 + words.length } (Instruction.branch flags duration 0)
      (words ++ [Instruction.branch flags duration 0]).toArray.size limits.maxDepth =
        .ok (.restart 0) :=
    advance_branch rfl rfl (by simp)
  have hsteps : stepsFrom 0 (words ++ [Instruction.branch flags duration 0]) =
      stepsFrom 0 words ++ [stepOf (0 + words.length) (.branch flags duration 0)] :=
    stepsFrom_append 0 words _
  have htime : stepsDuration (stepsFrom 0 words) + duration < wordLimit := by
    rw [stepsDuration, map_duration_stepsFrom]
    rwa [List.map_append, Timeline.sum_append] at htotal
  rw [unroll_of_restart hstack hpath hlocated.right.head (by simpa using hlength) htime hbranch, hsteps]
  cases words <;> rfl

/-! ### Words that are samples -/

namespace Waveform

variable {step : Nat} {words : List Instruction}

theorem Merged.pass (h : Merged step words) {i : Instruction} (hi : i ∈ words) :
    0 < i.duration / step := by
  have hpos := h.positive i hi
  have hle := Nat.le_of_dvd hpos (h.whole i hi)
  exact Nat.div_pos hle (Nat.pos_of_dvd_of_pos (h.whole i hi) hpos)

theorem Merged.mem_expand (h : Merged step words) {i : Instruction} (hi : i ∈ words) :
    i.flags ∈ expand step words := by
  refine List.mem_flatMap.mpr ⟨i, hi, ?_⟩
  rw [List.mem_replicate]
  exact ⟨Nat.ne_of_gt (h.pass hi), rfl⟩

theorem Merged.length_le (h : Merged step words) : words.length ≤ (expand step words).length := by
  have hpass : ∀ i ∈ words, 0 < i.duration / step := fun i hi => h.pass hi
  clear h
  induction words with
  | nil => exact Nat.zero_le _
  | cons i rest ih =>
    obtain ⟨hi, hrest⟩ := List.forall_mem_cons.mp hpass
    have hrest := ih hrest
    simp only [expand, List.flatMap_cons, List.length_append, List.length_replicate,
      List.length_cons] at hrest ⊢
    omega

end Waveform

namespace Compiler

variable {c : Config} {signals masking : List Signal} {synchrony : Synchrony} {q : Quantization}

/-! ### Steps of a compiled program -/

theorem quantize_eq_ok (h : quantize c signals masking synchrony = .ok q) :
    ∃ rescaled rescaledMasking,
      rescale signals (synchrony.frequencies.take signals.length) = .ok rescaled ∧
      rescale masking (synchrony.frequencies.drop signals.length) = .ok rescaledMasking ∧
      Quantization.ofSignals c.quantum synchrony.cycles rescaled rescaledMasking = .ok q := by
  unfold quantize at h
  obtain ⟨rescaled, hrescaled, h⟩ := bind_eq_ok_iff.mp h
  obtain ⟨rescaledMasking, hmasking, h⟩ := bind_eq_ok_iff.mp h
  exact ⟨rescaled, rescaledMasking, hrescaled, hmasking, h⟩

theorem exists_of_mem_rescale {frequencies : List Float} {rescaled : List Signal} {s' : Signal}
    (h : rescale signals frequencies = .ok rescaled) (hs : s' ∈ rescaled) :
    ∃ s ∈ signals, ∃ f ∈ frequencies, s'.frequency = f ∧ s'.channels = s.channels := by
  obtain ⟨⟨s, f⟩, hmem, hs⟩ := exists_of_mem_mapM h hs
  obtain ⟨hs', hf⟩ := List.of_mem_zip hmem
  obtain ⟨hfrequency, hshape⟩ := Signal.withFrequency_eq_ok (mapError_eq_ok_iff.mp hs)
  exact ⟨s, hs', f, hf, hfrequency, hshape.channels⟩

theorem exists_signal_of_pulse (h : quantize c signals masking synchrony = .ok q) {p : Pulse}
    (hp : p ∈ q.pulses) : ∃ s ∈ signals, p.channels = s.channels := by
  obtain ⟨rescaled, _, hrescaled, -, hq⟩ := quantize_eq_ok h
  obtain ⟨s', hs', hchannels⟩ := Quantization.exists_signal_of_mem hq hp
  obtain ⟨s, hs, -, -, -, hsame⟩ := exists_of_mem_rescale hrescaled hs'
  exact ⟨s, hs, hchannels.trans hsame⟩

/-- The cycles before the branch and the branch itself take up all whole quanta of a duration. -/
theorem sampled_mul_step {duration quantum factor : Nat} (hcycles : 0 < duration / quantum)
    (hfactor : factor ∣ duration / quantum) :
    (sampledCycles duration (quantum * factor) + 1) * (quantum * factor) =
      duration / quantum * quantum := by
  obtain ⟨count, hcount⟩ := hfactor
  have hpos : 0 < factor * count := hcount ▸ hcycles
  have hfactor : 0 < factor := Nat.pos_of_mul_pos_right hpos
  have hcountPos : 0 < count := Nat.pos_of_mul_pos_left hpos
  have hsteps : duration / (quantum * factor) = count := by
    rw [← Nat.div_div_eq_div_mul, hcount, Nat.mul_div_cancel_left count hfactor]
  rw [sampledCycles, hsteps, Nat.sub_add_cancel hcountPos, hcount, Nat.mul_comm quantum,
    ← Nat.mul_assoc, Nat.mul_comm count]

theorem step_of_quantize (h : quantize c signals masking synchrony = .ok q)
    (hcycles : 0 < synchrony.cycles) :
    q.step = c.quantum * q.factor ∧ 0 < q.factor ∧ q.factor ∣ synchrony.cycles := by
  obtain ⟨_, _, -, -, hq⟩ := quantize_eq_ok h
  obtain ⟨pulses, maskingPulses, -, -, hfactor, -, -, hstep⟩ := Quantization.ofSignals_eq_ok hq
  refine ⟨hstep, ?_⟩
  rw [hfactor]
  exact ⟨Quantization.commonFactor_pos _ _, Quantization.commonFactor_dvd _ hcycles⟩

section Words

variable {words : List Instruction} {o : OutputStage} {cycles : Nat}
  (hmerged : Waveform.Merged q.step words)
  (hexpand : Waveform.expand q.step words =
    (List.range cycles).map (Waveform.sampleAt o q.pulses q.masking))

include hmerged hexpand

theorem length_le_of_samples : words.length ≤ cycles := by
  have hle := hmerged.length_le
  rwa [hexpand, List.length_map, List.length_range] at hle

/-- The samples take a step each, and so does the branch. -/
theorem sum_durations_of_samples (flags : FlagWord) :
    Timeline.sum ((words ++ [Instruction.branch flags q.step 0]).map Instruction.duration) =
      (cycles + 1) * q.step := by
  rw [List.map_append, Timeline.sum_append, hmerged.sum_durations, hexpand, List.length_map,
    List.length_range, Nat.add_mul, Nat.one_mul]
  rfl

theorem exists_sample_of_mem {i : Instruction} (hi : i ∈ words) :
    ∃ k, i.flags = Waveform.sampleAt o q.pulses q.masking k := by
  have hmem := hmerged.mem_expand hi
  rw [hexpand] at hmem
  obtain ⟨k, -, hk⟩ := List.mem_map.mp hmem
  exact ⟨k, hk.symm⟩

end Words

theorem below_of_samples {words : List Instruction} {cycles : Nat} (hvalid : Valid c signals masking)
    (hquantize : quantize c signals masking synchrony = .ok q)
    (hmerged : Waveform.Merged q.step words)
    (hexpand : Waveform.expand q.step words = (List.range cycles).map
      (Waveform.sampleAt (outputStage c.channels c.reserved signals) q.pulses q.masking)) :
    ∀ i ∈ words ++ [.branch (outputStage c.channels c.reserved signals).allOff q.step 0],
      Below c.channels i.flags := by
  have hsignals : ∀ s ∈ signals, Below c.channels s.channels.mask := by
    intro s hs
    refine FlagWord.below_mask fun n hn => ?_
    have hlt := hvalid.controllable s (List.mem_append_left masking hs) n hn
    omega
  have hpulses : ∀ p ∈ q.pulses, Below c.channels p.channels.mask := by
    intro p hp
    obtain ⟨s, hs, hchannels⟩ := exists_signal_of_pulse hquantize hp
    rw [hchannels]
    exact hsignals s hs
  intro i hi
  rcases List.mem_append.mp hi with hi | hi
  · obtain ⟨k, hk⟩ := exists_sample_of_mem hmerged hexpand hi
    rw [hk]
    exact below_sampleAt hsignals hpulses q.masking k
  · rw [List.mem_singleton.mp hi]
    exact below_allOff hsignals

/-- Words that lead to the next one, followed by a branch to the first, make a sequence, if stacks of the
depth that is allowed can be had. -/
theorem ofProgram_repeating {words program : List Instruction} {flags : FlagWord}
    {duration channels : Nat} {limits : Limits}
    (hprogram : program = words ++ [.branch flags duration 0])
    (hcount : checkChannelCount channels = .ok ()) (hbelow : ∀ i ∈ program, Below channels i.flags)
    (hcont : ∀ i ∈ words, i = .cont i.flags i.duration) (hlength : words.length < limits.maxSteps)
    (htotal : Timeline.sum (program.map Instruction.duration) < wordLimit) :
    Sequence.ofProgram program.toArray channels limits =
      if limits.maxDepth < stackLimit then
        .ok ⟨program.toArray, channels, ⟨stepsFrom 0 program, some 0⟩⟩
      else .error (.capacity limits.maxDepth) := by
  have hopcode : ∀ i ∈ words, i.opcode = .cont := by
    intro i hi
    rw [hcont i hi]
    rfl
  have hsize : 0 < program.toArray.size := by simp [hprogram]
  rw [ofProgram_of_fits hcount fun i hi => FlagWord.fits_iff_below.mpr (hbelow i (by simpa using hi))]
  by_cases hstack : limits.maxDepth < stackLimit
  · rw [if_pos hstack, unroll_repeating hstack hprogram hopcode hlength htotal]
  · rw [if_neg hstack, unroll_of_depth hsize (Nat.not_lt.mp hstack)]

/-! ### All stages -/

variable {σ : Type} {observe : Nat → Nat → σ → σ} {start observed : σ} {given : Option Nat}

theorem lt_wordLimit_of_ofSignals (hgiven : ∀ d ∈ given, d < wordLimit)
    (h : Synchrony.ofSignals c given signals masking = .ok synchrony) :
    synchrony.duration < wordLimit := by
  obtain ⟨-, -, ⟨hsome, -⟩ | ⟨-, hquanta⟩⟩ := Synchrony.ofSignals_eq_ok h
  · exact hgiven _ hsome
  · exact hquanta.word

theorem cycles_pos_of_ofSignals
    (h : Synchrony.ofSignals c given signals masking = .ok synchrony) :
    0 < synchrony.duration / c.quantum := by
  obtain ⟨hquantum, -, ⟨-, hle⟩ | ⟨-, hquanta⟩⟩ := Synchrony.ofSignals_eq_ok h
  · exact Nat.div_pos hle (Nat.pos_of_ne_zero hquantum)
  · exact Nat.div_pos (Nat.le_of_dvd hquanta.positive hquanta.whole) (Nat.pos_of_ne_zero hquantum)

theorem le_maxSteps_of_checkSteps {duration step : Nat} (h : checkSteps c duration step = .ok ()) :
    sampledCycles duration step + 1 ≤ c.limits.maxSteps := by
  unfold checkSteps at h
  dsimp only at h
  split at h
  · cases h
  · omega

/-- A timeline that starts over from its first step repeats as a whole. -/
theorem repeatDuration_of_branchIndex {t : Timeline} (h : t.branchIndex = some 0) :
    t.repeatDuration = some t.totalDuration := by
  simp [Timeline.repeatDuration, Timeline.totalDuration, h]

/-- The words before the branch and the branch take up the whole quanta of the duration. -/
theorem sampled_of_stages
    (hsync : Synchrony.ofSignals c given signals masking = .ok synchrony)
    (hquantize : quantize c signals masking synchrony = .ok q) :
    0 < q.step ∧ (sampledCycles synchrony.duration q.step + 1) * q.step =
      synchrony.duration / c.quantum * c.quantum := by
  obtain ⟨hquantum, hcycles, -⟩ := Synchrony.ofSignals_eq_ok hsync
  have hpos := cycles_pos_of_ofSignals hsync
  obtain ⟨hstep, hfactor, hdvd⟩ := step_of_quantize hquantize (hcycles ▸ hpos)
  rw [hcycles] at hdvd
  rw [hstep]
  exact ⟨Nat.mul_pos (Nat.pos_of_ne_zero hquantum) hfactor, sampled_mul_step hpos hdvd⟩

/-- Once the stages before have succeeded, all that is left is to make a sequence of the program. -/
theorem compileWith_of_stages {program : List Instruction}
    (hvalid : validate c signals masking = .ok ())
    (hsync : Synchrony.ofSignals c given signals masking = .ok synchrony)
    (hquantize : quantize c signals masking synchrony = .ok q)
    (hsteps : checkSteps c synchrony.duration q.step = .ok ())
    (hprogram : programWith observe start (outputStage c.channels c.reserved signals) q
      (sampledCycles synchrony.duration q.step) = (program, observed)) :
    compileWith observe start c given signals masking =
      (Sequence.ofProgram program.toArray c.channels c.limits).map fun s => (s, observed) := by
  unfold compileWith
  rw [hvalid, hsync]
  simp only [bind, Except.bind]
  rw [hquantize]
  simp only [hsteps, hprogram]
  cases Sequence.ofProgram program.toArray c.channels c.limits <;> rfl

/-- What the stages have settled about the words that are sampled for a compilation, and about the whole
program that a branch makes of them. -/
structure Sampled (c : Config) (signals : List Signal) (q : Quantization) (duration : Nat)
    (words program : List Instruction) : Prop where
  ends : program = words ++ [.branch (outputStage c.channels c.reserved signals).allOff q.step 0]
  cont : ∀ i ∈ words, i = .cont i.flags i.duration
  below : ∀ i ∈ program, Below c.channels i.flags
  length : words.length + 1 ≤ c.limits.maxSteps
  total : Timeline.sum (program.map Instruction.duration) = duration / c.quantum * c.quantum

theorem sampled_programWith (observe : Nat → Nat → σ → σ) (start : σ)
    (hvalid : validate c signals masking = .ok ())
    (hsync : Synchrony.ofSignals c given signals masking = .ok synchrony)
    (hquantize : quantize c signals masking synchrony = .ok q)
    (hsteps : checkSteps c synchrony.duration q.step = .ok ()) :
    ∃ words program observed,
      programWith observe start (outputStage c.channels c.reserved signals) q
        (sampledCycles synchrony.duration q.step) = (program, observed) ∧
      Sampled c signals q synchrony.duration words program := by
  obtain ⟨hstep, hlong⟩ := sampled_of_stages hsync hquantize
  obtain ⟨hmerged, hexpand⟩ := Waveform.simulateWith_merged observe start
    (outputStage c.channels c.reserved signals) q.pulses q.masking hstep
    (sampledCycles synchrony.duration q.step)
  refine ⟨_, _, _, rfl, rfl, hmerged.cont, ?_, ?_, ?_⟩
  · exact below_of_samples (valid_of_validate hvalid) hquantize hmerged hexpand
  · -- merging only shortens, so the bound on the cycles bounds the run
    exact Nat.le_trans (Nat.succ_le_succ (length_le_of_samples hmerged hexpand))
      (le_maxSteps_of_checkSteps hsteps)
  · exact (sum_durations_of_samples hmerged hexpand _).trans hlong

/-- What comes of words that were sampled: their program with its run, if stacks can be had for it. -/
theorem Sampled.ofProgram {duration : Nat} {words program : List Instruction}
    (h : Sampled c signals q duration words program) (hcount : checkChannelCount c.channels = .ok ())
    (hword : duration < wordLimit) :
    Sequence.ofProgram program.toArray c.channels c.limits =
      if c.limits.maxDepth < stackLimit then
        .ok ⟨program.toArray, c.channels, ⟨stepsFrom 0 program, some 0⟩⟩
      else .error (.capacity c.limits.maxDepth) := by
  refine ofProgram_repeating h.ends hcount h.below h.cont h.length ?_
  rw [h.total]
  exact Nat.lt_of_le_of_lt (Nat.div_mul_le_self _ _) hword

/-- The stages that a compiled sequence has gone through. -/
theorem exists_stages_of_compileWith {s : Sequence}
    (h : compileWith observe start c given signals masking = .ok (s, observed)) :
    validate c signals masking = .ok () ∧ ∃ synchrony q,
      Synchrony.ofSignals c given signals masking = .ok synchrony ∧
      quantize c signals masking synchrony = .ok q ∧
      checkSteps c synchrony.duration q.step = .ok () ∧
      Sequence.ofProgram (programWith observe start (outputStage c.channels c.reserved signals) q
        (sampledCycles synchrony.duration q.step)).1.toArray c.channels c.limits = .ok s := by
  unfold compileWith at h
  obtain ⟨⟨⟩, hvalid, h⟩ := bind_eq_ok_iff.mp h
  obtain ⟨synchrony, hsync, h⟩ := bind_eq_ok_iff.mp h
  obtain ⟨q, hquantize, h⟩ := bind_eq_ok_iff.mp h
  obtain ⟨⟨⟩, hsteps, h⟩ := bind_eq_ok_iff.mp h
  obtain ⟨sequence, hsequence, h⟩ := bind_eq_ok_iff.mp h
  cases h
  exact ⟨hvalid, synchrony, q, hsync, hquantize, hsteps, hsequence⟩

/-- A compiled sequence is what comes out of its program, and that goes straight on to a branch. -/
theorem straight_of_compileWith {s : Sequence}
    (h : compileWith observe start c given signals masking = .ok (s, observed)) :
    Sequence.ofProgram s.program c.channels c.limits = .ok s ∧
      ∃ words flags duration, s.program.toList = words ++ [.branch flags duration 0] ∧
        ∀ i ∈ words, i = .cont i.flags i.duration := by
  obtain ⟨-, synchrony, q, hsync, hquantize, -, hsequence⟩ := exists_stages_of_compileWith h
  obtain ⟨hstep, -⟩ := sampled_of_stages hsync hquantize
  obtain ⟨hmerged, -⟩ := Waveform.simulateWith_merged observe start
    (outputStage c.channels c.reserved signals) q.pulses q.masking hstep
    (sampledCycles synchrony.duration q.step)
  obtain ⟨-, -, t, -, rfl⟩ := ofProgram_eq_ok_iff.mp hsequence
  exact ⟨hsequence, _, _, _, rfl, hmerged.cont⟩

theorem straight_of_compile {s : Sequence} (h : compile c given signals masking = .ok s) :
    Sequence.ofProgram s.program c.channels c.limits = .ok s ∧
      ∃ words flags duration, s.program.toList = words ++ [.branch flags duration 0] ∧
        ∀ i ∈ words, i = .cont i.flags i.duration := by
  unfold compile at h
  obtain ⟨⟨compiled, ⟨⟩⟩, hcompile, rfl⟩ := map_eq_ok_iff.mp h
  exact straight_of_compileWith hcompile

/-- **Shape and length of compiled programs.**  Validation, synchronization, counting in steps and the
check of their number have succeeded.  If stacks can be had for the nesting that the settings allow,
nothing can fail any more.  The program goes through words that lead to the next one and branches back
to the first; it takes all whole quanta of the duration, which is all of it if the duration was not
given; and its run is as long as the program.  Otherwise there is no sequence, although the program has
no nesting. -/
theorem compileWith_shape (observe : Nat → Nat → σ → σ) (start : σ)
    (hgiven : ∀ d ∈ given, d < wordLimit) (hvalid : validate c signals masking = .ok ())
    (hsync : Synchrony.ofSignals c given signals masking = .ok synchrony)
    (hquantize : quantize c signals masking synchrony = .ok q)
    (hsteps : checkSteps c synchrony.duration q.step = .ok ()) :
    (c.limits.maxDepth < stackLimit →
      ∃ s observed, compileWith observe start c given signals masking = .ok (s, observed) ∧
        (∃ words flags, s.program.toList = words ++ [.branch flags q.step 0] ∧
          ∀ i ∈ words, i = .cont i.flags i.duration) ∧
        s.timeline.totalDuration = synchrony.duration / c.quantum * c.quantum ∧
        s.timeline.repeatDuration = some (synchrony.duration / c.quantum * c.quantum) ∧
        (given = none → s.timeline.totalDuration = synchrony.duration) ∧
        s.timeline.branchIndex = some 0 ∧
        s.timeline.steps.length = s.program.size ∧ s.program.size ≤ c.limits.maxSteps) ∧
    (stackLimit ≤ c.limits.maxDepth →
      compileWith observe start c given signals masking = .error (.capacity c.limits.maxDepth)) := by
  obtain ⟨words, program, observed, hprogram, hsampled⟩ :=
    sampled_programWith observe start hvalid hsync hquantize hsteps
  have hsequence := hsampled.ofProgram (valid_of_validate hvalid).channelCount
    (lt_wordLimit_of_ofSignals hgiven hsync)
  rw [compileWith_of_stages hvalid hsync hquantize hsteps hprogram, hsequence]
  refine ⟨fun hstack => ?_, fun hstack => by rw [if_neg (Nat.not_lt.mpr hstack)]; rfl⟩
  have htotal : Timeline.totalDuration ⟨stepsFrom 0 program, some 0⟩ =
      synchrony.duration / c.quantum * c.quantum := by
    rw [← hsampled.total, Timeline.totalDuration, Timeline.durations, map_duration_stepsFrom]
  rw [if_pos hstack]
  refine ⟨_, _, rfl, ⟨words, _, hsampled.ends, hsampled.cont⟩, htotal, ?_, ?_, rfl, ?_, ?_⟩
  · rw [repeatDuration_of_branchIndex rfl]
    exact congrArg some htotal
  · -- a duration that was found is a multiple of the quantum
    intro hnone
    obtain ⟨-, -, ⟨hsome, -⟩ | ⟨-, hquanta⟩⟩ := Synchrony.ofSignals_eq_ok hsync
    · rw [hnone] at hsome
      cases hsome
    · exact htotal.trans (Nat.div_mul_cancel hquanta.whole)
  · show (stepsFrom 0 program).length = program.toArray.size
    simp
  · show program.toArray.size ≤ c.limits.maxSteps
    simpa [hsampled.ends] using hsampled.length

/-- A signal of 200 Hz on two channels, delayed by 1 ms. -/
def fast : Signal where
  frequency := 200
  channels := .ofList [0, 1]
  offset := 1000000
  dutyCycle := 0.5
  high := 2500000
  activeHigh := true
  authority := .dutyCycle

/-- An active-low signal of 100 Hz. -/
def slow : Signal where
  frequency := 100
  channels := .ofList [2]
  offset := 0
  dutyCycle := 0.25
  high := 2500000
  activeHigh := false
  authority := .dutyCycle

/-- Lets channel 0 pass for half of every 10 ms. -/
def gate : Signal where
  frequency := 100
  channels := .ofList [0]
  offset := 0
  dutyCycle := 0.5
  high := 5000000
  activeHigh := true
  authority := .dutyCycle

/-- All stages before the run pass for these signals, whatever nesting is allowed. -/
theorem stages_gated (depth : Nat) :
    ∃ synchrony q, validate { limits := { maxDepth := depth } } [fast, slow] [gate] = .ok () ∧
      Synchrony.ofSignals { limits := { maxDepth := depth } } none [fast, slow] [gate] =
        .ok synchrony ∧
      quantize { limits := { maxDepth := depth } } [fast, slow] [gate] synchrony = .ok q ∧
      checkSteps { limits := { maxDepth := depth } } synchrony.duration q.step = .ok () ∧
      synchrony.duration = 10000000 := by
  have hrun : ((Synchrony.ofSignals {} none [fast, slow] [gate]).toOption.bind fun y =>
      (quantize {} [fast, slow] [gate] y).toOption.map fun q => (y.duration, q.step)) =
        some (10000000, 500000) := by decide +kernel
  obtain ⟨y, hy, hrun⟩ := Option.bind_eq_some_iff.mp hrun
  obtain ⟨q, hq, hrun⟩ := Option.map_eq_some_iff.mp hrun
  obtain ⟨hduration, hstep⟩ := Prod.mk.inj hrun
  refine ⟨y, q, rfl, toOption_eq_some_iff.mp hy, toOption_eq_some_iff.mp hq, ?_, hduration⟩
  rw [hduration, hstep]
  rfl

theorem compileWith_shape_gated :
    ∃ synchrony q s observed, validate {} [fast, slow] [gate] = .ok () ∧
      Synchrony.ofSignals {} none [fast, slow] [gate] = .ok synchrony ∧
      quantize {} [fast, slow] [gate] synchrony = .ok q ∧
      checkSteps {} synchrony.duration q.step = .ok () ∧
      compileWith (fun _ _ => id) () {} none [fast, slow] [gate] = .ok (s, observed) ∧
      s.timeline.totalDuration = 10000000 ∧ s.timeline.branchIndex = some 0 := by
  obtain ⟨y, q, hvalid, hy, hq, hsteps, hduration⟩ := stages_gated ({} : Limits).maxDepth
  obtain ⟨s, observed, hs, -, -, -, htotal, hbranch, -⟩ :=
    (compileWith_shape (fun _ _ => id) () (by simp) hvalid hy hq hsteps).1 (by decide)
  exact ⟨y, q, s, observed, hvalid, hy, hq, hsteps, hs, (htotal rfl).trans hduration, hbranch⟩

/-- Where any nesting is allowed these signals have no program, although each stage before the run of
the program has passed: there is no memory for that many levels. -/
theorem compileWith_tooDeep :
    ∃ synchrony q, validate { limits := { maxDepth := maxWord } } [fast, slow] [gate] = .ok () ∧
      Synchrony.ofSignals { limits := { maxDepth := maxWord } } none [fast, slow] [gate] =
        .ok synchrony ∧
      quantize { limits := { maxDepth := maxWord } } [fast, slow] [gate] synchrony = .ok q ∧
      checkSteps { limits := { maxDepth := maxWord } } synchrony.duration q.step = .ok () ∧
      compileWith (fun _ _ => id) () { limits := { maxDepth := maxWord } } none [fast, slow] [gate] =
        .error (.capacity maxWord) := by
  obtain ⟨y, q, hvalid, hy, hq, hsteps, hduration⟩ := stages_gated maxWord
  obtain ⟨words, program, observed, hprogram, hsampled⟩ :=
    sampled_programWith (fun _ _ => id) () hvalid hy hq hsteps
  refine ⟨y, q, hvalid, hy, hq, hsteps, ?_⟩
  rw [compileWith_of_stages hvalid hy hq hsteps hprogram,
    hsampled.ofProgram (valid_of_validate hvalid).channelCount (by rw [hduration]; decide)]
  rfl

end Compiler

end PulseSequencer
