import PulseSequencer.Proofs.Quantization
import PulseSequencer.Proofs.Waveform.Samples

/-!
# Longer steps and the waveform

Pulses may be counted in steps that are `factor` times as long if the factor divides all their counts.
Every long step then shows what each of the short steps in it shows (`sampleAt_coarsen`).  A program
ends with a branch of one step with everything off, though, and that step is longer as well.

* `Waveform.outputAt`: the outputs at a given time; `outputAt_programWith` finds them in closed form.
* `exists_coarsen_of_ofSignals`: quantizing signals is counting them in quanta and then in longer steps,
  so that all of this is about compiled programs.
* `programWith_coarsen`: the two programs of the same pulses agree at all times but those of the last
  long step, and there exactly if everything was off in it anyway.
-/

namespace PulseSequencer

/-! ### Pulses in longer steps -/

namespace Pulse

variable {factor : Nat} {p : Pulse}

/-- The counts of a pulse are whole numbers of steps that are `factor` times as long. -/
structure CountedBy (factor : Nat) (p : Pulse) : Prop where
  period : factor ∣ p.period
  offset : factor ∣ p.offset
  high : factor ∣ p.high

theorem CountedBy.started_iff (h : p.CountedBy factor) (hfactor : 0 < factor) (k : Nat) :
    (p.coarsen factor).offset ≤ k / factor ↔ p.offset ≤ k := by
  show p.offset / factor ≤ k / factor ↔ p.offset ≤ k
  rw [Nat.le_div_iff_mul_le hfactor, Nat.div_mul_cancel h.offset]

/-- How far a pulse is into its period, counted in longer steps. -/
theorem CountedBy.elapsed_eq (h : p.CountedBy factor) (k : Nat) :
    (k / factor - (p.coarsen factor).offset) % (p.coarsen factor).period =
      (k - p.offset) % p.period / factor := by
  show (k / factor - p.offset / factor) % (p.period / factor) = (k - p.offset) % p.period / factor
  obtain ⟨offset, hoffset⟩ := h.offset
  obtain ⟨period, hperiod⟩ := h.period
  rcases Nat.eq_zero_or_pos factor with rfl | hfactor
  · simp
  · rw [hoffset, hperiod, Nat.mul_div_cancel_left offset hfactor,
      Nat.mul_div_cancel_left period hfactor, Nat.mod_mul_right_div_self, Nat.sub_mul_div]

theorem CountedBy.isHighAt_coarsen (h : p.CountedBy factor) (hfactor : 0 < factor) (k : Nat) :
    (p.coarsen factor).isHighAt (k / factor) = p.isHighAt k := by
  have helapsed : (k - p.offset) % p.period / factor < p.high / factor ↔
      (k - p.offset) % p.period < p.high := by
    rw [Nat.div_lt_iff_lt_mul hfactor, Nat.div_mul_cancel h.high]
  unfold isHighAt
  rw [h.elapsed_eq, decide_eq_decide.mpr (h.started_iff hfactor k)]
  exact congrArg _ (decide_eq_decide.mpr helapsed)

theorem CountedBy.isLowAt_coarsen (h : p.CountedBy factor) (hfactor : 0 < factor) (k : Nat) :
    (p.coarsen factor).isLowAt (k / factor) = p.isLowAt k := by
  have helapsed : p.high / factor ≤ (k - p.offset) % p.period / factor ↔
      p.high ≤ (k - p.offset) % p.period := by
    rw [Nat.le_div_iff_mul_le hfactor, Nat.div_mul_cancel h.high]
  unfold isLowAt
  rw [h.elapsed_eq, decide_eq_decide.mpr (h.started_iff hfactor k)]
  exact congrArg _ (decide_eq_decide.mpr helapsed)

end Pulse

namespace Waveform

variable {factor : Nat} {pulses masking : List Pulse}

theorem drivenChannels_coarsen (factor : Nat) (pulses : List Pulse) :
    drivenChannels (pulses.map (Pulse.coarsen factor)) = drivenChannels pulses := by
  unfold drivenChannels
  rw [List.foldl_map]
  rfl

theorem activeAt_coarsen (hfactor : 0 < factor) (h : ∀ p ∈ pulses, p.CountedBy factor) (k : Nat) :
    activeAt (pulses.map (Pulse.coarsen factor)) (k / factor) = activeAt pulses k := by
  unfold activeAt
  rw [List.filter_map, drivenChannels_coarsen]
  congr 1
  exact List.filter_congr fun p hp => (h p hp).isHighAt_coarsen hfactor k

theorem maskedAt_coarsen (hfactor : 0 < factor) (h : ∀ p ∈ masking, p.CountedBy factor) (k : Nat) :
    maskedAt (masking.map (Pulse.coarsen factor)) (k / factor) = maskedAt masking k := by
  unfold maskedAt
  rw [List.filter_map, drivenChannels_coarsen]
  congr 1
  exact List.filter_congr fun p hp => (h p hp).isLowAt_coarsen hfactor k

/-- A long step shows what each of the short steps in it shows. -/
theorem sampleAt_coarsen (o : OutputStage) (hfactor : 0 < factor)
    (h : ∀ p ∈ pulses ++ masking, p.CountedBy factor) (k : Nat) :
    sampleAt o (pulses.map (Pulse.coarsen factor)) (masking.map (Pulse.coarsen factor)) (k / factor) =
      sampleAt o pulses masking k := by
  rw [List.forall_mem_append] at h
  unfold sampleAt
  rw [activeAt_coarsen hfactor h.1, maskedAt_coarsen hfactor h.2]

/-! ### The outputs at a given time -/

/-- The outputs `t` ns after the first of the words begins, or none if all of them are over. -/
def outputAt : List Instruction → Nat → Option FlagWord
  | [], _ => none
  | i :: rest, t => if t < i.duration then some i.flags else outputAt rest (t - i.duration)

theorem outputAt_eq_expand {step : Nat} (hstep : 0 < step) {words : List Instruction}
    (hwhole : ∀ i ∈ words, step ∣ i.duration) (t : Nat) :
    outputAt words t = (expand step words)[t / step]? := by
  induction words generalizing t with
  | nil => rfl
  | cons i rest ih =>
    obtain ⟨⟨passes, hpasses⟩, hrest⟩ := List.forall_mem_cons.mp hwhole
    have hcount : i.duration / step = passes := by
      rw [hpasses, Nat.mul_div_cancel_left passes hstep]
    have hexpand : expand step (i :: rest) = List.replicate passes i.flags ++ expand step rest := by
      rw [← hcount]
      rfl
    have hlt : t < i.duration ↔ t / step < passes := by
      rw [Nat.div_lt_iff_lt_mul hstep, hpasses, Nat.mul_comm]
    rw [outputAt, hexpand]
    by_cases h : t / step < passes
    · rw [if_pos (hlt.mpr h), List.getElem?_append_left (by simpa using h)]
      simp [h]
    · rw [if_neg (mt hlt.mp h), List.getElem?_append_right (by simpa using h), ih hrest, hpasses,
        Nat.sub_mul_div, List.length_replicate]

end Waveform

/-- The same pulses, counted in steps that are `factor` times as long. -/
def Quantization.coarsen (factor : Nat) (q : Quantization) : Quantization where
  pulses := q.pulses.map (Pulse.coarsen factor)
  masking := q.masking.map (Pulse.coarsen factor)
  step := q.step * factor
  factor := q.factor * factor

/-- An offset of zero may be left out of the counts: every number divides it. -/
theorem Quantization.countedBy_iff {d : Nat} {p : Pulse} :
    p.CountedBy d ↔ ∀ n ∈ countsOf p, d ∣ n := by
  have hfields : p.CountedBy d ↔ d ∣ p.period ∧ d ∣ p.offset ∧ d ∣ p.high :=
    ⟨fun h => ⟨h.period, h.offset, h.high⟩, fun h => ⟨h.1, h.2.1, h.2.2⟩⟩
  unfold countsOf
  split
  · next hzero => simp [hfields, hzero]
  · simp [hfields, and_comm]

/-- The common factor of pulses divides all their counts. -/
theorem Quantization.countedBy_commonFactor {cycles : Nat} {pulses : List Pulse} {p : Pulse}
    (hcycles : 0 < cycles) (hp : p ∈ pulses) : p.CountedBy (commonFactor pulses cycles) :=
  countedBy_iff.mpr fun _ hn => commonFactor_dvd_count hcycles hp hn

/-- Signals are counted in quanta first, and then in steps of as many quanta as divide all counts. -/
theorem Quantization.exists_coarsen_of_ofSignals {quantum cycles : Nat} {signals masking : List Signal}
    {q : Quantization} (h : ofSignals quantum cycles signals masking = .ok q) (hcycles : 0 < cycles) :
    ∃ counted : Quantization, counted.step = quantum ∧ counted.coarsen q.factor = q ∧
      q.factor ∣ cycles ∧ ∀ p ∈ counted.pulses ++ counted.masking, p.CountedBy q.factor := by
  obtain ⟨pulses, maskingPulses, -, -, hfactor, hpulses, hmasking, hstep⟩ := ofSignals_eq_ok h
  refine ⟨⟨pulses, maskingPulses, quantum, 1⟩, rfl, ?_, ?_, ?_⟩
  · cases q
    simp only at hpulses hmasking hstep
    rw [hpulses, hmasking, hstep]
    simp only [coarsen, Nat.one_mul]
  · exact hfactor ▸ commonFactor_dvd _ hcycles
  · intro p hp
    exact hfactor ▸ countedBy_commonFactor hcycles hp

namespace Compiler

open Waveform (sampleAt sampleAt_coarsen outputAt expand)

variable {σ : Type} {q : Quantization}

theorem programWith_fst (observe : Nat → Nat → σ → σ) (start : σ) (o : OutputStage)
    (q : Quantization) (cycles : Nat) :
    (programWith observe start o q cycles).1 =
      (Waveform.simulateWith observe start o q.pulses q.masking q.step cycles).1 ++
        [.branch o.allOff q.step 0] := rfl

theorem expand_programWith (observe : Nat → Nat → σ → σ) (start : σ) (o : OutputStage)
    (hstep : 0 < q.step) (cycles : Nat) :
    (∀ i ∈ (programWith observe start o q cycles).1, q.step ∣ i.duration) ∧
      expand q.step (programWith observe start o q cycles).1 =
        (List.range cycles).map (sampleAt o q.pulses q.masking) ++ [o.allOff] := by
  obtain ⟨hmerged, hexpand⟩ :=
    Waveform.simulateWith_merged observe start o q.pulses q.masking hstep cycles
  have hbranch : expand q.step [.branch o.allOff q.step 0] = [o.allOff] := by
    rw [Waveform.expand_singleton]
    simp [Instruction.branch, Nat.div_self hstep]
  constructor
  · intro i hi
    rcases List.mem_append.mp hi with hi | hi
    · exact hmerged.whole i hi
    · rw [List.mem_singleton.mp hi]
      exact Nat.dvd_refl q.step
  · rw [programWith_fst, Waveform.expand_append, hexpand, hbranch]

/-- A program shows the samples of its cycles, and then everything off for one step. -/
theorem outputAt_programWith (observe : Nat → Nat → σ → σ) (start : σ) (o : OutputStage)
    (hstep : 0 < q.step) {cycles t : Nat} (ht : t < (cycles + 1) * q.step) :
    outputAt (programWith observe start o q cycles).1 t =
      some (if t / q.step < cycles then sampleAt o q.pulses q.masking (t / q.step) else o.allOff) := by
  obtain ⟨hwhole, hexpand⟩ := expand_programWith observe start o hstep cycles
  have hlt : t / q.step < cycles + 1 := (Nat.div_lt_iff_lt_mul hstep).mpr ht
  rw [Waveform.outputAt_eq_expand hstep hwhole, hexpand]
  by_cases h : t / q.step < cycles
  · rw [if_pos h, List.getElem?_append_left (by simpa using h), List.getElem?_map,
      List.getElem?_range h]
    rfl
  · have hlast : t / q.step = cycles := by omega
    rw [if_neg h, List.getElem?_append_right (by simpa using h), hlast]
    simp

/-! ### Two programs of the same pulses -/

section LongSteps

variable {factor N : Nat} (o : OutputStage) (hstep : 0 < q.step) (hfactor : 0 < factor) (hN : 0 < N)
  (hdvd : factor ∣ N) (hcounts : ∀ p ∈ q.pulses ++ q.masking, p.CountedBy factor)

include hfactor hcounts hN hdvd in
/-- The last long step shows one sample only. -/
theorem sampleAt_last {k : Nat} (hle : N - factor ≤ k) (hlt : k < N) :
    sampleAt o q.pulses q.masking k = sampleAt o q.pulses q.masking (N - 1) := by
  obtain ⟨steps, rfl⟩ := hdvd
  have hsteps : 0 < steps := Nat.pos_of_mul_pos_left hN
  have hquotient : ∀ j, factor * steps - factor ≤ j → j < factor * steps → j / factor = steps - 1 := by
    intro j hj hj'
    rw [← Nat.mul_sub_one] at hj
    have hge : steps - 1 ≤ j / factor := by
      rwa [Nat.le_div_iff_mul_le hfactor, Nat.mul_comm]
    have hlt : j / factor < steps := Nat.div_lt_of_lt_mul hj'
    omega
  rw [← sampleAt_coarsen o hfactor hcounts k, ← sampleAt_coarsen o hfactor hcounts (_ - 1),
    hquotient k hle hlt, hquotient (factor * steps - 1) (by omega) (by omega)]

include hstep hfactor hN hdvd hcounts in
/-- The program in long steps shows the samples of the short ones, but goes dark one long step before
the end. -/
theorem outputAt_coarsen (observe : Nat → Nat → σ → σ) (start : σ) {t : Nat}
    (ht : t < N * q.step) :
    outputAt (programWith observe start o (q.coarsen factor) (N / factor - 1)).1 t =
      some (if t / q.step < N - factor then sampleAt o q.pulses q.masking (t / q.step)
        else o.allOff) := by
  obtain ⟨steps, rfl⟩ := hdvd
  have hsteps : 0 < steps := Nat.pos_of_mul_pos_left hN
  have hlong : 0 < (q.coarsen factor).step := Nat.mul_pos hstep hfactor
  rw [Nat.mul_div_cancel_left steps hfactor]
  have hend : t < (steps - 1 + 1) * (q.coarsen factor).step := by
    calc t < factor * steps * q.step := ht
      _ = steps * (q.step * factor) := by
        rw [Nat.mul_comm factor, Nat.mul_assoc, Nat.mul_comm factor]
      _ = (steps - 1 + 1) * (q.coarsen factor).step := by
        rw [Nat.sub_add_cancel hsteps]
        rfl
  have hquotient : t / (q.coarsen factor).step = t / q.step / factor := (Nat.div_div_eq_div_mul ..).symm
  have hbefore : t / q.step / factor < steps - 1 ↔ t / q.step < factor * steps - factor := by
    rw [Nat.div_lt_iff_lt_mul hfactor, ← Nat.mul_sub_one, Nat.mul_comm]
  rw [outputAt_programWith observe start o hlong hend, hquotient, if_congr hbefore ?_ rfl]
  exact sampleAt_coarsen o hfactor hcounts (t / q.step)

include hstep hN in
/-- The program in short steps goes dark for its last step only. -/
theorem outputAt_short (observe : Nat → Nat → σ → σ) (start : σ) {t : Nat} (ht : t < N * q.step) :
    outputAt (programWith observe start o q (N - 1)).1 t =
      some (if t / q.step < N - 1 then sampleAt o q.pulses q.masking (t / q.step) else o.allOff) := by
  refine outputAt_programWith observe start o hstep ?_
  rwa [Nat.sub_add_cancel hN]

include hstep hfactor hN hdvd hcounts in
/-- Before the last long step both programs show the same sample, and in the last short step both are
dark. -/
theorem exists_outputAt_eq (observe : Nat → Nat → σ → σ) (start : σ) {t : Nat} (ht : t < N * q.step)
    (h : t < (N - factor) * q.step ∨ (N - 1) * q.step ≤ t) :
    ∃ flags, outputAt (programWith observe start o q (N - 1)).1 t = some flags ∧
      outputAt (programWith observe start o (q.coarsen factor) (N / factor - 1)).1 t = some flags := by
  rw [outputAt_short o hstep hN observe start ht,
    outputAt_coarsen o hstep hfactor hN hdvd hcounts observe start ht]
  rcases h with h | h
  · have hlt : t / q.step < N - factor := (Nat.div_lt_iff_lt_mul hstep).mpr h
    have hlt' : t / q.step < N - 1 := by omega
    rw [if_pos hlt, if_pos hlt']
    exact ⟨_, rfl, rfl⟩
  · have hge : N - 1 ≤ t / q.step := (Nat.le_div_iff_mul_le hstep).mpr h
    have hge' : N - factor ≤ t / q.step := by omega
    rw [if_neg (Nat.not_lt.mpr hge), if_neg (Nat.not_lt.mpr hge')]
    exact ⟨_, rfl, rfl⟩

include hstep hfactor hN hdvd hcounts in
/-- In the rest of the last long step only the program in long steps is dark. -/
theorem outputAt_last (observe : Nat → Nat → σ → σ) (start : σ) {t : Nat}
    (hfrom : (N - factor) * q.step ≤ t) (hto : t < (N - 1) * q.step) :
    outputAt (programWith observe start o q (N - 1)).1 t =
        some (sampleAt o q.pulses q.masking (N - 1)) ∧
      outputAt (programWith observe start o (q.coarsen factor) (N / factor - 1)).1 t =
        some o.allOff := by
  have ht : t < N * q.step := Nat.lt_of_lt_of_le hto (Nat.mul_le_mul_right _ (Nat.sub_le N 1))
  have hge : N - factor ≤ t / q.step := (Nat.le_div_iff_mul_le hstep).mpr hfrom
  have hlt : t / q.step < N - 1 := (Nat.div_lt_iff_lt_mul hstep).mpr hto
  rw [outputAt_short o hstep hN observe start ht,
    outputAt_coarsen o hstep hfactor hN hdvd hcounts observe start ht, if_pos hlt,
    if_neg (Nat.not_lt.mpr hge), sampleAt_last o hfactor hN hdvd hcounts hge (by omega)]
  exact ⟨rfl, rfl⟩

include hstep hfactor hN hdvd hcounts in
/-- Nothing is lost in long steps exactly if they are no longer, or if the last sample is dark. -/
theorem forall_outputAt_eq_iff (observe : Nat → Nat → σ → σ) (start : σ) :
    (∀ t < N * q.step, outputAt (programWith observe start o q (N - 1)).1 t =
      outputAt (programWith observe start o (q.coarsen factor) (N / factor - 1)).1 t) ↔
      factor = 1 ∨ sampleAt o q.pulses q.masking (N - 1) = o.allOff := by
  have hle : factor ≤ N := Nat.le_of_dvd hN hdvd
  constructor
  · -- the first instant of the last long step decides
    intro hall
    by_contra hnot
    rw [not_or] at hnot
    have hfirst : (N - factor) * q.step < (N - 1) * q.step :=
      Nat.mul_lt_mul_of_pos_right (by omega) hstep
    obtain ⟨h₁, h₂⟩ :=
      outputAt_last o hstep hfactor hN hdvd hcounts observe start (Nat.le_refl _) hfirst
    have hend : (N - factor) * q.step < N * q.step :=
      Nat.mul_lt_mul_of_pos_right (by omega) hstep
    have heq := hall _ hend
    rw [h₁, h₂] at heq
    exact hnot.2 (Option.some.inj heq)
  · intro h t ht
    by_cases hmid : (N - factor) * q.step ≤ t ∧ t < (N - 1) * q.step
    · obtain ⟨h₁, h₂⟩ := outputAt_last o hstep hfactor hN hdvd hcounts observe start hmid.1 hmid.2
      rcases h with rfl | h
      · omega
      · rw [h₁, h₂, h]
    · obtain ⟨flags, h₁, h₂⟩ :=
        exists_outputAt_eq o hstep hfactor hN hdvd hcounts observe start ht (by omega)
      rw [h₁, h₂]

end LongSteps

/-- **Longer steps and the waveform.**  Pulses are made into a program of `N` steps, and again into
one of `N / factor` steps that are `factor` times as long.  Both programs show the same outputs up to
the last long step and in its last short step.  In between the one still shows the sample of the
last step while the other shows everything off already, so they are the same at all times exactly if
the factor is 1 or that sample has everything off. -/
theorem programWith_coarsen (observe : Nat → Nat → σ → σ) (start : σ) (o : OutputStage)
    (q : Quantization) (factor N : Nat) (hstep : 0 < q.step) (hfactor : 0 < factor) (hN : 0 < N)
    (hdvd : factor ∣ N) (hcounts : ∀ p ∈ q.pulses ++ q.masking, p.CountedBy factor) :
    let short := (programWith observe start o q (N - 1)).1
    let long := (programWith observe start o (q.coarsen factor) (N / factor - 1)).1
    (∀ t < N * q.step, t < (N - factor) * q.step ∨ (N - 1) * q.step ≤ t →
      ∃ flags, outputAt short t = some flags ∧ outputAt long t = some flags) ∧
    (∀ t, (N - factor) * q.step ≤ t → t < (N - 1) * q.step →
      outputAt short t = some (sampleAt o q.pulses q.masking (N - 1)) ∧
        outputAt long t = some o.allOff) ∧
    ((∀ t < N * q.step, outputAt short t = outputAt long t) ↔
      factor = 1 ∨ sampleAt o q.pulses q.masking (N - 1) = o.allOff) := by
  intro short long
  refine ⟨?_, ?_, ?_⟩
  · intro t ht
    exact exists_outputAt_eq o hstep hfactor hN hdvd hcounts observe start ht
  · intro t hfrom hto
    exact outputAt_last o hstep hfactor hN hdvd hcounts observe start hfrom hto
  · exact forall_outputAt_eq_iff o hstep hfactor hN hdvd hcounts observe start

/-- A pulse that is on for the first two of every four steps, and a later one that gates it. -/
def early : Quantization where
  pulses := [{ period := 4, high := 2, channels := .ofList [0] }]
  masking := [{ period := 8, offset := 2, high := 4, channels := .ofList [0] }]
  step := 20
  factor := 1

theorem programWith_coarsen_early :
    (∀ p ∈ early.pulses ++ early.masking, p.CountedBy 2) ∧
      ∀ t < 8 * early.step,
        outputAt (programWith (fun _ _ => id) () (outputStage 4 1 []) early 7).1 t =
          outputAt (programWith (fun _ _ => id) () (outputStage 4 1 []) (early.coarsen 2) 3).1 t := by
  have hcounts : ∀ p ∈ early.pulses ++ early.masking, p.CountedBy 2 := by
    intro p hp
    simp only [early, List.cons_append, List.nil_append, List.mem_cons, List.not_mem_nil,
      or_false] at hp
    rcases hp with rfl | rfl <;> exact ⟨by decide, by decide, by decide⟩
  have hall := programWith_coarsen (fun _ _ => id) () (outputStage 4 1 []) early 2 8 (by decide)
    (by decide) (by decide) (by decide) hcounts
  exact ⟨hcounts, hall.2.2.mpr (.inr (by decide +kernel))⟩

/-- A signal of 10 Hz that starts half a period late, counted in quanta of 20 ns. -/
def late : Quantization where
  pulses := [{ period := 5000000, offset := 2500000, high := 2500000, channels := .ofList [0] }]
  masking := []
  step := 20
  factor := 1

-- counted in two steps of 50 ms, the only one in which the signal is on is the one of the branch
theorem programWith_coarsen_late :
    (∀ p ∈ late.pulses ++ late.masking, p.CountedBy 2500000) ∧ 2500000 ∣ 5000000 ∧
      ∃ t < 5000000 * late.step,
        outputAt (programWith (fun _ _ => id) () (outputStage 24 3 []) late (5000000 - 1)).1 t =
          some 0xe00001 ∧
        outputAt (programWith (fun _ _ => id) () (outputStage 24 3 []) (late.coarsen 2500000)
          (5000000 / 2500000 - 1)).1 t = some 0 := by
  have hcounts : ∀ p ∈ late.pulses ++ late.masking, p.CountedBy 2500000 := by
    intro p hp
    simp only [late, List.append_nil, List.mem_singleton] at hp
    subst hp
    exact ⟨by decide, by decide, by decide⟩
  refine ⟨hcounts, by decide, 50000000, by decide, ?_, ?_⟩
  · rw [outputAt_programWith _ _ _ (by decide) (by decide)]
    decide +kernel
  · rw [outputAt_coarsen _ (by decide) (by decide) (by decide) (by decide) hcounts _ _ (by decide)]
    decide +kernel

end Compiler

end PulseSequencer
