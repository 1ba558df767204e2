import PulseSequencer.Proofs.Waveform.Coarsening

/-!
# The longest step

Signals are counted in quanta, and then in the longest step that all counts and the number of cycles
allow.  The longer step loses nothing, and no longer one would do.

* `Pulse.Restores`: a pulse in long steps says the same as one in quanta.
* `dvd_commonFactor_iff`: the common factor is a greatest common divisor, also if there are no
  cycles.
* `exists_ofSignals_eq_error_iff`, `ofSignals_eq_error`: when there are no counts.
* `ofSignals_coarsest`: all of it for primary and masking signals together.
-/

namespace PulseSequencer

/-- The fine pulse is the coarse one, counted in steps `factor` times as short. -/
structure Pulse.Restores (factor : Nat) (coarse fine : Pulse) : Prop where
  period : coarse.period * factor = fine.period
  offset : coarse.offset * factor = fine.offset
  high : coarse.high * factor = fine.high
  channels : coarse.channels = fine.channels
  activeHigh : coarse.activeHigh = fine.activeHigh

theorem Pulse.CountedBy.restores {factor : Nat} {p : Pulse} (h : p.CountedBy factor) :
    Pulse.Restores factor (p.coarsen factor) p where
  period := Nat.div_mul_cancel h.period
  offset := Nat.div_mul_cancel h.offset
  high := Nat.div_mul_cancel h.high
  channels := rfl
  activeHigh := rfl

theorem Pulse.CountedBy.of_coarsen {factor d : Nat} {p : Pulse} (h : p.CountedBy factor)
    (hcoarse : (p.coarsen factor).CountedBy d) : p.CountedBy (factor * d) where
  period := Nat.mul_dvd_of_dvd_div h.period hcoarse.period
  offset := Nat.mul_dvd_of_dvd_div h.offset hcoarse.offset
  high := Nat.mul_dvd_of_dvd_div h.high hcoarse.high

namespace Quantization

variable {quantum cycles : Nat} {signals masking : List Signal} {q : Quantization}

/-! ### The common factor -/

section Factor

variable {pulses : List Pulse} {p : Pulse} {d : Nat}

/-- One pulse is enough to make the common factor a greatest common divisor. -/
theorem dvd_commonFactor_iff (hp : p ∈ pulses) (hperiod : 0 < p.period) :
    d ∣ commonFactor pulses cycles ↔ (∀ p ∈ pulses, p.CountedBy d) ∧ d ∣ cycles := by
  have hmem : p.period ∈ pulses.flatMap countsOf ++ [cycles] :=
    List.mem_append_left _ (List.mem_flatMap.mpr ⟨p, hp, period_mem_countsOf p⟩)
  rw [commonFactor_eq_gcdAll hmem hperiod, dvd_gcdAll_iff]
  simp only [List.mem_append, List.mem_flatMap, List.mem_singleton, countedBy_iff]
  constructor
  · exact fun h => ⟨fun p hp n hn => h n (.inl ⟨p, hp, hn⟩), h cycles (.inr rfl)⟩
  · rintro ⟨hcounts, hcycles⟩ n (⟨p, hp, hn⟩ | rfl)
    · exact hcounts p hp n hn
    · exact hcycles

/-- What is left after dividing by the common factor has no common divisor. -/
theorem eq_one_of_countedBy_coarsen (hp : p ∈ pulses) (hperiod : 0 < p.period)
    (hcoarse : ∀ p ∈ pulses, (p.coarsen (commonFactor pulses cycles)).CountedBy d)
    (hcycles : d ∣ cycles / commonFactor pulses cycles) : d = 1 := by
  obtain ⟨hcounted, hdvd⟩ := (dvd_commonFactor_iff hp hperiod).mp (Nat.dvd_refl _)
  have hlonger : commonFactor pulses cycles * d ∣ commonFactor pulses cycles := by
    refine (dvd_commonFactor_iff hp hperiod).mpr ⟨fun p hp => ?_, ?_⟩
    · exact (hcounted p hp).of_coarsen (hcoarse p hp)
    · exact Nat.mul_dvd_of_dvd_div hdvd hcycles
  have hone : commonFactor pulses cycles * d ∣ commonFactor pulses cycles * 1 := by
    rwa [Nat.mul_one]
  exact Nat.dvd_one.mp (Nat.dvd_of_mul_dvd_mul_left (commonFactor_pos pulses cycles) hone)

end Factor

/-! ### Signals that have no counts -/

theorem count_ne_zero_of_pulsesOf {pulses : List Pulse} (h : pulsesOf quantum signals = .ok pulses)
    {s : Signal} (hs : s ∈ signals) :
    Binary64.roundToWord (s.period / Binary64.ofNat quantum) ≠ 0 := by
  obtain ⟨p, -, hp⟩ := exists_right_of_mem (forall₂_of_mapM h) hs
  rw [← (pulseOf_eq_ok hp).2]
  exact Nat.ne_of_gt (counts_of_pulseOf hp).1

theorem pulsesOf_eq_error {e : CompileError} (h : pulsesOf quantum signals = .error e) :
    ∃ s ∈ signals, Binary64.roundToWord (s.period / Binary64.ofNat quantum) = 0 ∧
      e = .synchronization (.fasterThanQuantum s quantum) := by
  obtain ⟨s, hs, he⟩ := exists_of_mapM_eq_error h
  obtain ⟨hzero, rfl⟩ := pulseOf_eq_error_iff.mp he
  exact ⟨s, hs, hzero, rfl⟩

/-- There are no counts if a signal is too fast, or if the step would not fit a word. -/
theorem ofSignals_eq_error {e : CompileError}
    (h : ofSignals quantum cycles signals masking = .error e) :
    (∃ s ∈ signals ++ masking, Binary64.roundToWord (s.period / Binary64.ofNat quantum) = 0 ∧
      e = .synchronization (.fasterThanQuantum s quantum)) ∨
    e = .arithmetic .overflow ∧ ∃ pulses maskingPulses, pulsesOf quantum signals = .ok pulses ∧
      pulsesOf quantum masking = .ok maskingPulses ∧
      wordLimit ≤ quantum * commonFactor (pulses ++ maskingPulses) cycles := by
  unfold ofSignals at h
  rcases bind_eq_error_iff.mp h with h | ⟨pulses, hpulses, h⟩
  · obtain ⟨s, hs, hfast⟩ := pulsesOf_eq_error h
    exact .inl ⟨s, List.mem_append_left _ hs, hfast⟩
  rcases bind_eq_error_iff.mp h with h | ⟨maskingPulses, hmasking, h⟩
  · obtain ⟨s, hs, hfast⟩ := pulsesOf_eq_error h
    exact .inl ⟨s, List.mem_append_right _ hs, hfast⟩
  rcases bind_eq_error_iff.mp h with h | ⟨step, -, h⟩
  · obtain ⟨fault, hfault, rfl⟩ := mapError_eq_error_iff.mp h
    unfold Word.mul Word.fit at hfault
    split at hfault
    · cases hfault
    · next hlarge =>
      cases hfault
      exact .inr ⟨rfl, pulses, maskingPulses, hpulses, hmasking, Nat.le_of_not_lt hlarge⟩
  · cases h

theorem exists_ofSignals_eq_error_iff :
    (∃ fault, ofSignals quantum cycles signals masking = .error (.synchronization fault)) ↔
      ∃ s ∈ signals ++ masking,
        Binary64.roundToWord (s.period / Binary64.ofNat quantum) = 0 := by
  constructor
  · rintro ⟨fault, h⟩
    obtain ⟨s, hs, hzero, -⟩ | ⟨he, -⟩ := ofSignals_eq_error h
    · exact ⟨s, hs, hzero⟩
    · cases he
  · rintro ⟨s, hs, hzero⟩
    have hcounted : ¬ ∃ pulses maskingPulses, pulsesOf quantum signals = .ok pulses ∧
        pulsesOf quantum masking = .ok maskingPulses := by
      rintro ⟨pulses, maskingPulses, hpulses, hmasking⟩
      rcases List.mem_append.mp hs with hs | hs
      · exact count_ne_zero_of_pulsesOf hpulses hs hzero
      · exact count_ne_zero_of_pulsesOf hmasking hs hzero
    cases h : ofSignals quantum cycles signals masking with
    | ok q =>
      obtain ⟨pulses, maskingPulses, hpulses, hmasking, -⟩ := ofSignals_eq_ok h
      exact absurd ⟨pulses, maskingPulses, hpulses, hmasking⟩ hcounted
    | error e =>
      obtain ⟨s, -, -, rfl⟩ | ⟨-, pulses, maskingPulses, hpulses, hmasking, -⟩ :=
        ofSignals_eq_error h
      · exact ⟨_, rfl⟩
      · exact absurd ⟨pulses, maskingPulses, hpulses, hmasking⟩ hcounted

/-! ### The longest step of signals -/

theorem step_lt_of_ofSignals (h : ofSignals quantum cycles signals masking = .ok q) :
    q.step < wordLimit := by
  unfold ofSignals at h
  obtain ⟨pulses, -, h⟩ := bind_eq_ok_iff.mp h
  obtain ⟨maskingPulses, -, h⟩ := bind_eq_ok_iff.mp h
  obtain ⟨step, hstep, h⟩ := bind_eq_ok_iff.mp h
  obtain ⟨hlt, rfl⟩ := Word.fit_eq_ok_iff.mp (mapError_eq_ok_iff.mp hstep)
  cases h
  exact hlt

/-- Where there is a signal, there is a pulse. -/
theorem exists_mem_of_pulsesOf {pulses maskingPulses : List Pulse}
    (hpulses : pulsesOf quantum signals = .ok pulses)
    (hmasking : pulsesOf quantum masking = .ok maskingPulses) (hsome : signals ++ masking ≠ []) :
    ∃ p ∈ pulses ++ maskingPulses, 0 < p.period := by
  obtain ⟨s, hs⟩ := List.exists_mem_of_ne_nil _ hsome
  rcases List.mem_append.mp hs with hs | hs
  · obtain ⟨p, hp, hcount⟩ := exists_right_of_mem (forall₂_of_mapM hpulses) hs
    exact ⟨p, List.mem_append_left _ hp, (counts_of_pulseOf hcount).1⟩
  · obtain ⟨p, hp, hcount⟩ := exists_right_of_mem (forall₂_of_mapM hmasking) hs
    exact ⟨p, List.mem_append_right _ hp, (counts_of_pulseOf hcount).1⟩

theorem forall₂_restores {factor : Nat} {pulses : List Pulse}
    (h : ∀ p ∈ pulses, p.CountedBy factor) :
    List.Forall₂ (Pulse.Restores factor) (pulses.map (Pulse.coarsen factor)) pulses := by
  rw [List.forall₂_map_left_iff]
  exact List.forall₂_same.mpr fun p hp => (h p hp).restores

/-- **Coarsening is exact and maximal.**  Take at least one signal, primary or masking.  If there
are counts, then the pulses are in their order those of the signals counted in quanta, with every
count divided without a rest; the step is the quantum times the factor, and fits a word; the
factor divides the number of cycles; and all counts and cycles that are left have no common
divisor but 1.

Counting reports a fault exactly if the period of some signal rounds to no quantum at all; besides
that, only a step that would leave the word is in the way. -/
theorem ofSignals_coarsest (quantum cycles : Nat) {signals masking : List Signal}
    (hsome : signals ++ masking ≠ []) :
    (∀ q, ofSignals quantum cycles signals masking = .ok q →
      (∃ pulses maskingPulses, pulsesOf quantum signals = .ok pulses ∧
        pulsesOf quantum masking = .ok maskingPulses ∧
        List.Forall₂ (Pulse.Restores q.factor) q.pulses pulses ∧
        List.Forall₂ (Pulse.Restores q.factor) q.masking maskingPulses) ∧
      0 < q.factor ∧ q.step = quantum * q.factor ∧ q.step < wordLimit ∧ q.factor ∣ cycles ∧
      ∀ d, (∀ p ∈ q.pulses ++ q.masking, d ∣ p.period ∧ d ∣ p.offset ∧ d ∣ p.high) →
        d ∣ cycles / q.factor → d = 1) ∧
    ((∃ fault, ofSignals quantum cycles signals masking = .error (.synchronization fault)) ↔
      ∃ s ∈ signals ++ masking,
        Binary64.roundToWord (s.period / Binary64.ofNat quantum) = 0) ∧
    ∀ e, ofSignals quantum cycles signals masking = .error e →
      (∃ fault, e = .synchronization fault) ∨
      ∃ pulses maskingPulses, pulsesOf quantum signals = .ok pulses ∧
        pulsesOf quantum masking = .ok maskingPulses ∧
        wordLimit ≤ quantum * commonFactor (pulses ++ maskingPulses) cycles := by
  refine ⟨fun q h => ?_, exists_ofSignals_eq_error_iff, fun e h => ?_⟩
  · obtain ⟨pulses, maskingPulses, hpulses, hmasking, hfactor, hq, hqm, hstep⟩ := ofSignals_eq_ok h
    obtain ⟨p, hp, hperiod⟩ := exists_mem_of_pulsesOf hpulses hmasking hsome
    have hself : q.factor ∣ commonFactor (pulses ++ maskingPulses) cycles := by rw [hfactor]
    obtain ⟨hcounted, hdvd⟩ := (dvd_commonFactor_iff hp hperiod).mp hself
    rw [List.forall_mem_append] at hcounted
    refine ⟨⟨pulses, maskingPulses, hpulses, hmasking, ?_, ?_⟩, ?_, hstep, ?_, hdvd, ?_⟩
    · exact hq ▸ forall₂_restores hcounted.1
    · exact hqm ▸ forall₂_restores hcounted.2
    · exact hfactor ▸ commonFactor_pos _ _
    · exact step_lt_of_ofSignals h
    · intro d hcoarse hcycles
      rw [hq, hqm, ← List.map_append, List.forall_mem_map] at hcoarse
      rw [hfactor] at hcoarse hcycles
      refine eq_one_of_countedBy_coarsen hp hperiod (fun p hp => ?_) hcycles
      obtain ⟨hperiod, hoffset, hhigh⟩ := hcoarse p hp
      exact ⟨hperiod, hoffset, hhigh⟩
  · obtain ⟨s, -, -, rfl⟩ | ⟨-, hlarge⟩ := ofSignals_eq_error h
    · exact .inl ⟨_, rfl⟩
    · exact .inr hlarge

/-- 10 Hz on channel 0, from 1000 ns on. -/
def late : Signal :=
  ⟨10, .ofList [0], 1000, 0.5, 50000000, true, .dutyCycle⟩

/-- 20 Hz on channel 0, on for 10 ms of each period. -/
def gate : Signal :=
  ⟨20, .ofList [0], 0, 0.2, 10000000, false, .highTime⟩

/-- 100 MHz on channel 0. -/
def hasty : Signal :=
  ⟨1e8, .ofList [0], 0, 0.5, 5, true, .dutyCycle⟩

-- without cycles the counts alone set the factor; and half a quantum of 20 ns rounds to none
theorem ofSignals_coarsest_late :
    [late] ++ [gate] ≠ [] ∧
      (∃ q, ofSignals 20 0 [late] [gate] = .ok q ∧ q.factor = 50 ∧ q.step = 20 * q.factor ∧
        ∀ d, (∀ p ∈ q.pulses ++ q.masking, d ∣ p.period ∧ d ∣ p.offset ∧ d ∣ p.high) →
          d ∣ 0 / q.factor → d = 1) ∧
      ∃ fault, ofSignals 20 5000000 [late] [hasty] = .error (.synchronization fault) := by
  have hsome : [late] ++ [gate] ≠ [] := by simp
  have hrun : (ofSignals 20 0 [late] [gate]).toOption.map Quantization.factor = some 50 := by
    decide +kernel
  obtain ⟨q, hq, hfactor⟩ := Option.map_eq_some_iff.mp hrun
  have hq := toOption_eq_some_iff.mp hq
  obtain ⟨-, -, hstep, -, -, hmaximal⟩ := (ofSignals_coarsest 20 0 hsome).1 q hq
  refine ⟨hsome, ⟨q, hq, hfactor, hstep, hmaximal⟩, ?_⟩
  exact (ofSignals_coarsest 20 5000000 (by simp)).2.1.mpr ⟨hasty, by simp, by decide +kernel⟩

end Quantization

end PulseSequencer
