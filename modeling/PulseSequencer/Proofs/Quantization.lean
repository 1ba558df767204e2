import PulseSequencer.Quantization
import PulseSequencer.Proofs.Arith.Divisors
import PulseSequencer.Proofs.Signal

/-!
# Steps of whole quanta

A step holds as many quanta as divide all counts and the number of cycles, so the cycles are whole
steps (`commonFactor_dvd`).  Pulses keep the channels of their signals (`exists_signal_of_mem`), and
their periods are whole numbers of steps (`exists_period_of_mem`).
-/

namespace PulseSequencer

namespace Quantization

variable {quantum cycles : Nat} {signals masking : List Signal} {q : Quantization}

theorem pulseOf_eq_ok {s : Signal} {p : Pulse} (h : pulseOf quantum s = .ok p) :
    p.channels = s.channels ∧
      p.period = Binary64.roundToWord (s.period / Binary64.ofNat quantum) := by
  unfold pulseOf at h
  obtain ⟨-, h⟩ := guard_eq_ok_iff.mp h
  cases h
  exact ⟨rfl, rfl⟩

theorem pulseOf_eq_error_iff {s : Signal} {e : CompileError} :
    pulseOf quantum s = .error e ↔
      Binary64.roundToWord (s.period / Binary64.ofNat quantum) = 0 ∧
        .synchronization (.fasterThanQuantum s quantum) = e := by
  unfold pulseOf
  rw [guard_eq_error_iff]
  constructor
  · rintro (h | ⟨-, h⟩)
    · exact h
    · cases h
  · exact .inl

/-- The counts of a pulse are words, and its period is at least one quantum. -/
theorem counts_of_pulseOf {s : Signal} {p : Pulse} (h : pulseOf quantum s = .ok p) :
    0 < p.period ∧ p.period < wordLimit ∧ p.offset < wordLimit ∧ p.high < wordLimit := by
  unfold pulseOf at h
  obtain ⟨hne, h⟩ := guard_eq_ok_iff.mp h
  cases h
  refine ⟨Nat.pos_of_ne_zero hne, Binary64.roundToWord_lt _, Binary64.roundToWord_lt _, ?_⟩
  dsimp only
  split <;> exact Binary64.roundToWord_lt _

theorem period_mem_countsOf (p : Pulse) : p.period ∈ countsOf p := by
  unfold countsOf
  split <;> simp

theorem commonFactor_pos (pulses : List Pulse) (cycles : Nat) : 0 < commonFactor pulses cycles :=
  Nat.lt_of_lt_of_le Nat.one_pos (Nat.le_max_right _ _)

theorem commonFactor_eq_gcdAll {pulses : List Pulse} {n : Nat}
    (hn : n ∈ pulses.flatMap countsOf ++ [cycles]) (hpos : 0 < n) :
    commonFactor pulses cycles = gcdAll (pulses.flatMap countsOf ++ [cycles]) :=
  Nat.max_eq_left (Nat.pos_of_dvd_of_pos (gcdAll_dvd hn) hpos)

theorem commonFactor_dvd (pulses : List Pulse) (hcycles : 0 < cycles) :
    commonFactor pulses cycles ∣ cycles := by
  rw [commonFactor_eq_gcdAll (by simp) hcycles]
  exact gcdAll_dvd (by simp)

theorem commonFactor_dvd_count {pulses : List Pulse} {p : Pulse} {n : Nat} (hcycles : 0 < cycles)
    (hp : p ∈ pulses) (hn : n ∈ countsOf p) : commonFactor pulses cycles ∣ n := by
  rw [commonFactor_eq_gcdAll (n := cycles) (by simp) hcycles]
  exact gcdAll_dvd (List.mem_append_left _ (List.mem_flatMap.mpr ⟨p, hp, hn⟩))

theorem ofSignals_eq_ok (h : ofSignals quantum cycles signals masking = .ok q) :
    ∃ pulses maskingPulses, pulsesOf quantum signals = .ok pulses ∧
      pulsesOf quantum masking = .ok maskingPulses ∧
      q.factor = commonFactor (pulses ++ maskingPulses) cycles ∧
      q.pulses = pulses.map (Pulse.coarsen q.factor) ∧
      q.masking = maskingPulses.map (Pulse.coarsen q.factor) ∧
      q.step = quantum * q.factor := by
  unfold ofSignals at h
  obtain ⟨pulses, hpulses, h⟩ := bind_eq_ok_iff.mp h
  obtain ⟨maskingPulses, hmasking, h⟩ := bind_eq_ok_iff.mp h
  obtain ⟨step, hstep, h⟩ := bind_eq_ok_iff.mp h
  obtain ⟨-, hstep⟩ := Word.fit_eq_ok_iff.mp (mapError_eq_ok_iff.mp hstep)
  cases h
  exact ⟨pulses, maskingPulses, hpulses, hmasking, rfl, rfl, rfl, hstep.symm⟩

theorem exists_signal_of_mem (h : ofSignals quantum cycles signals masking = .ok q) {p : Pulse}
    (hp : p ∈ q.pulses) : ∃ s ∈ signals, p.channels = s.channels := by
  obtain ⟨pulses, -, hpulses, -, -, hq, -⟩ := ofSignals_eq_ok h
  rw [hq] at hp
  obtain ⟨p', hp', rfl⟩ := List.mem_map.mp hp
  obtain ⟨s, hs, hcount⟩ := exists_of_mem_mapM hpulses hp'
  refine ⟨s, hs, ?_⟩
  show p'.channels = s.channels
  exact (pulseOf_eq_ok hcount).1

/-- The period of every pulse is that of a signal, counted in quanta and divided by the factor, which
leaves no rest. -/
theorem exists_period_of_mem (h : ofSignals quantum cycles signals masking = .ok q)
    (hcycles : 0 < cycles) {p : Pulse} (hp : p ∈ q.pulses ++ q.masking) :
    ∃ s ∈ signals ++ masking, ∃ count,
      count = Binary64.roundToWord (s.period / Binary64.ofNat quantum) ∧ q.factor ∣ count ∧
        p.period = count / q.factor := by
  obtain ⟨pulses, maskingPulses, hpulses, hmasking, hfactor, hq, hqm, -⟩ := ofSignals_eq_ok h
  rw [hq, hqm, ← List.map_append] at hp
  obtain ⟨p', hp', rfl⟩ := List.mem_map.mp hp
  obtain ⟨s, hs, hcount⟩ : ∃ s ∈ signals ++ masking, pulseOf quantum s = .ok p' := by
    rcases List.mem_append.mp hp' with hp' | hp'
    · obtain ⟨s, hs, hcount⟩ := exists_of_mem_mapM hpulses hp'
      exact ⟨s, List.mem_append_left _ hs, hcount⟩
    · obtain ⟨s, hs, hcount⟩ := exists_of_mem_mapM hmasking hp'
      exact ⟨s, List.mem_append_right _ hs, hcount⟩
  refine ⟨s, hs, p'.period, (pulseOf_eq_ok hcount).2, ?_, rfl⟩
  rw [hfactor]
  exact commonFactor_dvd_count hcycles hp' (period_mem_countsOf p')

end Quantization

end PulseSequencer
