import PulseSequencer.Arith.Rounding
import PulseSequencer.Synchrony
import PulseSequencer.Proofs.Arith.Divisors
import PulseSequencer.Proofs.Stages

/-!
# The duration that signals repeat after

A duration that is found, in either way, holds whole quanta and fits a word: `quanta_of_multiples` and
`quanta_of_common`.  One that is given is kept (`ofSignals_eq_ok`).
-/

namespace PulseSequencer

theorem roundToMultiple_eq_ok_iff {value unit r : Nat} :
    roundToMultiple value unit = .ok r ↔
      unit ≠ 0 ∧ 2 * (value % unit) < wordLimit ∧ nearestMultiple value unit = r ∧ r < wordLimit := by
  unfold roundToMultiple Word.mul
  constructor
  · intro h
    obtain ⟨hunit, h⟩ := guard_eq_ok_iff.mp h
    obtain ⟨twice, htwice, h⟩ := bind_eq_ok_iff.mp h
    obtain ⟨hlt, rfl⟩ := Word.fit_eq_ok_iff.mp h
    exact ⟨hunit, (Word.fit_eq_ok_iff.mp htwice).1, rfl, hlt⟩
  · rintro ⟨hunit, htwice, rfl, hlt⟩
    refine guard_eq_ok_iff.mpr ⟨hunit, bind_eq_ok_iff.mpr ?_⟩
    exact ⟨_, Word.fit_eq_ok_iff.mpr ⟨htwice, rfl⟩, Word.fit_eq_ok_iff.mpr ⟨hlt, rfl⟩⟩

theorem dvd_of_roundToMultiple {value unit r : Nat} (h : roundToMultiple value unit = .ok r) :
    unit ∣ r := by
  obtain ⟨-, -, rfl, -⟩ := roundToMultiple_eq_ok_iff.mp h
  exact Nat.dvd_mul_left _ _

theorem Word.div_eq_ok_iff {a b q : Nat} : Word.div a b = .ok q ↔ b ≠ 0 ∧ a / b = q := by
  unfold Word.div
  split
  · next h => simp [h]
  · next h => simp [h]

namespace Synchrony

variable {c : Config} {frequencies : List Float} {grid duration : Nat} {periods : List Nat}

/-! ### What the stages return -/

theorem granularity_eq_ok_iff :
    granularity c = .ok grid ↔ c.roundingCycles * c.quantum < wordLimit ∧
      c.roundingCycles * c.quantum = grid :=
  mapError_eq_ok_iff.trans Word.fit_eq_ok_iff

theorem multiplePeriods_eq_ok (h : multiplePeriods c frequencies = .ok (duration, periods)) :
    ∃ grid, granularity c = .ok grid ∧ duration ≠ 0 ∧
      roundToMultiple (Binary64.roundToWord (Signal.reciprocal (slowest frequencies))) grid
        = .ok duration ∧
      frequencies.mapM (multiplePeriod c duration (slowest frequencies)) = .ok periods := by
  unfold multiplePeriods at h
  obtain ⟨grid, hgrid, h⟩ := bind_eq_ok_iff.mp h
  obtain ⟨duration', hround, h⟩ := bind_eq_ok_iff.mp h
  obtain ⟨hne, h⟩ := guard_eq_ok_iff.mp h
  obtain ⟨periods', hperiods, h⟩ := bind_eq_ok_iff.mp h
  cases h
  exact ⟨grid, hgrid, hne, mapError_eq_ok_iff.mp hround, hperiods⟩

theorem roundedPeriod_eq_ok {f : Float} {period : Nat} (h : roundedPeriod c grid f = .ok period) :
    period ≠ 0 ∧ ∃ exact, roundToMultiple (exact - exact % c.quantum) grid = .ok period ∧
      exact = Binary64.roundToWord (Signal.reciprocal f) := by
  unfold roundedPeriod at h
  obtain ⟨period', hround, h⟩ := bind_eq_ok_iff.mp h
  obtain ⟨hne, h⟩ := guard_eq_ok_iff.mp h
  cases h
  exact ⟨hne, _, mapError_eq_ok_iff.mp hround, rfl⟩

theorem commonMultiple_eq_ok (h : commonMultiple c periods = .ok duration) :
    lcmAll? periods = some duration ∧ duration < c.ceiling := by
  unfold commonMultiple at h
  split at h
  · cases h
  · next found hfound =>
    split at h
    · cases h
    · next hlt =>
      cases h
      exact ⟨hfound, Nat.not_le.mp hlt⟩

theorem commonPeriods_eq_ok (h : commonPeriods c frequencies = .ok (duration, periods)) :
    ∃ grid, granularity c = .ok grid ∧ frequencies.mapM (roundedPeriod c grid) = .ok periods ∧
      lcmAll? periods = some duration ∧ duration < c.ceiling := by
  unfold commonPeriods roundedPeriods at h
  obtain ⟨periods', hperiods, h⟩ := bind_eq_ok_iff.mp h
  obtain ⟨grid, hgrid, hperiods⟩ := bind_eq_ok_iff.mp hperiods
  obtain ⟨duration', hduration, h⟩ := bind_eq_ok_iff.mp h
  cases h
  obtain ⟨hlcm, hlt⟩ := commonMultiple_eq_ok hduration
  exact ⟨grid, hgrid, hperiods, hlcm, hlt⟩

theorem settle_eq_ok {given : Option Nat} {adjusted : List Float}
    (h : settle c given frequencies = .ok (duration, adjusted)) :
    frequencies ≠ [] ∧
      ((given = some duration ∧ c.quantum ≤ duration ∧ adjusted = frequencies) ∨
        (given = none ∧ ∃ periods, findPeriods c frequencies = .ok (duration, periods) ∧
          adjusted = periods.map frequencyOf)) := by
  unfold settle at h
  obtain ⟨hne, h⟩ := guard_eq_ok_iff.mp h
  refine ⟨by simpa using hne, ?_⟩
  cases given with
  | some d =>
    obtain ⟨hlt, h⟩ := guard_eq_ok_iff.mp h
    cases h
    exact .inl ⟨rfl, Nat.not_lt.mp hlt, rfl⟩
  | none =>
    obtain ⟨⟨d, periods⟩, hfind, h⟩ := bind_eq_ok_iff.mp h
    cases h
    exact .inr ⟨rfl, periods, hfind, rfl⟩

/-! ### Whole quanta -/

/-- A duration that is a word and holds whole quanta, at least one. -/
structure WholeQuanta (c : Config) (duration : Nat) : Prop where
  positive : 0 < duration
  whole : c.quantum ∣ duration
  word : duration < wordLimit

theorem quantum_dvd_grid (h : granularity c = .ok grid) : c.quantum ∣ grid := by
  obtain ⟨-, rfl⟩ := granularity_eq_ok_iff.mp h
  exact Nat.dvd_mul_left _ _

theorem quanta_of_multiples (h : multiplePeriods c frequencies = .ok (duration, periods)) :
    WholeQuanta c duration := by
  obtain ⟨grid, hgrid, hne, hround, -⟩ := multiplePeriods_eq_ok h
  obtain ⟨-, -, -, hword⟩ := roundToMultiple_eq_ok_iff.mp hround
  exact ⟨Nat.pos_of_ne_zero hne, (quantum_dvd_grid hgrid).trans (dvd_of_roundToMultiple hround), hword⟩

theorem forall_roundedPeriod (h : frequencies.mapM (roundedPeriod c grid) = .ok periods) :
    ∀ p ∈ periods, 0 < p ∧ grid ∣ p := by
  intro p hp
  obtain ⟨f, -, hf⟩ := exists_of_mem_mapM h hp
  obtain ⟨hne, exact, hround, -⟩ := roundedPeriod_eq_ok hf
  exact ⟨Nat.pos_of_ne_zero hne, dvd_of_roundToMultiple hround⟩

theorem quanta_of_common (hne : frequencies ≠ [])
    (h : commonPeriods c frequencies = .ok (duration, periods)) : WholeQuanta c duration := by
  obtain ⟨grid, hgrid, hperiods, hlcm, -⟩ := commonPeriods_eq_ok h
  have hall := forall_roundedPeriod hperiods
  have hpos : ∀ p ∈ periods, 0 < p := fun p hp => (hall p hp).1
  obtain ⟨rfl, hword⟩ := (lcmAll?_eq_some_iff hpos).mp hlcm
  -- one period is enough: it is a multiple of the quantum and a divisor of the duration
  obtain ⟨p, hp⟩ : ∃ p, p ∈ periods := by
    apply List.exists_mem_of_ne_nil
    rintro rfl
    have hlen := (forall₂_of_mapM hperiods).length_eq
    exact hne (List.length_eq_zero_iff.mp hlen)
  have hdvd : p ∣ periods.foldl Nat.lcm 1 := (foldl_lcm_dvd_iff.mp (Nat.dvd_refl _)).2 p hp
  exact ⟨foldl_lcm_pos Nat.one_pos hpos, ((quantum_dvd_grid hgrid).trans (hall p hp).2).trans hdvd,
    hword⟩

theorem quanta_of_findPeriods (hne : frequencies ≠ [])
    (h : findPeriods c frequencies = .ok (duration, periods)) : WholeQuanta c duration := by
  unfold findPeriods at h
  split at h
  · exact quanta_of_multiples h
  · exact quanta_of_common hne h

/-- What synchronizing promises: the number of cycles is that of whole quanta in the duration, and a
duration is the given one, of at least one quantum, or a found one of nothing but whole quanta. -/
theorem ofSignals_eq_ok {given : Option Nat} {signals masking : List Signal} {s : Synchrony}
    (h : ofSignals c given signals masking = .ok s) :
    c.quantum ≠ 0 ∧ s.cycles = s.duration / c.quantum ∧
      ((given = some s.duration ∧ c.quantum ≤ s.duration) ∨
        (given = none ∧ WholeQuanta c s.duration)) := by
  unfold ofSignals ofFrequencies at h
  obtain ⟨⟨duration, adjusted⟩, hsettle, h⟩ := bind_eq_ok_iff.mp h
  obtain ⟨cycles, hcycles, h⟩ := bind_eq_ok_iff.mp h
  cases h
  obtain ⟨hquantum, rfl⟩ := Word.div_eq_ok_iff.mp (mapError_eq_ok_iff.mp hcycles)
  obtain ⟨hne, ⟨hgiven, hle, -⟩ | ⟨hgiven, periods, hfind, -⟩⟩ := settle_eq_ok hsettle
  · exact ⟨hquantum, rfl, .inl ⟨hgiven, hle⟩⟩
  · exact ⟨hquantum, rfl, .inr ⟨hgiven, quanta_of_findPeriods hne hfind⟩⟩

/-- Without a given duration, synchronizing is finding periods. -/
theorem ofSignals_none_eq_ok_iff {signals masking : List Signal} {s : Synchrony} :
    ofSignals c none signals masking = .ok s ↔
      c.quantum ≠ 0 ∧ signals ++ masking ≠ [] ∧ ∃ periods,
        findPeriods c ((signals ++ masking).map Signal.frequency) = .ok (s.duration, periods) ∧
          s.cycles = s.duration / c.quantum ∧ s.frequencies = periods.map frequencyOf := by
  unfold ofSignals ofFrequencies
  constructor
  · intro h
    obtain ⟨⟨duration, adjusted⟩, hsettle, h⟩ := bind_eq_ok_iff.mp h
    obtain ⟨cycles, hcycles, h⟩ := bind_eq_ok_iff.mp h
    cases h
    obtain ⟨hquantum, rfl⟩ := Word.div_eq_ok_iff.mp (mapError_eq_ok_iff.mp hcycles)
    obtain ⟨hne, ⟨hgiven, -⟩ | ⟨-, periods, hfind, hadjusted⟩⟩ := settle_eq_ok hsettle
    · cases hgiven
    · exact ⟨hquantum, by simpa using hne, periods, hfind, rfl, hadjusted⟩
  · rintro ⟨hquantum, hne, periods, hfind, hcycles, hfrequencies⟩
    refine bind_eq_ok_iff.mpr ⟨(s.duration, s.frequencies), ?_, bind_eq_ok_iff.mpr ⟨s.cycles, ?_, rfl⟩⟩
    · unfold settle
      refine guard_eq_ok_iff.mpr ⟨by simpa using hne, bind_eq_ok_iff.mpr ⟨_, hfind, ?_⟩⟩
      rw [hfrequencies]
      rfl
    · exact mapError_eq_ok_iff.mpr (Word.div_eq_ok_iff.mpr ⟨hquantum, hcycles.symm⟩)

end Synchrony

end PulseSequencer
