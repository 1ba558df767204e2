import PulseSequencer.Proofs.Compiler.Shape
import PulseSequencer.Proofs.Synchrony.Parts

/-!
# Whole periods from end to end

Signals that are not multiples of the slowest are synchronized on a grid: each period is cut to whole
quanta and rounded to the grid (`gridPeriod`), and the duration is the least common multiple of all of
them (`commonDuration`).

* `commonPeriods_eq_ok_iff`: when such a duration is found, and which one it is.
* `period_dvd_steps`: a period that divides the duration still does so when both are counted in steps.
* `commonDuration_whole`: from the frequencies to the steps of the compiled program.
-/

namespace PulseSequencer

namespace Synchrony

variable {c : Config} {frequencies : List Float} {duration : Nat} {periods : List Nat}

/-- The period of a frequency in ns, cut to whole quanta. -/
def cutPeriod (c : Config) (f : Float) : Nat :=
  let exact := Binary64.roundToWord (Signal.reciprocal f)
  exact - exact % c.quantum

/-- The period of a frequency in ns, on the grid that periods are rounded to. -/
def gridPeriod (c : Config) (f : Float) : Nat :=
  nearestMultiple (cutPeriod c f) (c.roundingCycles * c.quantum)

/-- The least common multiple of all periods on the grid. -/
def commonDuration (c : Config) (frequencies : List Float) : Nat :=
  (frequencies.map (gridPeriod c)).foldl Nat.lcm 1

/-- No number that comes up in rounding the periods leaves the word. -/
structure RoundingFits (c : Config) (frequencies : List Float) : Prop where
  grid : c.roundingCycles * c.quantum < wordLimit
  remainder : ∀ f ∈ frequencies, 2 * (cutPeriod c f % (c.roundingCycles * c.quantum)) < wordLimit
  period : ∀ f ∈ frequencies, gridPeriod c f < wordLimit

/-! ### Periods on the grid -/

theorem roundedPeriod_eq_gridPeriod {f : Float} {period : Nat}
    (h : roundedPeriod c (c.roundingCycles * c.quantum) f = .ok period) :
    gridPeriod c f ≠ 0 ∧ gridPeriod c f = period := by
  obtain ⟨hne, exact, hround, rfl⟩ := roundedPeriod_eq_ok h
  obtain ⟨-, -, hnearest, -⟩ := roundToMultiple_eq_ok_iff.mp hround
  have heq : gridPeriod c f = period := hnearest
  exact ⟨heq ▸ hne, heq⟩

theorem RoundingFits.roundedPeriod_eq_ok (h : RoundingFits c frequencies)
    (hgrid : 0 < c.roundingCycles * c.quantum) {f : Float} (hf : f ∈ frequencies)
    (hne : gridPeriod c f ≠ 0) :
    roundedPeriod c (c.roundingCycles * c.quantum) f = .ok (gridPeriod c f) := by
  have hround : roundToMultiple (cutPeriod c f) (c.roundingCycles * c.quantum) =
      .ok (gridPeriod c f) :=
    roundToMultiple_eq_ok_iff.mpr ⟨Nat.ne_of_gt hgrid, h.remainder f hf, rfl, h.period f hf⟩
  unfold roundedPeriod
  refine bind_eq_ok_iff.mpr ⟨gridPeriod c f, mapError_eq_ok_iff.mpr hround, ?_⟩
  exact guard_eq_ok_iff.mpr ⟨hne, rfl⟩

theorem RoundingFits.roundedPeriods_eq_ok_iff (h : RoundingFits c frequencies)
    (hgrid : 0 < c.roundingCycles * c.quantum) :
    roundedPeriods c frequencies = .ok periods ↔
      (∀ f ∈ frequencies, gridPeriod c f ≠ 0) ∧ frequencies.map (gridPeriod c) = periods := by
  unfold roundedPeriods
  rw [bind_eq_ok_iff]
  constructor
  · rintro ⟨grid, hgranularity, hperiods⟩
    obtain ⟨-, rfl⟩ := granularity_eq_ok_iff.mp hgranularity
    have hall := (mapM_eq_ok_iff.mp hperiods).imp fun _ _ hp => roundedPeriod_eq_gridPeriod hp
    rw [List.forall₂_and_left] at hall
    obtain ⟨hne, heq⟩ := hall
    exact ⟨hne, List.forall₂_eq_eq_eq ▸ List.forall₂_map_left_iff.mpr heq⟩
  · rintro ⟨hne, rfl⟩
    refine ⟨_, granularity_eq_ok_iff.mpr ⟨h.grid, rfl⟩, mapM_eq_ok_iff.mpr ?_⟩
    rw [List.forall₂_map_right_iff, List.forall₂_same]
    exact fun f hf => h.roundedPeriod_eq_ok hgrid hf (hne f hf)

/-! ### The common duration -/

theorem commonMultiple_eq_ok_iff (hpos : ∀ p ∈ periods, 0 < p) :
    commonMultiple c periods = .ok duration ↔
      periods.foldl Nat.lcm 1 = duration ∧ duration < wordLimit ∧ duration < c.ceiling := by
  constructor
  · intro h
    obtain ⟨hlcm, hlt⟩ := commonMultiple_eq_ok h
    obtain ⟨heq, hword⟩ := (lcmAll?_eq_some_iff hpos).mp hlcm
    exact ⟨heq, hword, hlt⟩
  · rintro ⟨heq, hword, hlt⟩
    unfold commonMultiple
    rw [(lcmAll?_eq_some_iff hpos).mpr ⟨heq, hword⟩]
    exact if_neg (Nat.not_le.mpr hlt)

theorem RoundingFits.commonPeriods_eq_ok_iff (h : RoundingFits c frequencies)
    (hgrid : 0 < c.roundingCycles * c.quantum) :
    commonPeriods c frequencies = .ok (duration, periods) ↔
      (∀ f ∈ frequencies, gridPeriod c f ≠ 0) ∧ frequencies.map (gridPeriod c) = periods ∧
        commonDuration c frequencies = duration ∧ duration < wordLimit ∧ duration < c.ceiling := by
  have hpos : (∀ f ∈ frequencies, gridPeriod c f ≠ 0) →
      ∀ p ∈ frequencies.map (gridPeriod c), 0 < p := by
    intro hne p hp
    obtain ⟨f, hf, rfl⟩ := List.mem_map.mp hp
    exact Nat.pos_of_ne_zero (hne f hf)
  unfold commonPeriods
  rw [bind_eq_ok_iff]
  constructor
  · rintro ⟨periods', hperiods, hrest⟩
    obtain ⟨duration', hduration, hrest⟩ := bind_eq_ok_iff.mp hrest
    cases hrest
    obtain ⟨hne, rfl⟩ := (h.roundedPeriods_eq_ok_iff hgrid).mp hperiods
    exact ⟨hne, rfl, (commonMultiple_eq_ok_iff (hpos hne)).mp hduration⟩
  · rintro ⟨hne, rfl, hduration⟩
    refine ⟨_, (h.roundedPeriods_eq_ok_iff hgrid).mpr ⟨hne, rfl⟩, bind_eq_ok_iff.mpr ?_⟩
    exact ⟨duration, (commonMultiple_eq_ok_iff (hpos hne)).mpr hduration, rfl⟩

/-- The synchrony of signals on the grid. -/
def onGrid (c : Config) (frequencies : List Float) : Synchrony where
  duration := commonDuration c frequencies
  cycles := commonDuration c frequencies / c.quantum
  frequencies := frequencies.map fun f => frequencyOf (gridPeriod c f)

theorem RoundingFits.ofSignals_eq_ok_iff {signals masking : List Signal} {s : Synchrony}
    (h : RoundingFits c ((signals ++ masking).map Signal.frequency)) (hvalid : c.validate = .ok ())
    (hne : signals ++ masking ≠ [])
    (hcommon : areMultiples c ((signals ++ masking).map Signal.frequency) = false) :
    ofSignals c none signals masking = .ok s ↔
      ((∀ f ∈ (signals ++ masking).map Signal.frequency, gridPeriod c f ≠ 0) ∧
        commonDuration c ((signals ++ masking).map Signal.frequency) < wordLimit ∧
        commonDuration c ((signals ++ masking).map Signal.frequency) < c.ceiling) ∧
      s = onGrid c ((signals ++ masking).map Signal.frequency) := by
  obtain ⟨hquantum, -, -, hrounding⟩ := Config.validate_eq_ok hvalid
  have hgrid : 0 < c.roundingCycles * c.quantum := Nat.mul_pos hrounding hquantum
  have hfind : findPeriods c ((signals ++ masking).map Signal.frequency) =
      commonPeriods c ((signals ++ masking).map Signal.frequency) := by
    unfold findPeriods
    rw [hcommon]
    rfl
  rw [ofSignals_none_eq_ok_iff, hfind]
  constructor
  · rintro ⟨-, -, periods, hperiods, hcycles, hfrequencies⟩
    obtain ⟨hzero, rfl, hduration, hlt⟩ := (h.commonPeriods_eq_ok_iff hgrid).mp hperiods
    rw [List.map_map] at hfrequencies
    refine ⟨⟨hzero, hduration ▸ hlt⟩, ?_⟩
    cases s
    simp only at hduration hcycles hfrequencies
    rw [hcycles, hfrequencies, ← hduration]
    rfl
  · rintro ⟨⟨hzero, hlt⟩, rfl⟩
    refine ⟨Nat.ne_of_gt hquantum, hne, _,
      (h.commonPeriods_eq_ok_iff hgrid).mpr ⟨hzero, rfl, rfl, hlt⟩, rfl, ?_⟩
    rw [List.map_map]
    rfl

theorem dvd_gridPeriod (c : Config) (f : Float) : c.roundingCycles * c.quantum ∣ gridPeriod c f :=
  Nat.dvd_mul_left _ _

theorem gridPeriod_dvd_commonDuration {f : Float} (hf : f ∈ frequencies) :
    gridPeriod c f ∣ commonDuration c frequencies :=
  (foldl_lcm_dvd_iff.mp (Nat.dvd_refl _)).2 _ (List.mem_map_of_mem hf)

end Synchrony

namespace Compiler

open Synchrony (frequencyOf gridPeriod commonDuration RoundingFits)

variable {c : Config} {signals masking : List Signal} {s : Synchrony} {q : Quantization}

/-! ### Counting in steps -/

theorem exists_frequency_of_quantize (h : quantize c signals masking s = .ok q)
    (hcycles : 0 < s.cycles) {p : Pulse} (hp : p ∈ q.pulses ++ q.masking) :
    ∃ f ∈ s.frequencies, ∃ count,
      count = Binary64.roundToWord (Signal.reciprocal f / Binary64.ofNat c.quantum) ∧
        q.factor ∣ count ∧ p.period = count / q.factor := by
  obtain ⟨rescaled, rescaledMasking, hrescaled, hmasking, hq⟩ := quantize_eq_ok h
  obtain ⟨s', hs', count, hcount, hfactor, hperiod⟩ :=
    Quantization.exists_period_of_mem hq hcycles hp
  have hfrequency : s'.frequency ∈ s.frequencies := by
    rcases List.mem_append.mp hs' with hs' | hs'
    · obtain ⟨-, -, f, hf, rfl, -⟩ := exists_of_mem_rescale hrescaled hs'
      exact List.mem_of_mem_take hf
    · obtain ⟨-, -, f, hf, rfl, -⟩ := exists_of_mem_rescale hmasking hs'
      exact List.mem_of_mem_drop hf
  exact ⟨s'.frequency, hfrequency, count, hcount, hfactor, hperiod⟩

/-- A period of whole quanta that divides the duration does so when both are counted in steps. -/
theorem period_dvd_steps {period duration quantum factor : Nat} (hquantum : quantum ∣ period)
    (hfactor : factor ∣ period / quantum) (h : period ∣ duration) :
    period / quantum / factor ∣ duration / (quantum * factor) := by
  rw [← Nat.div_div_eq_div_mul]
  exact Nat.div_dvd_div hfactor (Nat.div_dvd_div hquantum h)

theorem steps_of_quantize (hsync : Synchrony.ofSignals c none signals masking = .ok s)
    (h : quantize c signals masking s = .ok q) :
    sampledCycles s.duration q.step + 1 = s.duration / (c.quantum * q.factor) := by
  obtain ⟨-, hcycles, ⟨hgiven, -⟩ | ⟨-, hquanta⟩⟩ := Synchrony.ofSignals_eq_ok hsync
  · cases hgiven
  · obtain ⟨hpos, hlong⟩ := sampled_of_stages hsync h
    obtain ⟨hstep, -, -⟩ := step_of_quantize h (hcycles ▸ cycles_pos_of_ofSignals hsync)
    rw [Nat.div_mul_cancel hquanta.whole] at hlong
    rw [← hstep]
    exact (Nat.div_eq_of_eq_mul_left hpos hlong.symm).symm

/-! ### All stages -/

/-- **Whole periods from end to end.**  Signals that are no multiples of the slowest are synchronized
exactly if none of their periods on the grid is zero and the least common multiple of these is below
the ceiling and fits a word.  It is the duration then, and every period is a positive multiple of the
grid's spacing that divides it.  If moreover the doubles in between lose nothing, the period of every
pulse, counted in steps, divides the number of steps of the program. -/
theorem commonDuration_whole (c : Config) (signals masking : List Signal)
    (hvalid : c.validate = .ok ()) (hne : signals ++ masking ≠ [])
    (hcommon : Synchrony.areMultiples c ((signals ++ masking).map Signal.frequency) = false)
    (hfits : RoundingFits c ((signals ++ masking).map Signal.frequency)) :
    let frequencies := (signals ++ masking).map Signal.frequency
    ((∃ s, Synchrony.ofSignals c none signals masking = .ok s) ↔
      (∀ f ∈ frequencies, gridPeriod c f ≠ 0) ∧ commonDuration c frequencies < wordLimit ∧
        commonDuration c frequencies < c.ceiling) ∧
    ∀ s, Synchrony.ofSignals c none signals masking = .ok s →
      s.duration = commonDuration c frequencies ∧
      s.frequencies = frequencies.map (fun f => frequencyOf (gridPeriod c f)) ∧
      (∀ f ∈ frequencies, 0 < gridPeriod c f ∧ c.roundingCycles * c.quantum ∣ gridPeriod c f ∧
        gridPeriod c f ∣ s.duration) ∧
      ((∀ f ∈ frequencies, Binary64.roundToWord (Signal.reciprocal (frequencyOf (gridPeriod c f)) /
          Binary64.ofNat c.quantum) = gridPeriod c f / c.quantum) →
        ∀ q, quantize c signals masking s = .ok q →
          sampledCycles s.duration q.step + 1 = s.duration / (c.quantum * q.factor) ∧
          ∀ p ∈ q.pulses ++ q.masking, p.period ∣ s.duration / (c.quantum * q.factor)) := by
  intro frequencies
  have hok := fun s => hfits.ofSignals_eq_ok_iff (s := s) hvalid hne hcommon
  constructor
  · constructor
    · rintro ⟨s, hs⟩
      exact ((hok s).mp hs).1
    · intro h
      exact ⟨_, (hok _).mpr ⟨h, rfl⟩⟩
  · intro s hs
    obtain ⟨⟨hzero, -⟩, rfl⟩ := (hok s).mp hs
    have hdvd : ∀ f ∈ frequencies, gridPeriod c f ∣ commonDuration c frequencies :=
      fun f hf => Synchrony.gridPeriod_dvd_commonDuration hf
    refine ⟨rfl, rfl, fun f hf => ⟨Nat.pos_of_ne_zero (hzero f hf),
      Synchrony.dvd_gridPeriod c f, hdvd f hf⟩, ?_⟩
    intro hdouble q hq
    refine ⟨steps_of_quantize hs hq, fun p hp => ?_⟩
    obtain ⟨f', hf', count, hcount, hfactor, hperiod⟩ :=
      exists_frequency_of_quantize hq (cycles_pos_of_ofSignals hs) hp
    obtain ⟨f, hf, rfl⟩ := List.mem_map.mp hf'
    -- the double of the adjusted frequency leads back to the period on the grid
    have hback : count = gridPeriod c f / c.quantum := hcount.trans (hdouble f hf)
    rw [hback] at hfactor hperiod
    rw [hperiod]
    exact period_dvd_steps ((Nat.dvd_mul_left _ _).trans (Synchrony.dvd_gridPeriod c f)) hfactor
      (hdvd f hf)

/-- A ceiling of 1000 s leaves room for signals that hardly ever meet. -/
def patient : Config := { ceiling := 1000000000000 }

/-- Periods of 303 ms and 188.7 ms on the grid. -/
def detuned : List Signal := [Synchrony.tone 3.3 0, Synchrony.tone 5.3 1]

theorem commonDuration_whole_detuned :
    patient.validate = .ok () ∧
      Synchrony.areMultiples patient (detuned.map Signal.frequency) = false ∧
      RoundingFits patient (detuned.map Signal.frequency) ∧
      ∃ s q, Synchrony.ofSignals patient none detuned [] = .ok s ∧ s.duration = 190587000000 ∧
        quantize patient detuned [] s = .ok q ∧
        ∀ p ∈ q.pulses ++ q.masking, p.period ∣ s.duration / (patient.quantum * q.factor) := by
  have hcommon : Synchrony.areMultiples patient (detuned.map Signal.frequency) = false := by
    decide +kernel
  have hfits : RoundingFits patient (detuned.map Signal.frequency) :=
    ⟨by decide, by decide +kernel, by decide +kernel⟩
  obtain ⟨hiff, hall⟩ := commonDuration_whole patient detuned [] rfl (by simp [detuned]) hcommon hfits
  obtain ⟨s, hs⟩ := hiff.mpr ⟨by decide +kernel, by decide +kernel, by decide +kernel⟩
  have hquantize : ((Synchrony.ofSignals patient none detuned []).toOption.bind fun s =>
      (quantize patient detuned [] s).toOption).isSome = true := by decide +kernel
  rw [hs] at hquantize
  obtain ⟨q, hq⟩ := Option.isSome_iff_exists.mp hquantize
  have hq : quantize patient detuned [] s = .ok q := toOption_eq_some_iff.mp hq
  obtain ⟨hduration, -, -, hperiods⟩ := hall s hs
  refine ⟨rfl, hcommon, hfits, s, q, hs, hduration.trans ?_, hq, (hperiods ?_ q hq).2⟩
  · decide +kernel
  · decide +kernel

end Compiler

end PulseSequencer
