import PulseSequencer.Proofs.Arith.Rounding
import PulseSequencer.Proofs.Signal
import PulseSequencer.Proofs.Synchrony

/-!
# Periods as parts of the longest one

If all signals are multiples of the slowest, its period is the duration, and the period of every signal
is the part of the duration that belongs to its frequency, rounded to the quantum.  Rounding goes by
the quantum alone.  Whether whole periods fill the duration is decided by the part before rounding:
`FillsWhole` asks for a division of the duration into equal parts of whole quanta to which it is
nearest, and `multiplePeriods_dvd_iff` says that the periods divide the duration exactly then.
-/

namespace PulseSequencer

theorem forall_iff_of_forall₂ {α β : Type} {P : β → Prop} {Q : α → Prop} {xs : List α} {ys : List β}
    (h : List.Forall₂ (fun x y => P y ↔ Q x) xs ys) : (∀ y ∈ ys, P y) ↔ ∀ x ∈ xs, Q x := by
  induction h with
  | nil => simp
  | cons hxy _ ih => rw [List.forall_mem_cons, List.forall_mem_cons, hxy, ih]

namespace Synchrony

variable {c : Config} {duration : Nat} {fmin f : Float} {frequencies : List Float}

/-- The part of the duration that belongs to a frequency, in whole ns. -/
def partOf (duration : Nat) (fmin f : Float) : Nat :=
  Binary64.roundToWord (Binary64.ofNat duration / (f / fmin))

/-- The duration can be divided into some number of equal parts of whole quanta, and one of those parts
is what rounding `part` to whole quanta gives. -/
def FillsWhole (quantum duration part : Nat) : Prop :=
  ∃ count, 0 < count ∧ count * quantum ∣ duration ∧
    IsNearest part quantum (duration / (count * quantum))

theorem multiplePeriod_eq_ok {period : Nat} (h : multiplePeriod c duration fmin f = .ok period) :
    0 < c.quantum ∧ 0 < period ∧
      period = halfEvenDiv (partOf duration fmin f) c.quantum * c.quantum := by
  unfold multiplePeriod at h
  obtain ⟨period', hround, h⟩ := bind_eq_ok_iff.mp h
  obtain ⟨hne, h⟩ := guard_eq_ok_iff.mp h
  cases h
  obtain ⟨hquantum, -, hnearest, -⟩ := roundToMultiple_eq_ok_iff.mp (mapError_eq_ok_iff.mp hround)
  exact ⟨Nat.pos_of_ne_zero hquantum, Nat.pos_of_ne_zero hne, hnearest.symm⟩

/-- Rounded to whole quanta, a part divides the duration exactly if it fills it. -/
theorem mul_dvd_iff_fillsWhole {quantum part : Nat} (hquantum : 0 < quantum) (hduration : 0 < duration) :
    halfEvenDiv part quantum * quantum ∣ duration ↔ FillsWhole quantum duration part := by
  constructor
  · rintro ⟨count, hcount⟩
    have hparts : duration = count * quantum * halfEvenDiv part quantum := by
      rw [hcount, Nat.mul_comm _ count, Nat.mul_assoc, Nat.mul_comm quantum]
    have hpos : 0 < count := Nat.pos_of_mul_pos_left (hcount ▸ hduration)
    refine ⟨count, hpos, ⟨_, hparts⟩, ?_⟩
    rw [hparts, Nat.mul_div_cancel_left _ (Nat.mul_pos hpos hquantum)]
    exact isNearest_halfEvenDiv hquantum part
  · rintro ⟨count, hpos, ⟨quanta, rfl⟩, hnearest⟩
    rw [Nat.mul_div_cancel_left _ (Nat.mul_pos hpos hquantum)] at hnearest
    rw [(halfEvenDiv_eq_iff hquantum).mpr hnearest]
    refine ⟨count, ?_⟩
    rw [Nat.mul_comm _ count, Nat.mul_assoc, Nat.mul_comm quantum]

theorem forall₂_multiplePeriods {periods : List Nat}
    (h : multiplePeriods c frequencies = .ok (duration, periods)) :
    List.Forall₂ (fun f p => 0 < p ∧ c.quantum ∣ p ∧
      (p ∣ duration ↔ FillsWhole c.quantum duration (partOf duration (slowest frequencies) f)))
      frequencies periods := by
  obtain ⟨_, -, hne, -, hperiods⟩ := multiplePeriods_eq_ok h
  refine (forall₂_of_mapM hperiods).imp ?_
  intro f p hp
  obtain ⟨hquantum, hpos, hp⟩ := multiplePeriod_eq_ok hp
  refine ⟨hpos, hp ▸ Nat.dvd_mul_left _ _, ?_⟩
  rw [hp]
  exact mul_dvd_iff_fillsWhole hquantum (Nat.pos_of_ne_zero hne)

/-- **Whole periods of multiples.**  When signals are synchronized as multiples of the slowest, every
period is a positive number of whole quanta.  It divides the duration exactly if the part of the
duration that belongs to the signal, rounded to whole quanta, fills it; so all signals complete whole
periods in one repetition exactly if this is so for all of them. -/
theorem multiplePeriods_dvd_iff (c : Config) (signals masking : List Signal) (s : Synchrony)
    (hmultiples : areMultiples c ((signals ++ masking).map Signal.frequency) = true)
    (h : ofSignals c none signals masking = .ok s) :
    ∃ periods,
      multiplePeriods c ((signals ++ masking).map Signal.frequency) = .ok (s.duration, periods) ∧
      s.frequencies = periods.map frequencyOf ∧
      List.Forall₂ (fun signal p => 0 < p ∧ c.quantum ∣ p ∧ (p ∣ s.duration ↔
        FillsWhole c.quantum s.duration (partOf s.duration
          (slowest ((signals ++ masking).map Signal.frequency)) signal.frequency)))
        (signals ++ masking) periods ∧
      ((∀ p ∈ periods, p ∣ s.duration) ↔ ∀ signal ∈ signals ++ masking,
        FillsWhole c.quantum s.duration (partOf s.duration
          (slowest ((signals ++ masking).map Signal.frequency)) signal.frequency)) := by
  obtain ⟨-, -, periods, hfind, -, hfrequencies⟩ := ofSignals_none_eq_ok_iff.mp h
  unfold findPeriods at hfind
  rw [if_pos hmultiples] at hfind
  have hall := List.forall₂_map_left_iff.mp (forall₂_multiplePeriods hfind)
  exact ⟨periods, hfind, hfrequencies, hall, forall_iff_of_forall₂ (hall.imp fun _ _ hp => hp.2.2)⟩

/-- A signal on one channel that is on for half of each period. -/
def tone (frequency : Float) (channel : Nat) : Signal where
  frequency := frequency
  channels := .ofList [channel]
  offset := 0
  dutyCycle := 0.5
  high := Binary64.toWord (Signal.reciprocal frequency * 0.5)
  activeHigh := true
  authority := .dutyCycle

theorem multiplePeriods_dvd_iff_octave :
    ∃ s periods, areMultiples {} [10, 20] = true ∧
      ofSignals {} none [tone 10 0] [tone 20 0] = .ok s ∧
      multiplePeriods {} [10, 20] = .ok (s.duration, periods) ∧ ∀ p ∈ periods, p ∣ s.duration := by
  have hmultiples : areMultiples {} [10, 20] = true := by decide +kernel
  have hduration : (ofSignals {} none [tone 10 0] [tone 20 0]).toOption.map
      Synchrony.duration = some 100000000 := by decide +kernel
  obtain ⟨s, hs, hduration⟩ := Option.map_eq_some_iff.mp hduration
  have hs := toOption_eq_some_iff.mp hs
  obtain ⟨periods, hperiods, -, -, hiff⟩ :=
    multiplePeriods_dvd_iff {} [tone 10 0] [tone 20 0] s hmultiples hs
  refine ⟨s, periods, hmultiples, hs, hperiods, hiff.mpr ?_⟩
  intro signal hsignal
  rw [hduration]
  rcases List.mem_cons.mp hsignal with rfl | hsignal
  · exact ⟨1, by decide, by decide, (halfEvenDiv_eq_iff (by decide)).mp (by decide +kernel)⟩
  · rw [List.mem_singleton.mp hsignal]
    exact ⟨2, by decide, by decide, (halfEvenDiv_eq_iff (by decide)).mp (by decide +kernel)⟩

-- to four digits the second frequency is twice the first, but its period is five quanta off half of 100 ms
theorem multiplePeriods_not_dvd :
    ∃ slow fast s periods,
      Signal.build { frequency := 10, channels := [0] } = .ok slow ∧
      Signal.build { frequency := 20.00004, channels := [1] } = .ok fast ∧
      Config.validate {} = .ok () ∧ areMultiples {} [slow.frequency, fast.frequency] = true ∧
      ofSignals {} none [slow, fast] [] = .ok s ∧
      multiplePeriods {} [slow.frequency, fast.frequency] = .ok (s.duration, periods) ∧
      ∃ p ∈ periods, ¬ p ∣ s.duration := by
  have hslow : (Signal.build { frequency := 10, channels := [0] }).toOption.isSome = true := by
    decide +kernel
  have hfast : (Signal.build { frequency := 20.00004, channels := [1] }).toOption.isSome = true := by
    decide +kernel
  obtain ⟨slow, hslow⟩ := Option.isSome_iff_exists.mp hslow
  obtain ⟨fast, hfast⟩ := Option.isSome_iff_exists.mp hfast
  have hslow := toOption_eq_some_iff.mp hslow
  have hfast := toOption_eq_some_iff.mp hfast
  have hduration : (ofFrequencies {} none [10, 20.00004]).toOption.map Synchrony.duration =
      some 100000000 := by decide +kernel
  have hperiods : (multiplePeriods {} [10, 20.00004]).toOption =
      some (100000000, [100000000, 49999900]) := by decide +kernel
  obtain ⟨s, hs, hduration⟩ := Option.map_eq_some_iff.mp hduration
  have hsync : ofSignals {} none [slow, fast] [] = .ok s := by
    show ofFrequencies {} none [slow.frequency, fast.frequency] = .ok s
    rw [Signal.frequency_of_build hslow, Signal.frequency_of_build hfast]
    exact toOption_eq_some_iff.mp hs
  refine ⟨slow, fast, s, [100000000, 49999900], hslow, hfast, rfl, ?_, hsync, ?_, 49999900, by simp, ?_⟩
  · rw [Signal.frequency_of_build hslow, Signal.frequency_of_build hfast]
    decide +kernel
  · rw [Signal.frequency_of_build hslow, Signal.frequency_of_build hfast, hduration]
    exact toOption_eq_some_iff.mp hperiods
  · rw [hduration]
    decide

end Synchrony

end PulseSequencer
