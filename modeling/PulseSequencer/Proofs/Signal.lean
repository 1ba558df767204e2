import PulseSequencer.Signal
import PulseSequencer.Proofs.Stages

/-!
# Signals at other frequencies

A signal keeps what it was asked to be, and derives the rest from its frequency.  So it makes no
difference whether a signal is built at a frequency or brought there later, on whatever way.

* `Signal.SameShape`: signals that differ at most in the frequency and what is derived from it.
  Rescaling stays in the same shape (`withFrequency_eq_ok`) and looks at nothing else
  (`SameShape.withFrequency_eq`).
* `build_eq_withFrequency`: building a signal is bringing the shape that is asked for to its
  frequency.
* `retune`, `accepted`: frequencies that are tried one after the other.
* `retune_of_build`: all ways lead to the signal that is built at the last frequency that was
  accepted.
-/

namespace PulseSequencer

/-- The checks of a request that have nothing to do with its frequency. -/
structure SignalRequest.Admissible (r : SignalRequest) : Prop where
  dutyCycle : 0 ≤ r.dutyCycle ∧ r.dutyCycle ≤ 1
  channels : (ChannelSet.ofList r.channels).isEmpty = false

namespace Signal

variable {r : SignalRequest} {s s' s'' : Signal} {f : Float}

/-! ### Shapes -/

/-- The signals differ at most in the frequency and in what is derived from it. -/
structure SameShape (s s' : Signal) : Prop where
  channels : s'.channels = s.channels
  offset : s'.offset = s.offset
  activeHigh : s'.activeHigh = s.activeHigh
  authority : s'.authority = s.authority
  dutyCycle : s.authority = .dutyCycle → s'.dutyCycle = s.dutyCycle
  high : s.authority = .highTime → s'.high = s.high

theorem SameShape.trans (h : SameShape s s') (h' : SameShape s' s'') : SameShape s s'' where
  channels := h'.channels.trans h.channels
  offset := h'.offset.trans h.offset
  activeHigh := h'.activeHigh.trans h.activeHigh
  authority := h'.authority.trans h.authority
  dutyCycle := fun hs => (h'.dutyCycle (h.authority.trans hs)).trans (h.dutyCycle hs)
  high := fun hs => (h'.high (h.authority.trans hs)).trans (h.high hs)

theorem SameShape.refl (s : Signal) : SameShape s s :=
  ⟨rfl, rfl, rfl, rfl, fun _ => rfl, fun _ => rfl⟩

/-- A signal at another frequency has that frequency and the same shape. -/
theorem withFrequency_eq_ok (h : s.withFrequency f = .ok s') :
    s'.frequency = f ∧ SameShape s s' := by
  unfold withFrequency at h
  obtain ⟨-, h⟩ := unless_eq_ok_iff.mp h
  dsimp only at h
  split at h
  · next hauthority =>
    obtain ⟨⟨⟩, -, h⟩ := bind_eq_ok_iff.mp h
    cases h
    exact ⟨rfl, rfl, rfl, rfl, rfl, fun _ => rfl, fun hs => by simp [hs] at hauthority⟩
  · next hauthority =>
    obtain ⟨⟨⟩, -, h⟩ := bind_eq_ok_iff.mp h
    cases h
    exact ⟨rfl, rfl, rfl, rfl, rfl, fun hs => by simp [hs] at hauthority, fun _ => rfl⟩

/-- Rescaling looks at the shape alone. -/
theorem SameShape.withFrequency_eq (h : SameShape s s') (f : Float) :
    s'.withFrequency f = s.withFrequency f := by
  obtain ⟨frequency, channels, offset, dutyCycle, high, activeHigh, authority⟩ := s
  obtain ⟨frequency', channels', offset', dutyCycle', high', activeHigh', authority'⟩ := s'
  obtain ⟨rfl, rfl, rfl, rfl, hduty, hhigh⟩ := h
  cases authority' with
  | dutyCycle =>
    obtain rfl := hduty rfl
    rfl
  | highTime =>
    obtain rfl := hhigh rfl
    rfl

/-! ### Building -/

/-- What is asked for, before anything has been derived from the frequency. -/
def ofRequest (r : SignalRequest) : Signal where
  frequency := r.frequency
  channels := .ofList r.channels
  offset := r.offset
  dutyCycle := r.dutyCycle
  high := r.high
  activeHigh := r.activeHigh
  authority := if r.high = 0 then .dutyCycle else .highTime

theorem build_eq_withFrequency (h : r.Admissible) :
    build r = (ofRequest r).withFrequency r.frequency := by
  unfold build withFrequency
  by_cases hfrequency : Binary64.isPositive r.frequency = true
  · rw [if_pos hfrequency, if_pos hfrequency]
    show (if _ then _ else _) = _
    rw [if_pos h.dutyCycle]
    show (if _ then _ else _) = _
    rw [if_neg (by simp [h.channels])]
    by_cases hhigh : r.high = 0 <;> simp [ofRequest, hhigh]
  · rw [if_neg hfrequency, if_neg hfrequency]
    rfl

theorem admissible_of_build (h : build r = .ok s) : r.Admissible := by
  unfold build at h
  obtain ⟨-, h⟩ := unless_eq_ok_iff.mp h
  obtain ⟨hduty, h⟩ := unless_eq_ok_iff.mp h
  obtain ⟨hchannels, -⟩ := guard_eq_ok_iff.mp h
  exact ⟨hduty, by simpa using hchannels⟩

theorem frequency_of_build (h : build r = .ok s) : s.frequency = r.frequency := by
  rw [build_eq_withFrequency (admissible_of_build h)] at h
  exact (withFrequency_eq_ok h).1

/-- A signal that was built is brought to a frequency as it is built there. -/
theorem withFrequency_eq_build (h : build r = .ok s) (f : Float) :
    s.withFrequency f = build { r with frequency := f } := by
  have hadmissible := admissible_of_build h
  have hadmissible' : ({ r with frequency := f } : SignalRequest).Admissible :=
    ⟨hadmissible.dutyCycle, hadmissible.channels⟩
  rw [build_eq_withFrequency hadmissible] at h
  have hother : SameShape (ofRequest r) (ofRequest { r with frequency := f }) :=
    ⟨rfl, rfl, rfl, rfl, fun _ => rfl, fun _ => rfl⟩
  calc s.withFrequency f = (ofRequest r).withFrequency f :=
        (withFrequency_eq_ok h).2.withFrequency_eq f
    _ = (ofRequest { r with frequency := f }).withFrequency f := (hother.withFrequency_eq f).symm
    _ = build { r with frequency := f } := (build_eq_withFrequency hadmissible').symm

/-! ### Frequencies one after the other -/

/-- The signal after frequencies have been tried one after the other.  One that it cannot have
leaves it as it is. -/
def retune (s : Signal) : List Float → Signal
  | [] => s
  | f :: rest =>
    match s.withFrequency f with
    | .ok s' => s'.retune rest
    | .error _ => s.retune rest

/-- Those of the frequencies that the signal takes on the way. -/
def accepted (s : Signal) : List Float → List Float
  | [] => []
  | f :: rest =>
    match s.withFrequency f with
    | .ok s' => f :: s'.accepted rest
    | .error _ => s.accepted rest

/-- Trying frequencies leaves the signal that is built at the last one that was accepted. -/
theorem build_last_accepted (h : build r = .ok s) (frequencies : List Float) :
    build { r with frequency := (s.accepted frequencies).getLastD r.frequency } =
      .ok (s.retune frequencies) := by
  induction frequencies generalizing r s with
  | nil => exact h
  | cons f rest ih =>
    cases hf : s.withFrequency f with
    | ok s' =>
      have hs' : build { r with frequency := f } = .ok s' := by rw [← withFrequency_eq_build h, hf]
      simp only [accepted, retune, hf, List.getLastD_cons]
      exact ih (r := { r with frequency := f }) hs'
    | error fault =>
      simp only [accepted, retune, hf]
      exact ih h

theorem sameShape_retune (s : Signal) (frequencies : List Float) :
    SameShape s (s.retune frequencies) := by
  induction frequencies generalizing s with
  | nil => exact .refl s
  | cons f rest ih =>
    cases hf : s.withFrequency f with
    | ok s' =>
      simp only [retune, hf]
      exact (withFrequency_eq_ok hf).2.trans (ih s')
    | error fault =>
      simp only [retune, hf]
      exact ih s

theorem withFrequency_self (h : build r = .ok s) : s.withFrequency s.frequency = .ok s := by
  rw [withFrequency_eq_build h, frequency_of_build h]
  exact h

/-- **Rescaling is building at the new frequency.**  Take any signal that was built.  At any
frequency, be it one or none, rescaling it gives the signal or the fault that building it there
gives.  So after any frequencies, of which those it cannot have leave it as it is, the signal is
the one that is built at the last frequency that was accepted; what was tried before makes no
difference to what comes next, the frequency it has changes nothing, and its channels, offset,
polarity and authority stay. -/
theorem retune_of_build {r : SignalRequest} {s : Signal} (h : build r = .ok s) :
    (∀ f, s.withFrequency f = build { r with frequency := f }) ∧
    ∀ frequencies,
      build { r with frequency := (s.accepted frequencies).getLastD r.frequency } =
        .ok (s.retune frequencies) ∧
      (∀ f, (s.retune frequencies).withFrequency f = s.withFrequency f) ∧
      (s.retune frequencies).withFrequency (s.retune frequencies).frequency =
        .ok (s.retune frequencies) ∧
      (s.retune frequencies).channels = s.channels ∧ (s.retune frequencies).offset = s.offset ∧
      (s.retune frequencies).activeHigh = s.activeHigh ∧
      (s.retune frequencies).authority = s.authority := by
  refine ⟨withFrequency_eq_build h, fun frequencies => ?_⟩
  have hbuilt := build_last_accepted h frequencies
  have hshape := sameShape_retune s frequencies
  exact ⟨hbuilt, hshape.withFrequency_eq, withFrequency_self hbuilt, hshape.channels, hshape.offset,
    hshape.activeHigh, hshape.authority⟩

/-- On for a quarter of a millisecond in every millisecond. -/
def strobe : SignalRequest :=
  { frequency := 1000, channels := [2, 1, 2], offset := 100, high := 250000, activeHigh := false }

-- at 5 kHz the period is shorter than the time the signal is to be on
theorem retune_of_build_strobe :
    ∃ s, build strobe = .ok s ∧
      s.accepted [2000, 0 / 0, 5000, -1, 500, 1 / 0] = [2000, 500] ∧
      build { strobe with frequency := 500 } =
        .ok (s.retune [2000, 0 / 0, 5000, -1, 500, 1 / 0]) ∧
      (s.retune [2000, 0 / 0, 5000, -1, 500, 1 / 0]).withFrequency 1000 =
        build { strobe with frequency := 1000 } := by
  have hrun : (build strobe).toOption.map (·.accepted [2000, 0 / 0, 5000, -1, 500, 1 / 0]) =
      some [2000, 500] := by decide +kernel
  obtain ⟨s, hs, haccepted⟩ := Option.map_eq_some_iff.mp hrun
  have hs := toOption_eq_some_iff.mp hs
  obtain ⟨hbuild, hretune⟩ := retune_of_build hs
  obtain ⟨hlast, hpath, -⟩ := hretune [2000, 0 / 0, 5000, -1, 500, 1 / 0]
  rw [haccepted] at hlast
  exact ⟨s, hs, haccepted, hlast, (hpath 1000).trans (hbuild 1000)⟩

end Signal

end PulseSequencer
