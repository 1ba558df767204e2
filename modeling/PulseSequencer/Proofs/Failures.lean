import PulseSequencer.Compiler
import PulseSequencer.Proofs.Stages

/-!
# Kinds of failures

An error has a kind, apart from the values that belong to it.  Every stage of compiling signals fails
with errors of few kinds: a signal cannot take its frequency, a period is too short or the program too
long, or a number does not fit a word.
-/

namespace PulseSequencer

/-- The part of the work that an error belongs to. -/
inductive ErrorKind where
  | invalidSignal
  | synchronization
  | topology
  | controlFlow
  | parse
  | arithmetic
  | capacity
  deriving DecidableEq, Repr

/-- The kind of an error, without its cause. -/
def CompileError.kind : CompileError → ErrorKind
  | invalidSignal _ => .invalidSignal
  | synchronization _ => .synchronization
  | topology _ => .topology
  | controlFlow _ _ => .controlFlow
  | parse _ _ => .parse
  | arithmetic _ => .arithmetic
  | capacity _ => .capacity

variable {α : Type} {e : CompileError}

/-- The kind of the error that work ends with, if it fails. -/
def failure? : Except CompileError α → Option ErrorKind
  | .ok _ => none
  | .error e => some e.kind

theorem failure?_eq_some_iff {x : Except CompileError α} {kind : ErrorKind} :
    failure? x = some kind ↔ ∃ e, x = .error e ∧ e.kind = kind := by
  cases x <;> simp [failure?]

theorem kind_of_ofArithmetic {x : Except ArithmeticFault α}
    (h : CompileError.ofArithmetic x = .error e) : e.kind = .arithmetic := by
  obtain ⟨fault, -, rfl⟩ := mapError_eq_error_iff.mp h
  rfl

theorem kind_of_ofSignal {x : Except SignalFault α} (h : CompileError.ofSignal x = .error e) :
    e.kind = .invalidSignal := by
  obtain ⟨fault, -, rfl⟩ := mapError_eq_error_iff.mp h
  rfl

namespace Synchrony

variable {c : Config} {duration grid : Nat} {fmin f : Float} {periods : List Nat}

/-- A period that is rounded in word arithmetic, and must not come out as zero. -/
theorem kind_of_rounding {x : Except ArithmeticFault Nat} {fault : SyncFault}
    (h : (do
      let period ← CompileError.ofArithmetic x
      if period = 0 then
        throw (.synchronization fault)
      return period : Except CompileError Nat) = .error e) :
    e.kind = .synchronization ∨ e.kind = .arithmetic := by
  rcases bind_eq_error_iff.mp h with h | ⟨period, -, h⟩
  · exact .inr (kind_of_ofArithmetic h)
  · rcases guard_eq_error_iff.mp h with ⟨-, rfl⟩ | ⟨-, h⟩
    · exact .inl rfl
    · cases h

theorem kind_of_multiplePeriod (h : multiplePeriod c duration fmin f = .error e) :
    e.kind = .synchronization ∨ e.kind = .arithmetic :=
  kind_of_rounding h

theorem kind_of_roundedPeriod (h : roundedPeriod c grid f = .error e) :
    e.kind = .synchronization ∨ e.kind = .arithmetic :=
  kind_of_rounding h

end Synchrony

theorem Quantization.kind_of_pulseOf {quantum : Nat} {s : Signal} (h : pulseOf quantum s = .error e) :
    e.kind = .synchronization := by
  unfold pulseOf at h
  rcases guard_eq_error_iff.mp h with ⟨-, rfl⟩ | ⟨-, h⟩
  · rfl
  · cases h

namespace Compiler

variable {c : Config} {signals : List Signal} {frequencies : List Float} {duration step : Nat}

theorem kind_of_rescale (h : rescale signals frequencies = .error e) : e.kind = .invalidSignal := by
  obtain ⟨⟨s, f⟩, -, hs⟩ := exists_of_mapM_eq_error h
  exact kind_of_ofSignal hs

theorem kind_of_pulsesOf {quantum : Nat} (h : Quantization.pulsesOf quantum signals = .error e) :
    e.kind = .synchronization := by
  obtain ⟨s, -, hs⟩ := exists_of_mapM_eq_error h
  exact Quantization.kind_of_pulseOf hs

theorem kind_of_checkSteps (h : checkSteps c duration step = .error e) :
    e.kind = .synchronization := by
  unfold checkSteps at h
  dsimp only at h
  split at h
  · cases h
    rfl
  · cases h

end Compiler

/-- A run fails in the flow of control, or for want of stacks. -/
theorem Timeline.kind_of_unroll {program : Program} {limits : Limits}
    (h : unroll program limits = .error e) : e.kind = .controlFlow ∨ e.kind = .capacity := by
  unfold unroll at h
  rcases guard_eq_error_iff.mp h with ⟨-, rfl⟩ | ⟨-, h⟩
  · exact .inl rfl
  rcases guard_eq_error_iff.mp h with ⟨-, rfl⟩ | ⟨-, h⟩
  · exact .inr rfl
  obtain ⟨fault, -, rfl⟩ := mapError_eq_error_iff.mp h
  exact .inl rfl

theorem Sequence.kind_of_ofProgram {program : Program} {channels : Nat} {limits : Limits}
    (h : ofProgram program channels limits = .error e) :
    e.kind = .topology ∨ e.kind = .controlFlow ∨ e.kind = .capacity := by
  unfold ofProgram at h
  rcases bind_eq_error_iff.mp h with h | ⟨⟨⟩, -, h⟩
  · unfold checkChannelCount at h
    split at h
    · cases h
      exact .inl rfl
    · cases h
  · cases hwide : firstTooWide? program channels with
    | some found =>
      rw [hwide] at h
      cases h
      exact .inl rfl
    | none =>
      rw [hwide] at h
      rcases bind_eq_error_iff.mp h with h | ⟨t, -, h⟩
      · exact .inr (Timeline.kind_of_unroll h)
      · cases h

end PulseSequencer
