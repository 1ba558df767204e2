import PulseSequencer.Arith.Word

/-!
# Rounding to nearest, ties to even

`halfEvenDiv` is the quotient of two natural numbers rounded to the nearest integer, a tie going to
the even one. `nearestMultiple` carries the rule over to the multiples of a granularity, and
`roundToMultiple` adds the checks that every intermediate value fits a word.
-/

namespace PulseSequencer

/-- The quotient rounded to nearest; of two equally near integers, the even one. -/
def halfEvenDiv (value unit : Nat) : Nat :=
  let quotient := value / unit
  match compare (2 * (value % unit)) unit with
  | .lt => quotient
  | .gt => quotient + 1
  | .eq => quotient + quotient % 2

/-- The multiple of `unit` nearest to `value`; of two equally near ones, that of even quotient. -/
def nearestMultiple (value unit : Nat) : Nat :=
  halfEvenDiv value unit * unit

/-- The nearest multiple in word arithmetic: the granularity is positive, and twice the remainder and
the result fit a word. -/
def roundToMultiple (value unit : Nat) : Except ArithmeticFault Nat := do
  if unit = 0 then
    throw .divisionByZero
  let _ ← Word.mul 2 (value % unit)
  Word.mul (halfEvenDiv value unit) unit

/-- Whenever the rounding succeeds it is `nearestMultiple`. -/
theorem eq_nearestMultiple_of_roundToMultiple {value unit r : Nat}
    (h : roundToMultiple value unit = .ok r) : r = nearestMultiple value unit := by
  unfold roundToMultiple Word.mul Word.fit at h
  by_cases hu : unit = 0
  · simp [hu, bind, Except.bind, throw, throwThe, MonadExceptOf.throw] at h
  · simp only [hu, if_false, bind, Except.bind] at h
    split at h
    · cases h
    · split at h
      · exact (Except.ok.inj h).symm
      · cases h

end PulseSequencer
