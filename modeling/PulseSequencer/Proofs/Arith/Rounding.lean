import PulseSequencer.Arith.Rounding

/-!
# The nearest number of units

`IsNearest` says without any division what rounding looks for: no number of units is nearer to the
value, and of two equally near ones it is the even one.  There is exactly one such number, and
`halfEvenDiv` finds it.  A greater value has no smaller one (`IsNearest.mono`).

`roundToMultiple_eq_ite` is word arithmetic, in full: the nearest multiple, or an overflow.
-/

namespace PulseSequencer

variable {value later unit m n : Nat}

/-- The value is at most half a unit away from `m` units, and half a unit only if `m` is even. -/
structure IsNearest (value unit m : Nat) : Prop where
  le_above : 2 * value ≤ 2 * (m * unit) + unit
  below_le : 2 * (m * unit) ≤ 2 * value + unit
  tie : 2 * value = 2 * (m * unit) + unit ∨ 2 * (m * unit) = 2 * value + unit → m % 2 = 0

theorem isNearest_halfEvenDiv (hunit : 0 < unit) (value : Nat) :
    IsNearest value unit (halfEvenDiv value unit) := by
  have hvalue : value / unit * unit + value % unit = value := Nat.div_add_mod' value unit
  have hlt : value % unit < unit := Nat.mod_lt value hunit
  have hsucc : (value / unit + 1) * unit = value / unit * unit + unit := Nat.succ_mul _ _
  unfold halfEvenDiv
  dsimp only
  split
  · next hcmp =>
    rw [Nat.compare_eq_lt] at hcmp
    exact ⟨by omega, by omega, by omega⟩
  · next hcmp =>
    rw [Nat.compare_eq_gt] at hcmp
    exact ⟨by omega, by omega, by omega⟩
  · next hcmp =>
    rw [Nat.compare_eq_eq] at hcmp
    rcases Nat.mod_two_eq_zero_or_one (value / unit) with heven | hodd
    · rw [heven, Nat.add_zero]
      exact ⟨by omega, by omega, by omega⟩
    · rw [hodd]
      exact ⟨by omega, by omega, by omega⟩

theorem mul_add_le_mul_of_lt (h : n < m) : n * unit + unit ≤ m * unit := by
  rw [← Nat.succ_mul]
  exact Nat.mul_le_mul_right unit h

theorem IsNearest.mono (hunit : 0 < unit) (hle : value ≤ later) (hm : IsNearest value unit m)
    (hn : IsNearest later unit n) : m ≤ n := by
  refine Nat.not_lt.mp fun hlt => ?_
  -- the two differ by one unit and both values lie in the middle, so both numbers would be even
  have hmul : n * unit + unit ≤ m * unit := mul_add_le_mul_of_lt hlt
  have habove := hn.le_above
  have hbelow := hm.below_le
  have hone : m = n + 1 := by
    refine Nat.eq_of_mul_eq_mul_right hunit ?_
    rw [Nat.succ_mul]
    omega
  have hm_even := hm.tie (.inr (by omega))
  have hn_even := hn.tie (.inl (by omega))
  omega

theorem halfEvenDiv_eq_iff (hunit : 0 < unit) :
    halfEvenDiv value unit = m ↔ IsNearest value unit m := by
  constructor
  · rintro rfl
    exact isNearest_halfEvenDiv hunit value
  · intro h
    have hfound := isNearest_halfEvenDiv hunit value
    exact Nat.le_antisymm (hfound.mono hunit (Nat.le_refl _) h) (h.mono hunit (Nat.le_refl _) hfound)

theorem roundToMultiple_eq_ite (hunit : 0 < unit) (value : Nat) :
    roundToMultiple value unit =
      if 2 * (value % unit) < wordLimit ∧ nearestMultiple value unit < wordLimit then
        .ok (nearestMultiple value unit)
      else
        .error .overflow := by
  unfold roundToMultiple Word.mul Word.fit nearestMultiple
  rw [if_neg (Nat.ne_of_gt hunit)]
  by_cases htwice : 2 * (value % unit) < wordLimit
  · simp only [htwice, if_true, true_and]
    rfl
  · simp only [htwice, if_false, false_and]
    rfl

end PulseSequencer
