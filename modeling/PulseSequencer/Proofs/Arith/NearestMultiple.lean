import PulseSequencer.Proofs.Arith.Rounding
import Mathlib.Data.Nat.Dist

/-!
# The nearest multiple of a granularity

Rounding to a granularity, measured by distances: no multiple is nearer to the value, and where another
one is as near, the quotient is even.  The distances to all multiples come down to those to the next
one on either side, and so to half a unit.

* `IsNearestMultiple`: the multiple that rounding looks for, without any algorithm.
* `IsNearestMultiple.isNearest`, `IsNearest.isNearestMultiple`: it holds the nearest number of units.
* `isNearestMultiple_iff`: there is exactly one.
* `nearestMultiple_mono`, `nearestMultiple_of_dvd`: the order is kept, and a multiple stays as it is.
* `roundToMultiple_nearest`: together, with the limits of word arithmetic.
-/

namespace PulseSequencer

variable {value later unit k r : ℕ}

/-- No multiple of the unit is nearer to the value.  If another one is as near, the quotient of this one
is even. -/
structure IsNearestMultiple (value unit r : ℕ) : Prop where
  whole : unit ∣ r
  closest : ∀ m, unit ∣ m → Nat.dist value r ≤ Nat.dist value m
  tie : ∀ m, unit ∣ m → m ≠ r → Nat.dist value m = Nat.dist value r → r / unit % 2 = 0

/-! ### Distances in units -/

theorem IsNearestMultiple.isNearest (hunit : 0 < unit) (h : IsNearestMultiple value unit (k * unit)) :
    IsNearest value unit k := by
  -- the neighbours are enough; zero has only one, and is its own lower neighbour in `ℕ`
  have habove : unit ∣ k * unit + unit := Nat.dvd_add (Nat.dvd_mul_left _ _) (Nat.dvd_refl _)
  have hbelow : unit ∣ k * unit - unit := Nat.dvd_sub (Nat.dvd_mul_left _ _) (Nat.dvd_refl _)
  have hzero : k * unit = 0 ∨ unit ≤ k * unit := by
    rcases Nat.eq_zero_or_pos k with rfl | hk
    · exact .inl (Nat.zero_mul unit)
    · exact .inr (Nat.le_mul_of_pos_left unit hk)
  have hclosest_above := h.closest _ habove
  have hclosest_below := h.closest _ hbelow
  have htie_above := h.tie _ habove
  have htie_below := h.tie _ hbelow
  rw [Nat.mul_div_cancel k hunit] at htie_above htie_below
  simp only [Nat.dist] at hclosest_above hclosest_below htie_above htie_below
  refine ⟨by omega, by omega, ?_⟩
  rintro (hhalf | hhalf)
  · exact htie_above (by omega) (by omega)
  · exact htie_below (by omega) (by omega)

theorem IsNearest.isNearestMultiple (hunit : 0 < unit) (h : IsNearest value unit k) :
    IsNearestMultiple value unit (k * unit) := by
  have habove := h.le_above
  have hbelow := h.below_le
  -- any other multiple is a unit away from this one, while the value is at most half a unit away
  have hapart : ∀ j, j ≠ k → j * unit + unit ≤ k * unit ∨ k * unit + unit ≤ j * unit := fun j hne =>
    (Nat.lt_or_gt_of_ne hne).imp mul_add_le_mul_of_lt mul_add_le_mul_of_lt
  refine ⟨Nat.dvd_mul_left unit k, ?_, ?_⟩
  · intro m hm
    obtain ⟨j, rfl⟩ := exists_eq_mul_left_of_dvd hm
    by_cases hj : j = k
    · rw [hj]
    · have hunits := hapart j hj
      simp only [Nat.dist]
      omega
  · intro m hm hne hdist
    obtain ⟨j, rfl⟩ := exists_eq_mul_left_of_dvd hm
    have hunits := hapart j (by rintro rfl; exact hne rfl)
    rw [Nat.mul_div_cancel k hunit]
    simp only [Nat.dist] at hdist
    exact h.tie (by omega)

/-! ### The multiple that is found -/

theorem isNearestMultiple_iff (hunit : 0 < unit) :
    IsNearestMultiple value unit r ↔ nearestMultiple value unit = r := by
  constructor
  · intro h
    obtain ⟨k, rfl⟩ := exists_eq_mul_left_of_dvd h.whole
    rw [nearestMultiple, (halfEvenDiv_eq_iff hunit).mpr (h.isNearest hunit)]
  · rintro rfl
    exact (isNearest_halfEvenDiv hunit value).isNearestMultiple hunit

theorem nearestMultiple_mono (hunit : 0 < unit) (hle : value ≤ later) :
    nearestMultiple value unit ≤ nearestMultiple later unit :=
  Nat.mul_le_mul_right unit <|
    (isNearest_halfEvenDiv hunit value).mono hunit hle (isNearest_halfEvenDiv hunit later)

theorem nearestMultiple_of_dvd (hunit : 0 < unit) (hdvd : unit ∣ value) :
    nearestMultiple value unit = value := by
  refine (isNearestMultiple_iff hunit).mp ⟨hdvd, ?_, ?_⟩
  · intro m _
    rw [Nat.dist_self]
    exact Nat.zero_le _
  · intro m _ hne hdist
    rw [Nat.dist_self] at hdist
    exact absurd (Nat.eq_of_dist_eq_zero hdist).symm hne

/-! ### Word arithmetic -/

/-- **Rounding to a granularity.**  There is exactly one nearest multiple, of even quotient where two are
equally near.  It is the result if twice the remainder and the multiple itself fit a word, and otherwise
rounding overflows.  Rounding it once more changes nothing, and no greater value is rounded to less. -/
theorem roundToMultiple_nearest (value unit : ℕ) (hunit : 0 < unit) :
    ∃ r, IsNearestMultiple value unit r ∧ (∀ m, IsNearestMultiple value unit m → m = r) ∧
      roundToMultiple value unit =
        (if 2 * (value % unit) < wordLimit ∧ r < wordLimit then .ok r else .error .overflow) ∧
      (r < wordLimit → roundToMultiple r unit = .ok r) ∧
      ∀ later s, value ≤ later → roundToMultiple later unit = .ok s → r ≤ s := by
  have hnearest := (isNearestMultiple_iff hunit).mpr (Eq.refl (nearestMultiple value unit))
  refine ⟨_, hnearest, ?_, roundToMultiple_eq_ite hunit value, ?_, ?_⟩
  · intro m hm
    exact ((isNearestMultiple_iff hunit).mp hm).symm
  · intro hfits
    have hremainder : nearestMultiple value unit % unit = 0 := Nat.mod_eq_zero_of_dvd hnearest.whole
    have hagain := nearestMultiple_of_dvd hunit hnearest.whole
    rw [roundToMultiple_eq_ite hunit, hremainder, hagain, if_pos ⟨by decide, hfits⟩]
  · intro later s hle hlater
    rw [eq_nearestMultiple_of_roundToMultiple hlater]
    exact nearestMultiple_mono hunit hle

-- halfway between 200000 and 300000, and down to the multiple that 150000 is rounded up to
theorem roundToMultiple_nearest_halfway :
    0 < 100000 ∧ IsNearestMultiple 250000 100000 200000 ∧
      roundToMultiple 250000 100000 = .ok 200000 ∧ roundToMultiple 200000 100000 = .ok 200000 ∧
      ∀ later s, 250000 ≤ later → roundToMultiple later 100000 = .ok s → 200000 ≤ s := by
  obtain ⟨r, hnearest, -, hround, hagain, hlater⟩ :=
    roundToMultiple_nearest 250000 100000 (by decide)
  have hr : 200000 = r := (isNearestMultiple_iff (by decide)).mp hnearest
  subst hr
  rw [if_pos (by decide)] at hround
  exact ⟨by decide, hnearest, hround, hagain (by decide), hlater⟩

end PulseSequencer
