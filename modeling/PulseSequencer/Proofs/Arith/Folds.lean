import PulseSequencer.Proofs.Agreement
import PulseSequencer.Proofs.Arith.Divisors
import Mathlib.Order.Bounds.Defs

/-!
# Divisors and multiples of whole lists

Folding takes the greatest common divisor or the least common multiple of a list two values at a time,
and stops where a multiple leaves the word.  What comes out belongs to the list as a whole: neither the
order of the values nor how often they occur counts, and a multiple is missing only if it is too large
itself.

* `euclid`, `euclid_eq_gcd`: Euclid's loop and the divisor it ends with.
* `gcdAll_congr`, `lcmAll?_congr`: both go by the members of the list alone.
* `isGreatest_gcdAll`, `isLeast_foldl_lcm`: the greatest divisor and the least multiple of all values.
* `folds_exact`: together, with the word limit.
-/

namespace PulseSequencer

/-! ### Two values -/

/-- Euclid's loop: the second value and the remainder take the place of the two values, until there is
no remainder. -/
def euclid (a b : Nat) : Nat :=
  if b = 0 then a else euclid b (a % b)
termination_by b
decreasing_by exact Nat.mod_lt a (Nat.pos_of_ne_zero ‹_›)

theorem euclid_eq_gcd (a b : Nat) : euclid a b = Nat.gcd a b := by
  fun_induction euclid a b with
  | case1 a => rw [Nat.gcd_zero_right]
  | case2 a b h ih =>
    -- a step keeps the divisor, since it keeps what divides both values
    rw [ih, Nat.gcd_comm b, ← Nat.gcd_rec, Nat.gcd_comm]

/-! ### The members alone -/

section Members

variable {xs ys : List Nat}

theorem gcdAll_congr (h : SameMembers xs ys) : gcdAll xs = gcdAll ys := by
  have hdvd : ∀ d, d ∣ gcdAll xs ↔ d ∣ gcdAll ys := by
    intro d
    rw [dvd_gcdAll_iff, dvd_gcdAll_iff]
    simp only [h _]
  exact Nat.dvd_antisymm ((hdvd _).mp (Nat.dvd_refl _)) ((hdvd _).mpr (Nat.dvd_refl _))

theorem foldl_lcm_congr (h : SameMembers xs ys) : xs.foldl Nat.lcm 1 = ys.foldl Nat.lcm 1 := by
  have hdvd : ∀ m, xs.foldl Nat.lcm 1 ∣ m ↔ ys.foldl Nat.lcm 1 ∣ m := by
    intro m
    rw [foldl_lcm_dvd_iff, foldl_lcm_dvd_iff]
    simp only [h _]
  exact Nat.dvd_antisymm ((hdvd _).mpr (Nat.dvd_refl _)) ((hdvd _).mp (Nat.dvd_refl _))

/-- Whichever part of the list leaves the word first, the multiple of all of it does. -/
theorem lcmAll?_congr (h : SameMembers xs ys) (hpos : ∀ n ∈ xs, 0 < n) : lcmAll? xs = lcmAll? ys := by
  have hpos' : ∀ n ∈ ys, 0 < n := fun n hn => hpos n ((h n).mpr hn)
  refine Option.ext fun m => ?_
  rw [lcmAll?_eq_some_iff hpos, lcmAll?_eq_some_iff hpos', foldl_lcm_congr h]

end Members

/-! ### All values -/

section Values

variable {values : List Nat}

theorem gcdAll_eq_zero_iff : gcdAll values = 0 ↔ ∀ n ∈ values, n = 0 := by
  rw [← Nat.zero_dvd, dvd_gcdAll_iff]
  simp only [Nat.zero_dvd]

/-- Zero is divided by everything, so one value has to be another. -/
theorem isGreatest_gcdAll (hne : ∃ n ∈ values, n ≠ 0) :
    IsGreatest {d | ∀ n ∈ values, d ∣ n} (gcdAll values) := by
  have hpos : 0 < gcdAll values := by
    obtain ⟨n, hn, hn0⟩ := hne
    exact Nat.pos_of_ne_zero fun hzero => hn0 (gcdAll_eq_zero_iff.mp hzero n hn)
  refine ⟨fun n hn => gcdAll_dvd hn, fun d hd => ?_⟩
  exact Nat.le_of_dvd hpos (dvd_gcdAll_iff.mpr hd)

theorem isLeast_foldl_lcm (hpos : ∀ n ∈ values, 0 < n) :
    IsLeast {m | 0 < m ∧ ∀ n ∈ values, n ∣ m} (values.foldl Nat.lcm 1) := by
  refine ⟨⟨foldl_lcm_pos Nat.one_pos hpos, ?_⟩, ?_⟩
  · exact (foldl_lcm_dvd_iff.mp (Nat.dvd_refl _)).2
  · rintro m ⟨hm, hall⟩
    exact Nat.le_of_dvd hm (foldl_lcm_dvd_iff.mpr ⟨Nat.one_dvd m, hall⟩)

theorem lcmAll?_eq_ite (hpos : ∀ n ∈ values, 0 < n) :
    lcmAll? values =
      if values.foldl Nat.lcm 1 < wordLimit then some (values.foldl Nat.lcm 1) else none := by
  refine Option.ext fun m => ?_
  rw [lcmAll?_eq_some_iff hpos]
  constructor
  · rintro ⟨rfl, hlt⟩
    rw [if_pos hlt]
  · intro h
    split at h
    · next hlt =>
      cases h
      exact ⟨rfl, hlt⟩
    · cases h

end Values

/-- **Divisors and multiples of a list.**  `gcdAll` is the greatest number that divides all values, or 0
if no value is positive, and Euclid's loop finds it.  For positive values there is a least positive
multiple of all of them; `lcmAll?` is that multiple if it fits a word, and nothing if it does not.
Both are the same for every list of the same members. -/
theorem folds_exact (values others : List Nat) (hsame : SameMembers values others) :
    gcdAll values = values.foldl euclid 0 ∧
    ((∃ n ∈ values, n ≠ 0) → IsGreatest {d | ∀ n ∈ values, d ∣ n} (gcdAll values)) ∧
    ((∀ n ∈ values, n = 0) → gcdAll values = 0) ∧
    gcdAll others = gcdAll values ∧
    ((∀ n ∈ values, 0 < n) → ∃ m, IsLeast {m | 0 < m ∧ ∀ n ∈ values, n ∣ m} m ∧
      lcmAll? values = (if m < wordLimit then some m else none) ∧
      lcmAll? others = lcmAll? values) := by
  have hloop : gcdAll values = values.foldl euclid 0 := by
    rw [gcdAll, show euclid = Nat.gcd from funext₂ euclid_eq_gcd]
  refine ⟨hloop, isGreatest_gcdAll, gcdAll_eq_zero_iff.mpr, (gcdAll_congr hsame).symm, ?_⟩
  intro hpos
  exact ⟨_, isLeast_foldl_lcm hpos, lcmAll?_eq_ite hpos, (lcmAll?_congr hsame hpos).symm⟩

-- the last value is the product of the other two, and the largest word
theorem folds_exact_largest :
    SameMembers [4294967295, 4294967297, maxWord] [maxWord, 4294967297, 4294967295, 4294967297] ∧
      IsGreatest {d | ∀ n ∈ [4294967295, 4294967297, maxWord], d ∣ n} 1 ∧
      IsLeast {m | 0 < m ∧ ∀ n ∈ [4294967295, 4294967297, maxWord], n ∣ m} maxWord ∧
      lcmAll? [maxWord, 4294967297, 4294967295, 4294967297] = some maxWord := by
  have hsame : ∀ a b c : Nat, SameMembers [a, b, c] [c, b, a, b] := by
    intro a b c n
    simp only [List.mem_cons, List.not_mem_nil, or_false]
    tauto
  obtain ⟨-, hgreatest, -, -, hleast⟩ := folds_exact [4294967295, 4294967297, maxWord]
    [maxWord, 4294967297, 4294967295, 4294967297] (hsame _ _ _)
  obtain ⟨m, hm, hlcm, hothers⟩ := hleast (by decide)
  have hfound : lcmAll? [4294967295, 4294967297, maxWord] = some maxWord := by decide +kernel
  rw [hfound] at hlcm hothers
  have hmax : m = maxWord := by
    split at hlcm
    · exact (Option.some.inj hlcm).symm
    · cases hlcm
  have hone : gcdAll [4294967295, 4294967297, maxWord] = 1 := by decide +kernel
  exact ⟨hsame _ _ _, hone ▸ hgreatest ⟨4294967295, by decide, by decide⟩, hmax ▸ hm, hothers⟩

end PulseSequencer
