import PulseSequencer.Arith.Divisors
import Mathlib.Data.Nat.GCD.Basic

/-!
# Common divisors and multiples of a list

`gcdAll` and `lcmAll?` through divisibility.  The multiple of positive values only grows while values
are added, so a step of the fold that leaves the word is a multiple that leaves it
(`lcmAll?_eq_some_iff`).
-/

namespace PulseSequencer

theorem dvd_foldl_gcd_iff {values : List Nat} {a d : Nat} :
    d ∣ values.foldl Nat.gcd a ↔ d ∣ a ∧ ∀ n ∈ values, d ∣ n := by
  induction values generalizing a with
  | nil => simp
  | cons n rest ih => simp [ih, Nat.dvd_gcd_iff, and_assoc]

theorem dvd_gcdAll_iff {values : List Nat} {d : Nat} :
    d ∣ gcdAll values ↔ ∀ n ∈ values, d ∣ n := by
  unfold gcdAll
  rw [dvd_foldl_gcd_iff]
  exact and_iff_right (Nat.dvd_zero d)

theorem gcdAll_dvd {values : List Nat} {n : Nat} (h : n ∈ values) : gcdAll values ∣ n :=
  dvd_gcdAll_iff.mp (Nat.dvd_refl _) n h

theorem foldl_lcm_dvd_iff {values : List Nat} {a m : Nat} :
    values.foldl Nat.lcm a ∣ m ↔ a ∣ m ∧ ∀ n ∈ values, n ∣ m := by
  induction values generalizing a with
  | nil => simp
  | cons n rest ih => simp [ih, Nat.lcm_dvd_iff, and_assoc]

theorem foldl_lcm_pos {values : List Nat} {a : Nat} (ha : 0 < a) (hpos : ∀ n ∈ values, 0 < n) :
    0 < values.foldl Nat.lcm a := by
  induction values generalizing a with
  | nil => exact ha
  | cons n rest ih =>
    rw [List.forall_mem_cons] at hpos
    exact ih (Nat.lcm_pos ha hpos.1) hpos.2

theorem lcm?_of_pos {a b : Nat} (ha : 0 < a) (hb : 0 < b) :
    lcm? a b = if Nat.lcm a b < wordLimit then some (Nat.lcm a b) else none := by
  have hdiv : a / Nat.gcd a b * b = Nat.lcm a b := by
    rw [Nat.lcm_eq_mul_div, Nat.div_mul_right_comm (Nat.gcd_dvd_left a b)]
  have hne : ¬(a = 0 ∨ b = 0) := by omega
  unfold lcm?
  rw [if_neg hne]
  simp only [hdiv]

theorem foldlM_lcm?_eq_some_iff {values : List Nat} {a m : Nat} (ha : 0 < a) (hlt : a < wordLimit)
    (hpos : ∀ n ∈ values, 0 < n) :
    values.foldlM lcm? a = some m ↔ values.foldl Nat.lcm a = m ∧ m < wordLimit := by
  induction values generalizing a with
  | nil =>
    constructor
    · rintro h
      cases h
      exact ⟨rfl, hlt⟩
    · rintro ⟨rfl, -⟩
      rfl
  | cons n rest ih =>
    rw [List.forall_mem_cons] at hpos
    have hl : 0 < Nat.lcm a n := Nat.lcm_pos ha hpos.1
    rw [List.foldlM_cons, List.foldl_cons, lcm?_of_pos ha hpos.1]
    by_cases hfit : Nat.lcm a n < wordLimit
    · rw [if_pos hfit]
      exact ih hl hfit hpos.2
    · -- the fold divides by this step's multiple, so it leaves the word as well
      rw [if_neg hfit]
      have hdvd : Nat.lcm a n ∣ rest.foldl Nat.lcm (Nat.lcm a n) :=
        (foldl_lcm_dvd_iff.mp (Nat.dvd_refl _)).1
      have hle := Nat.le_of_dvd (foldl_lcm_pos hl hpos.2) hdvd
      constructor
      · rintro h
        cases h
      · rintro ⟨rfl, hm⟩
        omega

theorem lcmAll?_eq_some_iff {values : List Nat} {m : Nat} (hpos : ∀ n ∈ values, 0 < n) :
    lcmAll? values = some m ↔ values.foldl Nat.lcm 1 = m ∧ m < wordLimit :=
  foldlM_lcm?_eq_some_iff Nat.one_pos (by decide) hpos

end PulseSequencer
