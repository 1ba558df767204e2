import Mathlib

/-!
# The double nearest to a number

A double that is not negative is a rational number, and the results of operations on doubles are the
doubles nearest to the exact results.  This says what nearest means, without any rounding.

* `IsDouble`, `NearestTo`: doubles as numbers, and the one nearest to a number.
* `NearestTo.le`, `NearestTo.ge`, `NearestTo.eq_self`: a number stays on its side of a double.
* `NearestTo.error`: the distance is at most one part in `2 ^ 53 + 1`.
* `nearestTo_of_roundsTo`: the nearest multiple of the right power of two is the nearest double.
-/

namespace PulseSequencer.Binary64

/-! ### Doubles as numbers -/

/-- The number is a double that is not negative. -/
def IsDouble (x : ℚ) : Prop :=
  ∃ (m : ℕ) (e : ℤ), m < 2 ^ 53 ∧ -1074 ≤ e ∧ e ≤ 971 ∧ x = m * 2 ^ e

/-- No double is nearer to `q` than `x`.  If another one is as near, then `x` is the one of the two that
is an even multiple of their distance. -/
structure NearestTo (q x : ℚ) : Prop where
  double : IsDouble x
  near : ∀ y, IsDouble y → |q - x| ≤ |q - y|
  even : ∀ y, IsDouble y → y ≠ x → |q - y| = |q - x| → ∃ k : ℕ, x = 2 * k * |x - y|

/-- Full mantissas reach up to `2 ^ 53` itself, which is a power of two. -/
theorem isDouble_of_le {m : ℕ} {e : ℤ} (hm : m ≤ 2 ^ 53) (hleast : -1074 ≤ e) (hgreatest : e ≤ 970) :
    IsDouble (m * 2 ^ e) := by
  rcases Nat.lt_or_eq_of_le hm with hlt | rfl
  · exact ⟨m, e, hlt, hleast, by omega, rfl⟩
  · refine ⟨2 ^ 52, e + 1, by norm_num, by omega, by omega, ?_⟩
    rw [zpow_add_one₀ two_ne_zero]
    push_cast
    ring

theorem isDouble_natCast {n : ℕ} (hn : n ≤ 2 ^ 53) : IsDouble n := by
  have h := isDouble_of_le (e := 0) hn (by norm_num) (by norm_num)
  rwa [zpow_zero, mul_one] at h

theorem isDouble_two_zpow {e : ℤ} (hleast : -1074 ≤ e) (hgreatest : e ≤ 970) : IsDouble (2 ^ e) := by
  have h := isDouble_of_le (m := 1) (by norm_num) hleast hgreatest
  rwa [Nat.cast_one, one_mul] at h

/-- Bounds in the exponents that doubles have. -/
theorem lt_zpow_of_lt_pow {q : ℚ} {k : ℕ} {e : ℤ} (h : q < 2 ^ k) (hk : k ≤ e) : q < 2 ^ e := by
  rw [← zpow_natCast] at h
  exact h.trans_le (zpow_le_zpow_right₀ one_le_two hk)

section Sides

variable {q x y : ℚ}

theorem NearestTo.le (h : NearestTo q x) (hy : IsDouble y) (hle : y ≤ q) : y ≤ x := by
  by_contra hlt
  have hnear := h.near y hy
  rw [abs_of_nonneg (by linarith), abs_of_nonneg (by linarith)] at hnear
  linarith

theorem NearestTo.ge (h : NearestTo q x) (hy : IsDouble y) (hle : q ≤ y) : x ≤ y := by
  by_contra hlt
  have hnear := h.near y hy
  rw [abs_of_nonpos (by linarith), abs_of_nonpos (by linarith)] at hnear
  linarith

theorem NearestTo.eq_self (h : NearestTo q x) (hq : IsDouble q) : x = q :=
  le_antisymm (h.ge hq le_rfl) (h.le hq le_rfl)

theorem nearestTo_self (hq : IsDouble q) : NearestTo q q := by
  refine ⟨hq, fun y _ => ?_, fun y _ hne heq => ?_⟩
  · rw [sub_self, abs_zero]
    exact abs_nonneg _
  · rw [sub_self, abs_zero, abs_eq_zero, sub_eq_zero] at heq
    exact absurd heq.symm hne

end Sides

/-! ### How near -/

section Error

variable {q : ℚ} {e : ℤ}

/-- A number of the size of doubles has 53 digits in front of some power of two. -/
theorem exists_spacing (hlower : 2 ^ (-1022 : ℤ) ≤ q) (hupper : q < 2 ^ (1022 : ℤ)) :
    ∃ e : ℤ, -1074 ≤ e ∧ e ≤ 970 ∧ 2 ^ 52 * 2 ^ e ≤ q ∧ q < 2 ^ 53 * 2 ^ e := by
  have hq : 0 < q := lt_of_lt_of_le (by positivity) hlower
  have hunits : ∀ (e : ℤ) (k : ℕ), (2 : ℚ) ^ k * 2 ^ e = 2 ^ (e + k) := by
    intro e k
    rw [zpow_add₀ two_ne_zero, zpow_natCast, mul_comm]
  have hfloor : (2 : ℚ) ^ Int.log 2 q ≤ q := Int.zpow_log_le_self one_lt_two hq
  have hceil : q < (2 : ℚ) ^ (Int.log 2 q + 1) := Int.lt_zpow_succ_log_self one_lt_two q
  have hleast := (zpow_lt_zpow_iff_right₀ (one_lt_two (α := ℚ))).mp (hlower.trans_lt hceil)
  have hgreatest := (zpow_lt_zpow_iff_right₀ (one_lt_two (α := ℚ))).mp (hfloor.trans_lt hupper)
  refine ⟨Int.log 2 q - 52, by omega, by omega, ?_, ?_⟩
  · rw [hunits, Nat.cast_ofNat, sub_add_cancel]
    exact hfloor
  · rw [hunits, Nat.cast_ofNat, show Int.log 2 q - 52 + 53 = Int.log 2 q + 1 by ring]
    exact hceil

theorem exists_multiple_near (hq : 0 ≤ q) (hlt : q < 2 ^ 53 * 2 ^ e) :
    ∃ n : ℕ, n ≤ 2 ^ 53 ∧ |q - n * 2 ^ e| ≤ 2 ^ e / 2 := by
  have hpos : (0 : ℚ) < 2 ^ e := by positivity
  have hquotient : q / 2 ^ e < 2 ^ 53 := (div_lt_iff₀ hpos).mpr hlt
  have hround := abs_le.mp (abs_sub_round (q / 2 ^ e))
  have hnonneg : 0 ≤ round (q / 2 ^ e) := by
    rw [round_eq]
    exact Int.floor_nonneg.mpr (by positivity)
  obtain ⟨n, hn⟩ := Int.eq_ofNat_of_zero_le hnonneg
  rw [hn, Int.cast_natCast] at hround
  refine ⟨n, ?_, ?_⟩
  · have hsucc : (n : ℚ) < 2 ^ 53 + 1 := by linarith
    have : n < 2 ^ 53 + 1 := by exact_mod_cast hsucc
    omega
  · have hscaled : q - n * 2 ^ e = (q / 2 ^ e - n) * 2 ^ e := by
      rw [sub_mul, div_mul_cancel₀ q hpos.ne']
    rw [hscaled, abs_mul, abs_of_pos hpos]
    calc |q / 2 ^ e - n| * 2 ^ e
        ≤ 1 / 2 * 2 ^ e := mul_le_mul_of_nonneg_right (abs_le.mpr hround) hpos.le
      _ = 2 ^ e / 2 := by ring

/-- Two doubles bound the distance: a multiple of the spacing next to `q`, and the power of two below. -/
theorem NearestTo.error {x : ℚ} (h : NearestTo q x) (hlower : 2 ^ (-1022 : ℤ) ≤ q)
    (hupper : q < 2 ^ (1022 : ℤ)) : (2 ^ 53 + 1) * |q - x| ≤ q := by
  have hq : 0 ≤ q := le_trans (by positivity) hlower
  obtain ⟨e, hleast, hgreatest, hlow, hhigh⟩ := exists_spacing hlower hupper
  obtain ⟨n, hn, hdist⟩ := exists_multiple_near hq hhigh
  have hnear : |q - x| ≤ 2 ^ e / 2 := (h.near _ (isDouble_of_le hn hleast hgreatest)).trans hdist
  have hbelow : |q - x| ≤ q - 2 ^ 52 * 2 ^ e := by
    have hdouble : IsDouble (2 ^ 52 * 2 ^ e) := by
      exact_mod_cast isDouble_of_le (m := 2 ^ 52) (by norm_num) hleast hgreatest
    have hdist := h.near _ hdouble
    rwa [abs_of_nonneg (sub_nonneg.mpr hlow)] at hdist
  linarith

end Error

/-! ### The nearest multiple of a power of two -/

/-- The integer is nearest to the number, and even if there are two such integers. -/
structure RoundsTo (u : ℚ) (r : ℕ) : Prop where
  near : |u - r| ≤ 1 / 2
  even : |u - r| = 1 / 2 → Even r

section RoundsTo

variable {u : ℚ} {r n : ℕ}

theorem one_le_abs_sub (hne : n ≠ r) : (1 : ℚ) ≤ |(r : ℚ) - n| := by
  have h : (1 : ℤ) ≤ |(r : ℤ) - n| := Int.one_le_abs (by omega)
  exact_mod_cast h

theorem RoundsTo.le (h : RoundsTo u r) (n : ℕ) : |u - r| ≤ |u - n| := by
  by_cases hne : n = r
  · rw [hne]
  · have htriangle := abs_sub_le (r : ℚ) u n
    rw [abs_sub_comm (r : ℚ) u] at htriangle
    linarith [h.near, one_le_abs_sub hne]

/-- Two integers that are equally near are next to each other, with the number in the middle. -/
theorem RoundsTo.tie (h : RoundsTo u r) (hne : n ≠ r) (heq : |u - n| = |u - r|) :
    Even r ∧ |(r : ℚ) - n| = 1 := by
  have htriangle := abs_sub_le (r : ℚ) u n
  rw [abs_sub_comm (r : ℚ) u, heq] at htriangle
  have hone := one_le_abs_sub hne
  have hnear := h.near
  exact ⟨h.even (by linarith), by linarith⟩

theorem RoundsTo.le_of_le (h : RoundsTo u r) (hle : (n : ℚ) ≤ u) : n ≤ r := by
  have hnear := abs_le.mp h.near
  have hlt : (n : ℚ) < r + 1 := by linarith
  have : n < r + 1 := by exact_mod_cast hlt
  omega

theorem RoundsTo.le_of_lt (h : RoundsTo u r) (hlt : u < n) : r ≤ n := by
  have hnear := abs_le.mp h.near
  have hlt : (r : ℚ) < n + 1 := by linarith
  have : r < n + 1 := by exact_mod_cast hlt
  omega

end RoundsTo

section Units

variable {q : ℚ} {e : ℤ} {r : ℕ}

/-- A double is a multiple of the spacing of doubles around `q`, or less than all full mantissas. -/
theorem IsDouble.multiple_or_lt {y : ℚ} (hy : IsDouble y)
    (hfull : e = -1074 ∨ 2 ^ 52 ≤ q / 2 ^ e) :
    (∃ n : ℕ, y = n * 2 ^ e) ∨ (y < 2 ^ 52 * 2 ^ e ∧ 2 ^ 52 ≤ q / 2 ^ e) := by
  obtain ⟨m, e', hm, hleast, -, rfl⟩ := hy
  by_cases hle : e ≤ e'
  · left
    obtain ⟨k, hk⟩ := Int.eq_ofNat_of_zero_le (sub_nonneg.mpr hle)
    refine ⟨m * 2 ^ k, ?_⟩
    rw [show e' = e + k by omega, zpow_add₀ two_ne_zero, zpow_natCast]
    push_cast
    ring
  · right
    refine ⟨?_, hfull.resolve_left (by omega)⟩
    have hpow : (2 : ℚ) ^ e' ≤ 2 ^ (e - 1) := zpow_le_zpow_right₀ one_le_two (by omega)
    have hpos : (0 : ℚ) < 2 ^ e' := by positivity
    have hm : (m : ℚ) < 2 ^ 53 := by exact_mod_cast hm
    rw [zpow_sub_one₀ two_ne_zero] at hpow
    calc (m : ℚ) * 2 ^ e' < 2 ^ 53 * 2 ^ e' := mul_lt_mul_of_pos_right hm hpos
      _ ≤ 2 ^ 53 * (2 ^ e * 2⁻¹) := mul_le_mul_of_nonneg_left hpow (by positivity)
      _ = 2 ^ 52 * 2 ^ e := by ring

/-- The nearest multiple of the spacing is the nearest double. -/
theorem nearestTo_of_roundsTo (hfull : e = -1074 ∨ 2 ^ 52 ≤ q / 2 ^ e) (hr : RoundsTo (q / 2 ^ e) r)
    (hdouble : IsDouble (r * 2 ^ e)) : NearestTo q (r * 2 ^ e) := by
  have hpos : (0 : ℚ) < 2 ^ e := by positivity
  have hscaled : ∀ n : ℕ, |q - n * 2 ^ e| = |q / 2 ^ e - n| * 2 ^ e := by
    intro n
    rw [← abs_of_pos hpos, ← abs_mul, abs_of_pos hpos, sub_mul, div_mul_cancel₀ q hpos.ne']
  have hmultiple : ∀ n : ℕ, |q - r * 2 ^ e| ≤ |q - n * 2 ^ e| := by
    intro n
    rw [hscaled, hscaled]
    exact mul_le_mul_of_nonneg_right (hr.le n) hpos.le
  -- below the full mantissas, `q` is nearer to the least of these
  have hbelow : ∀ y, y < 2 ^ 52 * 2 ^ e → 2 ^ 52 ≤ q / 2 ^ e → |q - r * 2 ^ e| < |q - y| := by
    intro y hy hle
    have hq : 2 ^ 52 * 2 ^ e ≤ q := (le_div_iff₀ hpos).mp hle
    have hnear := hmultiple (2 ^ 52)
    rw [Nat.cast_pow, Nat.cast_ofNat, abs_of_nonneg (sub_nonneg.mpr hq)] at hnear
    calc |q - r * 2 ^ e| ≤ q - 2 ^ 52 * 2 ^ e := hnear
      _ < q - y := by linarith
      _ ≤ |q - y| := le_abs_self _
  refine ⟨hdouble, fun y hy => ?_, fun y hy hne heq => ?_⟩
  · rcases hy.multiple_or_lt hfull with ⟨n, rfl⟩ | ⟨hlt, hle⟩
    · exact hmultiple n
    · exact (hbelow y hlt hle).le
  · rcases hy.multiple_or_lt hfull with ⟨n, rfl⟩ | ⟨hlt, hle⟩
    · rw [hscaled, hscaled] at heq
      obtain ⟨⟨k, hk⟩, hone⟩ :=
        hr.tie (fun h => hne (by rw [h])) (mul_right_cancel₀ hpos.ne' heq)
      refine ⟨k, ?_⟩
      rw [← sub_mul, abs_mul, hone, abs_of_pos hpos, hk]
      push_cast
      ring
    · exact absurd heq (hbelow y hlt hle).ne'

end Units

end PulseSequencer.Binary64
