import PulseSequencer.Proofs.Binary64.Nearest
import Mathlib

/-!
# Rounding finds the nearest double

Rounding works on a mantissa with two more bits, which say as much about the digits behind the mantissa
as is needed.  It brings the mantissa to 53 digits, and rounds it there.

* `Describes`: the number that a mantissa with its round and sticky bits stands for.
* `Describes.shiftRight`, `Describes.roundsTo`: shifting keeps it, and rounding goes by it.
* `roundWithAccuracy_eq`: the result is the nearest multiple of a power of two.
-/

namespace PulseSequencer.Binary64

open Float.Model (Format UnpackedFloat totalExponent)
open Float.Model.UnpackedFloat

/-! ### Mantissas with a fraction -/

/-- The number has the mantissa as its integer part; one bit says whether the fraction is at least a
half, the other one whether it is something else than nothing and a half. -/
structure Describes (em : ExtendedMantissa) (u : ℚ) : Prop where
  lower : em.mantissa ≤ u
  upper : u < em.mantissa + 1
  half : em.roundBit = true ↔ em.mantissa + 1 / 2 ≤ u
  rest : em.stickyBit = true ↔ u ≠ em.mantissa ∧ u ≠ em.mantissa + 1 / 2

section Describes

variable {em : ExtendedMantissa} {u : ℚ}

theorem mantissa_ofMantissaAndAccuracy (m : ℕ) (accuracy : Accuracy) :
    (ExtendedMantissa.ofMantissaAndAccuracy m accuracy).mantissa = m := by
  unfold ExtendedMantissa.ofMantissaAndAccuracy
  split <;> rfl

theorem describes_exact (m : ℕ) : Describes (.ofMantissaAndAccuracy m .exact) m := by
  refine ⟨le_rfl, lt_add_one _, ?_, ?_⟩ <;> simp [ExtendedMantissa.ofMantissaAndAccuracy]

/-- The quotient of two natural numbers, with what the remainder says about the fraction. -/
theorem describes_div (n : ℕ) {d : ℕ} (hd : 0 < d) :
    Describes (.ofMantissaAndAccuracy (n / d) (accuracyOfFraction (n % d) d)) (n / d) := by
  have hdq : (0 : ℚ) < d := by exact_mod_cast hd
  have hsplit : (n : ℚ) / d = (n / d : ℕ) + (n % d : ℕ) / d := by
    have hn : (n : ℚ) = d * (n / d : ℕ) + (n % d : ℕ) := by exact_mod_cast (Nat.div_add_mod n d).symm
    rw [div_eq_iff hdq.ne', add_mul, div_mul_cancel₀ _ hdq.ne', mul_comm _ (d : ℚ)]
    exact hn
  have hlt : ((n % d : ℕ) : ℚ) / d < 1 := (div_lt_one hdq).mpr (by exact_mod_cast Nat.mod_lt n hd)
  have hnonneg : (0 : ℚ) ≤ (n % d : ℕ) / d := by positivity
  have hhalf : (1 : ℚ) / 2 ≤ (n % d : ℕ) / d ↔ d ≤ 2 * (n % d) := by
    rw [div_le_div_iff₀ two_pos hdq, one_mul, mul_comm]
    exact_mod_cast Iff.rfl
  have htie : ((n % d : ℕ) : ℚ) / d = 1 / 2 ↔ 2 * (n % d) = d := by
    rw [div_eq_div_iff hdq.ne' two_ne_zero, one_mul, mul_comm]
    exact_mod_cast Iff.rfl
  have hnone : ((n % d : ℕ) : ℚ) / d = 0 ↔ n % d = 0 := by
    rw [div_eq_zero_iff, or_iff_left hdq.ne']
    exact_mod_cast Iff.rfl
  rw [hsplit]
  unfold accuracyOfFraction
  by_cases hzero : n % d = 0
  · rw [if_pos hzero, hzero, Nat.cast_zero, zero_div, add_zero]
    exact describes_exact _
  · rw [if_neg hzero]
    have hmantissa := mantissa_ofMantissaAndAccuracy (n / d)
    refine ⟨?_, ?_, ?_, ?_⟩
    · rw [hmantissa]
      linarith
    · rw [hmantissa]
      linarith
    · rw [hmantissa, add_le_add_iff_left, hhalf]
      cases hcmp : compare (2 * (n % d)) d with
      | lt => simpa [ExtendedMantissa.ofMantissaAndAccuracy] using Nat.compare_eq_lt.mp hcmp
      | eq => simpa [ExtendedMantissa.ofMantissaAndAccuracy] using (Nat.compare_eq_eq.mp hcmp).ge
      | gt => simpa [ExtendedMantissa.ofMantissaAndAccuracy] using (Nat.compare_eq_gt.mp hcmp).le
    · rw [hmantissa, Ne, Ne, add_eq_left, add_right_inj, hnone, htie]
      cases hcmp : compare (2 * (n % d)) d with
      | lt => simpa [ExtendedMantissa.ofMantissaAndAccuracy, hzero] using (Nat.compare_eq_lt.mp hcmp).ne
      | eq => simpa [ExtendedMantissa.ofMantissaAndAccuracy, hzero] using Nat.compare_eq_eq.mp hcmp
      | gt => simpa [ExtendedMantissa.ofMantissaAndAccuracy, hzero] using (Nat.compare_eq_gt.mp hcmp).ne'

/-- A half of the number: the last digit of the mantissa goes to the fraction. -/
theorem Describes.shiftRightOne (h : Describes em u) : Describes em.shiftRightOne (u / 2) := by
  obtain ⟨hlower, hupper, hhalf, hrest⟩ := h
  have hmantissa : (em.mantissa : ℚ) = 2 * (em.mantissa / 2 : ℕ) + (em.mantissa % 2 : ℕ) := by
    exact_mod_cast (Nat.div_add_mod em.mantissa 2).symm
  have hsome : (em.roundBit || em.stickyBit) = true ↔ u ≠ em.mantissa := by
    rw [Bool.or_eq_true, hhalf, hrest]
    constructor
    · rintro (hle | hne) heq
      · linarith
      · exact hne.1 heq
    · intro hne
      by_cases hle : (em.mantissa : ℚ) + 1 / 2 ≤ u
      · exact .inl hle
      · exact .inr ⟨hne, fun heq => hle heq.ge⟩
  unfold ExtendedMantissa.shiftRightOne
  rcases Nat.mod_two_eq_zero_or_one em.mantissa with hdigit | hdigit
  · rw [hdigit, Nat.cast_zero] at hmantissa
    refine ⟨by dsimp only; linarith, by dsimp only; linarith, ?_, ?_⟩
    · simp only [hdigit, bne_self_eq_false, Bool.false_eq_true, false_iff, not_le]
      linarith
    · rw [hsome]
      constructor
      · exact fun hne => ⟨fun heq => hne (by linarith), fun heq => by linarith⟩
      · exact fun hne heq => hne.1 (by linarith)
  · rw [hdigit, Nat.cast_one] at hmantissa
    refine ⟨by dsimp only; linarith, by dsimp only; linarith, ?_, ?_⟩
    · simp only [hdigit, bne_iff_ne, ne_eq, one_ne_zero, not_false_eq_true, true_iff]
      linarith
    · rw [hsome]
      constructor
      · exact fun hne => ⟨fun heq => by linarith, fun heq => hne (by linarith)⟩
      · exact fun hne heq => hne.2 (by linarith)

theorem Describes.shiftRight (h : Describes em u) (k : ℕ) : Describes (em >>> k) (u / 2 ^ k) := by
  induction k with
  | zero =>
    rw [pow_zero, div_one]
    exact h
  | succ k ih =>
    rw [pow_succ, ← div_div]
    exact ih.shiftRightOne

theorem Describes.roundsTo (h : Describes em u) : RoundsTo u em.roundedMantissa := by
  obtain ⟨m, half, rest⟩ := em
  obtain ⟨hlower, hupper, hhalf, hrest⟩ := h
  dsimp only at hlower hupper hhalf hrest
  cases half with
  | false =>
    have hlt : u < m + 1 / 2 := not_le.mp fun hle => Bool.false_ne_true (hhalf.mpr hle)
    have hdist : |u - m| < 1 / 2 := by
      rw [abs_of_nonneg (by linarith)]
      linarith
    have hrounded : ExtendedMantissa.roundedMantissa ⟨m, false, rest⟩ = m := by cases rest <;> rfl
    rw [hrounded]
    exact ⟨hdist.le, fun htie => absurd htie hdist.ne⟩
  | true =>
    have hge : m + 1 / 2 ≤ u := hhalf.mp rfl
    cases rest with
    | true =>
      have hgt : (m : ℚ) + 1 / 2 < u := lt_of_le_of_ne hge (hrest.mp rfl).2.symm
      have hrounded : ExtendedMantissa.roundedMantissa ⟨m, true, true⟩ = m + 1 := rfl
      have hdist : |u - (m + 1 : ℕ)| < 1 / 2 := by
        rw [Nat.cast_succ, abs_of_nonpos (by linarith)]
        linarith
      rw [hrounded]
      exact ⟨hdist.le, fun htie => absurd htie hdist.ne⟩
    | false =>
      -- the number is half way between the mantissa and the next one
      have htie : u = m + 1 / 2 := by
        by_contra hne
        exact Bool.false_ne_true (hrest.mpr ⟨fun heq => by linarith, hne⟩)
      have hrounded : ExtendedMantissa.roundedMantissa ⟨m, true, false⟩ = m + m % 2 := rfl
      rw [hrounded]
      refine ⟨?_, fun _ => Nat.even_iff.mpr (by omega)⟩
      rcases Nat.mod_two_eq_zero_or_one m with hdigit | hdigit
      · rw [hdigit, htie, abs_of_nonneg (by push_cast; linarith)]
        push_cast
        linarith
      · rw [hdigit, htie, abs_of_nonpos (by push_cast; linarith)]
        push_cast
        linarith

end Describes

/-! ### Rounding -/

section Rounding

variable {q : ℚ} {m : ℕ} {e : ℤ} {accuracy : Accuracy}

/-- The exponent that a mantissa is brought to: it leaves 53 digits, and less only at the bottom. -/
def roundingExponent (m : ℕ) (e : ℤ) : ℤ :=
  max ((m.log2 : ℤ) + e - 52) (-1074)

theorem targetExponent_eq (m : ℕ) (e : ℤ) :
    Format.binary64.targetExponent (totalExponent m e) = roundingExponent m e := by
  show max ((m.log2 : ℤ) + 1 + e - 53) (-1074) = max ((m.log2 : ℤ) + e - 52) (-1074)
  omega

/-- Brought to that exponent, the number has at most 53 digits in front of the point. -/
theorem digits_of_describes (hm : Describes (.ofMantissaAndAccuracy m accuracy) (q / 2 ^ e))
    (he : e ≤ roundingExponent m e) :
    q / 2 ^ roundingExponent m e < 2 ^ 53 ∧
      (roundingExponent m e = -1074 ∨ 2 ^ 52 ≤ q / 2 ^ roundingExponent m e) := by
  have hlower := hm.lower
  have hupper := hm.upper
  rw [mantissa_ofMantissaAndAccuracy] at hlower hupper
  obtain ⟨k, hk⟩ := Int.eq_ofNat_of_zero_le (sub_nonneg.mpr he)
  have hscaled : q / 2 ^ roundingExponent m e = q / 2 ^ e / 2 ^ k := by
    rw [show roundingExponent m e = e + k by omega, zpow_add₀ two_ne_zero, zpow_natCast, div_div]
  have hpow : (0 : ℚ) < 2 ^ k := by positivity
  rw [hscaled, div_lt_iff₀ hpow, le_div_iff₀ hpow]
  unfold roundingExponent at hk ⊢
  constructor
  · have hdigits : m + 1 ≤ 2 ^ (53 + k) :=
      Nat.lt_log2_self.trans_le (Nat.pow_le_pow_right two_pos (by omega))
    calc q / 2 ^ e < (m + 1 : ℕ) := by exact_mod_cast hupper
      _ ≤ (2 ^ (53 + k) : ℕ) := by exact_mod_cast hdigits
      _ = 2 ^ 53 * 2 ^ k := by rw [Nat.cast_pow, Nat.cast_ofNat, pow_add]
  · by_cases hbottom : max ((m.log2 : ℤ) + e - 52) (-1074) = -1074
    · exact .inl hbottom
    · right
      have hlog : m.log2 = 52 + k := by omega
      have hne : m ≠ 0 := by
        rintro rfl
        rw [Nat.log2_zero] at hlog
        omega
      calc (2 : ℚ) ^ 52 * 2 ^ k = (2 ^ m.log2 : ℕ) := by rw [Nat.cast_pow, Nat.cast_ofNat, hlog, pow_add]
        _ ≤ m := by exact_mod_cast Nat.log2_self_le hne
        _ ≤ q / 2 ^ e := hlower

theorem shiftToTargetExponent_of_lt (hm : m < 2 ^ 53) (he : -1074 ≤ e) :
    shiftToTargetExponent Format.binary64 m e .exact = (⟨m, false, false⟩, e) := by
  have hlog : m.log2 ≤ 52 := by
    by_cases hzero : m = 0
    · rw [hzero, Nat.log2_zero]
      omega
    · have := (Nat.log2_lt hzero).mpr hm
      omega
  have hamount : (roundingExponent m e - e).toNat = 0 := by
    unfold roundingExponent
    omega
  unfold shiftToTargetExponent
  simp only [targetExponent_eq, shiftToExponent, hamount, Int.natCast_zero, add_zero]
  rfl

/-- A mantissa that has got one digit too many ends with zeros. -/
theorem shiftToTargetExponent_carry (he : -1074 ≤ e) :
    shiftToTargetExponent Format.binary64 (2 ^ 53) e .exact = (⟨2 ^ 52, false, false⟩, e + 1) := by
  have hamount : (roundingExponent (2 ^ 53) e - e).toNat = 1 := by
    unfold roundingExponent
    rw [Nat.log2_two_pow]
    omega
  unfold shiftToTargetExponent
  simp only [targetExponent_eq, shiftToExponent, hamount]
  rfl

/-- The unpacked double is `r` times a power of two, written with a mantissa below `2 ^ 53`. -/
inductive Unpacked (r : ℕ) (e : ℤ) : UnpackedFloat → Prop
  | zero (h : r = 0) : Unpacked r e (.zero .positive)
  | mantissa (hpos : 0 < r) (hlt : r < 2 ^ 53) : Unpacked r e (.finite .positive r e hpos)
  | carry (h : r = 2 ^ 53) : Unpacked r e (.finite .positive (2 ^ 52) (e + 1) (by norm_num))

/-- Rounding takes the nearest multiple of the power of two. -/
theorem roundWithAccuracy_eq (hm : Describes (.ofMantissaAndAccuracy m accuracy) (q / 2 ^ e))
    (he : e ≤ roundingExponent m e) :
    ∃ (r : ℕ) (e' : ℤ), RoundsTo (q / 2 ^ e') r ∧ -1074 ≤ e' ∧ r ≤ 2 ^ 53 ∧
      (e' = -1074 ∨ 2 ^ 52 ≤ q / 2 ^ e') ∧
      Unpacked r e' (roundWithAccuracy Format.binary64 .positive m e accuracy) := by
  obtain ⟨hlt, hfull⟩ := digits_of_describes hm he
  obtain ⟨k, hk⟩ := Int.eq_ofNat_of_zero_le (sub_nonneg.mpr he)
  have hexponent : e + (k : ℕ) = roundingExponent m e := by omega
  have hamount : (roundingExponent m e - e).toNat = k := by omega
  have hshift : shiftToTargetExponent Format.binary64 m e accuracy =
      (ExtendedMantissa.ofMantissaAndAccuracy m accuracy >>> k, roundingExponent m e) := by
    simp only [shiftToTargetExponent, targetExponent_eq, shiftToExponent, hamount, hexponent]
  have hrounds : RoundsTo (q / 2 ^ roundingExponent m e)
      (ExtendedMantissa.ofMantissaAndAccuracy m accuracy >>> k).roundedMantissa := by
    have hdescribes := hm.shiftRight k
    rw [div_div, ← zpow_natCast, ← zpow_add₀ two_ne_zero, hexponent] at hdescribes
    exact hdescribes.roundsTo
  have hleast : -1074 ≤ roundingExponent m e := le_max_right _ _
  have hle := hrounds.le_of_lt (n := 2 ^ 53) (by exact_mod_cast hlt)
  refine ⟨_, roundingExponent m e, hrounds, hleast, hle, hfull, ?_⟩
  unfold roundWithAccuracy
  rw [hshift]
  dsimp only
  generalize (ExtendedMantissa.ofMantissaAndAccuracy m accuracy >>> k).roundedMantissa = r at hle ⊢
  rcases Nat.lt_or_eq_of_le hle with hsmall | rfl
  · rw [shiftToTargetExponent_of_lt hsmall hleast]
    by_cases hzero : r = 0
    · rw [dif_pos hzero]
      exact .zero hzero
    · rw [dif_neg hzero]
      exact .mantissa (Nat.pos_of_ne_zero hzero) hsmall
  · rw [shiftToTargetExponent_carry hleast]
    exact .carry rfl

end Rounding

end PulseSequencer.Binary64
