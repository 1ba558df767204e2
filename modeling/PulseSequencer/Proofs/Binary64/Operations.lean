import PulseSequencer.Proofs.Binary64.Values
import Mathlib

/-!
# Products, quotients and decimals

Doubles are multiplied and divided as numbers, and the exact result is rounded once.  A decimal is a
quotient by a power of ten, and so it is rounded once, too.

* `isRounding_mul`, `isRounding_div`: products and quotients of doubles.
* `isRounding_ofScientific`: a decimal with its digits behind the point.
* `isRounding_ofNat`: a whole number.
* `HasValue.not_ge_maxWord`: what is less than the double of the largest word.
-/

namespace PulseSequencer.Binary64

open Float.Model (Format UnpackedFloat totalExponent)
open Float.Model.UnpackedFloat (divCore accuracyOfFraction)

variable {x y : Float} {p q : ℚ}

/-! ### Mantissas and exponents -/

section Finite

variable {m₁ m₂ : ℕ} {e₁ e₂ : ℤ} (h₁ : 0 < m₁) (h₂ : 0 < m₂)
include h₁ h₂

theorem isRounding_mul_finite (hfull : 2 ^ 52 ≤ m₁ * m₂) :
    IsRounding (m₁ * 2 ^ e₁ * (m₂ * 2 ^ e₂)) (.ofModel (.pack (UnpackedFloat.mul Format.binary64
      (.finite .positive m₁ e₁ h₁) (.finite .positive m₂ e₂ h₂)))) := by
  have hlog : 52 ≤ (m₁ * m₂).log2 := (Nat.le_log2 (by omega)).mpr hfull
  have hmantissa : (m₁ * 2 ^ e₁ * (m₂ * 2 ^ e₂) / 2 ^ (e₁ + e₂) : ℚ) = (m₁ * m₂ : ℕ) := by
    rw [zpow_add₀ two_ne_zero, Nat.cast_mul]
    field_simp
  refine isRounding_roundWithAccuracy (m := m₁ * m₂) (e := e₁ + e₂) ?_ ?_
  · rw [hmantissa]
    exact describes_exact _
  · unfold roundingExponent
    omega

/-- The exponent of a quotient leaves the mantissa at least 53 digits, or it is at the bottom. -/
theorem divCore_eq (e₁ e₂ : ℤ) :
    ∃ (k : ℕ) (e : ℤ), e + k = e₁ - e₂ ∧ e ≤ roundingExponent (m₁ * 2 ^ k / m₂) e ∧
      divCore Format.binary64 m₁ e₁ m₂ e₂ =
        (m₁ * 2 ^ k / m₂, e, accuracyOfFraction (m₁ * 2 ^ k % m₂) m₂) := by
  obtain ⟨e, he⟩ : ∃ e, e = min (e₁ - e₂)
      (max ((m₁.log2 + 1 + e₁ - (m₂.log2 + 1 + e₂) : ℤ) - 53) (-1074)) := ⟨_, rfl⟩
  obtain ⟨k, hk⟩ := Int.eq_ofNat_of_zero_le (by omega : 0 ≤ e₁ - e₂ - e)
  refine ⟨k, e, by omega, ?_, ?_⟩
  · unfold roundingExponent
    by_cases hbottom : e ≤ -1074
    · omega
    · -- above the bottom, the shift makes the dividend 53 digits longer than the divisor
      have hdigits : 52 + (m₂.log2 + 1) ≤ m₁.log2 + k := by omega
      have hquotient : 2 ^ 52 ≤ m₁ * 2 ^ k / m₂ := by
        rw [Nat.le_div_iff_mul_le h₂]
        calc 2 ^ 52 * m₂ ≤ 2 ^ 52 * 2 ^ (m₂.log2 + 1) := Nat.mul_le_mul_left _ Nat.lt_log2_self.le
          _ = 2 ^ (52 + (m₂.log2 + 1)) := (pow_add _ _ _).symm
          _ ≤ 2 ^ (m₁.log2 + k) := Nat.pow_le_pow_right two_pos hdigits
          _ = 2 ^ m₁.log2 * 2 ^ k := pow_add _ _ _
          _ ≤ m₁ * 2 ^ k := Nat.mul_le_mul_right _ (Nat.log2_self_le h₁.ne')
      have hlog : 52 ≤ (m₁ * 2 ^ k / m₂).log2 := (Nat.le_log2 (by omega)).mpr hquotient
      omega
  · have hexponent : min (e₁ - e₂)
        (Format.binary64.targetExponent (totalExponent m₁ e₁ - totalExponent m₂ e₂)) = e := he.symm
    have hamount : (e₁ - e₂ - e).toNat = k := by omega
    unfold divCore
    dsimp only
    rw [hexponent, hamount, Nat.shiftLeft_eq]

theorem isRounding_div_finite :
    IsRounding (m₁ * 2 ^ e₁ / (m₂ * 2 ^ e₂)) (.ofModel (.pack (UnpackedFloat.div Format.binary64
      (.finite .positive m₁ e₁ h₁) (.finite .positive m₂ e₂ h₂)))) := by
  obtain ⟨k, e, he, hrounding, hcore⟩ := divCore_eq h₁ h₂ e₁ e₂
  have hmantissa : (m₁ * 2 ^ e₁ / (m₂ * 2 ^ e₂) / 2 ^ e : ℚ) = (m₁ * 2 ^ k : ℕ) / m₂ := by
    have hpow : (2 : ℚ) ^ e₁ = 2 ^ e * 2 ^ k * 2 ^ e₂ := by
      rw [← zpow_natCast, ← zpow_add₀ two_ne_zero, ← zpow_add₀ two_ne_zero]
      congr 1
      omega
    rw [hpow, Nat.cast_mul, Nat.cast_pow, Nat.cast_ofNat]
    field_simp
  have hdiv : UnpackedFloat.div Format.binary64 (.finite .positive m₁ e₁ h₁)
      (.finite .positive m₂ e₂ h₂) = UnpackedFloat.roundWithAccuracy Format.binary64 .positive
        (m₁ * 2 ^ k / m₂) e (accuracyOfFraction (m₁ * 2 ^ k % m₂) m₂) := by
    simp only [UnpackedFloat.div, hcore]
    rfl
  rw [hdiv]
  refine isRounding_roundWithAccuracy ?_ hrounding
  rw [hmantissa]
  exact describes_div _ h₂

end Finite

/-! ### Doubles -/

theorem isRounding_zero : IsRounding 0 (.ofModel (.pack (.zero .positive))) := by
  have hzero : HasValue (.ofModel (.pack (.zero .positive))) 0 := .zero rfl
  exact .nearest hzero (nearestTo_self hzero.isDouble)

/-- A double that is not below 1 has a mantissa of full length. -/
theorem full_of_one_le {m : ℕ} {e : ℤ} {hm : 0 < m} (h : x.toModel.unpack = .finite .positive m e hm)
    (hone : (1 : ℚ) ≤ m * 2 ^ e) : 2 ^ 52 ≤ m := by
  refine (regular_of_unpack h).full.resolve_left ?_
  rintro rfl
  have hm : (m : ℚ) < 2 ^ 53 := by exact_mod_cast (regular_of_unpack h).upper
  have htiny : (m : ℚ) * 2 ^ (-1074 : ℤ) < 1 := by
    calc (m : ℚ) * 2 ^ (-1074 : ℤ) < 2 ^ 53 * 2 ^ (-1074 : ℤ) :=
          mul_lt_mul_of_pos_right hm (by positivity)
      _ = 2 ^ (-1021 : ℤ) := by rw [← zpow_natCast, ← zpow_add₀ two_ne_zero]; norm_num
      _ ≤ 1 := zpow_le_one_of_nonpos₀ one_le_two (by norm_num)
  exact absurd hone (not_le.mpr htiny)

theorem isRounding_mul (hx : HasValue x p) (hy : HasValue y q) (hone : 1 ≤ q) :
    IsRounding (p * q) (x * y) := by
  cases hy with
  | zero => norm_num at hone
  | finite hy =>
    show IsRounding _ (.ofModel (.pack (UnpackedFloat.mul Format.binary64 x.toModel.unpack
      y.toModel.unpack)))
    rw [hy]
    cases hx with
    | zero hx =>
      rw [hx, zero_mul]
      exact isRounding_zero
    | @finite m _ hm hx =>
      rw [hx]
      exact isRounding_mul_finite _ _ ((full_of_one_le hy hone).trans (Nat.le_mul_of_pos_left _ hm))

theorem isRounding_div (hx : HasValue x p) (hy : HasValue y q) (hpos : 0 < q) :
    IsRounding (p / q) (x / y) := by
  cases hy with
  | zero => exact absurd hpos (lt_irrefl 0)
  | finite hy =>
    show IsRounding _ (.ofModel (.pack (UnpackedFloat.div Format.binary64 x.toModel.unpack
      y.toModel.unpack)))
    rw [hy]
    cases hx with
    | zero hx =>
      rw [hx, zero_div]
      exact isRounding_zero
    | finite hx =>
      rw [hx]
      exact isRounding_div_finite _ _

/-- A number is nothing beside infinity. -/
theorem hasValue_div_infinity (hx : HasValue x p) (hy : y.toModel.unpack = .infinity .positive) :
    HasValue (x / y) 0 := by
  show HasValue (.ofModel (.pack (UnpackedFloat.div Format.binary64 x.toModel.unpack
    y.toModel.unpack))) 0
  rw [hy]
  cases hx with
  | zero hx =>
    rw [hx]
    exact .zero rfl
  | finite hx =>
    rw [hx]
    have hzero : HasValue (.ofModel (.pack (.zero .positive))) 0 := .zero rfl
    exact hzero

/-! ### Decimals -/

theorem hasValue_scaled {m : ℕ} {e : ℤ} (h : Normal m e) : HasValue (scaled m e h) (m * 2 ^ e) :=
  .finite (unpack_scaled h)

theorem hasValue_toFloat {n : ℕ} (hpos : 1 ≤ n) (hlt : n < 2 ^ 53) : HasValue n.toUInt64.toFloat n := by
  have hlog := log2_le_of_lt hpos hlt
  have hvalue : ((n * 2 ^ (52 - n.log2) : ℕ) : ℚ) * 2 ^ ((n.log2 : ℤ) - 52) = n := by
    rw [Nat.cast_mul, Nat.cast_pow, Nat.cast_ofNat, ← zpow_natCast, mul_assoc, ← zpow_add₀ two_ne_zero,
      Nat.cast_sub hlog, Nat.cast_ofNat, sub_add_sub_cancel, sub_self, zpow_zero, mul_one]
  have h := hasValue_scaled (normal_of_lt hpos hlt)
  rwa [hvalue, ← toFloat_eq_scaled hpos hlt] at h

/-- Powers of ten in the table have five to the same power as their odd part. -/
theorem toBits_powersOfTen : ∀ k : Fin Float.exactlyRepresentablePowersOfTen.size,
    5 ^ k.val < 2 ^ 53 ∧ Float.exactlyRepresentablePowersOfTen[k].toBits.toNat =
      ((5 ^ k.val).log2 + k.val + 1023) * 2 ^ 52 +
        5 ^ k.val * 2 ^ (52 - (5 ^ k.val).log2) % 2 ^ 52 := by
  decide +kernel

theorem hasValue_powersOfTen (k : Fin Float.exactlyRepresentablePowersOfTen.size) :
    HasValue Float.exactlyRepresentablePowersOfTen[k] (10 ^ k.val) := by
  obtain ⟨hlt, hbits⟩ := toBits_powersOfTen k
  obtain ⟨n, hn⟩ : ∃ n, n = 5 ^ k.val := ⟨_, rfl⟩
  rw [← hn] at hlt hbits
  have hone : 1 ≤ n := by
    rw [hn]
    exact Nat.one_le_pow _ _ (by norm_num)
  have hlog := log2_le_of_lt hone hlt
  have hk : k.val < 23 := k.isLt
  have hodd := normal_of_lt hone hlt
  have hnormal : Normal (n * 2 ^ (52 - n.log2)) (n.log2 - 52 + k.val) :=
    ⟨hodd.lower, hodd.upper, by omega, by omega⟩
  have htable : Float.exactlyRepresentablePowersOfTen[k] = scaled _ _ hnormal := by
    have hbiased : ((n.log2 : ℤ) - 52 + k.val + 1075).toNat = n.log2 + k.val + 1023 := by omega
    rw [← Float.toBits_inj, ← UInt64.toNat_inj, toNat_toBits_scaled, hbiased]
    exact hbits
  have hvalue : ((n * 2 ^ (52 - n.log2) : ℕ) : ℚ) * 2 ^ ((n.log2 : ℤ) - 52 + k.val) = 10 ^ k.val := by
    have hpow : (2 : ℚ) ^ (52 - n.log2) * 2 ^ ((n.log2 : ℤ) - 52 + k.val) = 2 ^ k.val := by
      rw [← zpow_natCast, ← zpow_add₀ two_ne_zero, ← zpow_natCast]
      congr 1
      omega
    rw [Nat.cast_mul, Nat.cast_pow, Nat.cast_ofNat, mul_assoc, hpow, hn, Nat.cast_pow, Nat.cast_ofNat,
      ← mul_pow]
    norm_num
  have h := hasValue_scaled hnormal
  rw [hvalue, ← htable] at h
  exact h

theorem nearestTo_zero_of_lt (hq : 0 ≤ q) (hlt : q < 2 ^ (-1075 : ℤ)) : NearestTo q 0 := by
  have hhalf : q / 2 ^ (-1074 : ℤ) < 1 / 2 := by
    rw [div_lt_iff₀ (by positivity), one_div, mul_comm, ← zpow_sub_one₀ two_ne_zero]
    exact hlt
  have hrounds : RoundsTo (q / 2 ^ (-1074 : ℤ)) 0 := by
    refine ⟨?_, fun _ => Even.zero⟩
    rw [Nat.cast_zero, sub_zero, abs_of_nonneg (by positivity)]
    exact hhalf.le
  have hnearest := nearestTo_of_roundsTo (.inl rfl) hrounds
    ⟨0, -1074, by norm_num, le_rfl, by norm_num, rfl⟩
  rwa [Nat.cast_zero, zero_mul] at hnearest

section Decimal

variable {m : ℕ} (hpos : 0 < m)
include hpos

/-- What is too small for the exponents is zero, and zero is nearest to it. -/
theorem nearestTo_zero_of_log2_lt {k : ℕ} (hk : 2048 + m.log2 < k) :
    NearestTo ((m : ℚ) / 10 ^ k) 0 := by
  refine nearestTo_zero_of_lt (by positivity) ?_
  rw [div_lt_iff₀ (by positivity)]
  have hm : (m : ℚ) < 2 ^ (m.log2 + 1) := by exact_mod_cast Nat.lt_log2_self (n := m)
  calc (m : ℚ) < 2 ^ (m.log2 + 1) := hm
    _ = 2 ^ ((m.log2 + 1 : ℕ) : ℤ) := (zpow_natCast _ _).symm
    _ ≤ 2 ^ (-1075 + k : ℤ) := zpow_le_zpow_right₀ one_le_two (by omega)
    _ = 2 ^ (-1075 : ℤ) * 2 ^ k := by rw [zpow_add₀ two_ne_zero, zpow_natCast]
    _ ≤ 2 ^ (-1075 : ℤ) * 10 ^ k :=
        mul_le_mul_of_nonneg_left (pow_le_pow_left₀ (by norm_num) (by norm_num) k) (by positivity)

/-- The way of decimals that do not fit the table of powers. -/
theorem isRounding_model_ofScientific (k : ℕ) :
    IsRounding (m / 10 ^ k) (.ofModel (Float.Model.ofScientific m (-k))) := by
  show IsRounding _ (.ofModel (.pack (UnpackedFloat.ofScientific Format.binary64 m (-k))))
  unfold UnpackedFloat.ofScientific
  have hexponents : (2 ^ Format.binary64.exponentBits : ℤ) = 2048 := rfl
  rw [dif_neg hpos.ne', if_neg (by omega)]
  split
  · next hsmall =>
    rw [hexponents] at hsmall
    exact .nearest (.zero rfl) (nearestTo_zero_of_log2_lt hpos (by omega))
  · split
    · next hwhole =>
      -- no digit behind the point: a product with 1, lengthened so that the mantissa is full
      obtain rfl : k = 0 := by omega
      have hfull : 2 ^ 52 ≤ (m <<< 53) * 10 ^ (-((0 : ℕ) : ℤ)).toNat := by
        rw [Nat.shiftLeft_eq]
        show 2 ^ 52 ≤ m * 2 ^ 53 * 1
        omega
      have hvalue : (((m <<< 53 : ℕ) : ℚ) * 2 ^ (-53 : ℤ) *
          ((10 ^ (-((0 : ℕ) : ℤ)).toNat : ℕ) * 2 ^ (0 : ℤ))) = m / 10 ^ 0 := by
        have hone : (2 : ℚ) ^ 53 * 2 ^ (-53 : ℤ) = 1 := by
          rw [← zpow_natCast, ← zpow_add₀ two_ne_zero]
          rfl
        rw [Nat.shiftLeft_eq, Nat.cast_mul, Nat.cast_pow, Nat.cast_ofNat, mul_assoc (m : ℚ), hone]
        simp
      rw [← hvalue]
      exact isRounding_mul_finite _ _ hfull
    · have hpower : (-(-(k : ℤ))).toNat = k := by omega
      have hvalue : ((m : ℚ) * 2 ^ (0 : ℤ) / ((10 ^ (-(-(k : ℤ))).toNat : ℕ) * 2 ^ (0 : ℤ))) =
          m / 10 ^ k := by
        rw [hpower, zpow_zero, mul_one, mul_one, Nat.cast_pow, Nat.cast_ofNat]
      rw [← hvalue]
      exact isRounding_div_finite _ _

theorem isRounding_ofScientific (k : ℕ) :
    IsRounding (m / 10 ^ k) (Float.ofScientific m true k) := by
  unfold Float.ofScientific
  split
  · next hfits =>
    have hquotient := isRounding_div (hasValue_toFloat hpos hfits.1)
      (hasValue_powersOfTen ⟨k, Nat.lt_succ_of_le hfits.2⟩) (by positivity)
    exact hquotient
  · have hslow := isRounding_model_ofScientific hpos k
    have hexponent : Int.negOfNat k = -k := Int.negOfNat_eq
    simp only [if_true, hexponent]
    exact hslow

theorem isRounding_ofNat : IsRounding m (ofNat m) := by
  show IsRounding _ (Float.ofScientific m false 0)
  unfold Float.ofScientific
  split
  · next hfits =>
    have hproduct := isRounding_mul (hasValue_toFloat hpos hfits.1)
      (hasValue_powersOfTen ⟨0, by decide⟩) (by norm_num)
    rw [pow_zero, mul_one] at hproduct
    exact hproduct
  · have hslow := isRounding_model_ofScientific hpos 0
    rw [pow_zero, div_one] at hslow
    exact hslow

end Decimal

/-! ### Numbers that fit a word -/

theorem HasValue.isFinite (h : HasValue x q) : x.isFinite = true := by
  show x.toModel.unpack.isFinite = true
  cases h with
  | zero h =>
    rw [h]
    rfl
  | finite h =>
    rw [h]
    rfl

/-- The largest word is a power of two as a double. -/
theorem HasValue.not_ge_maxWord (h : HasValue x q) (hlt : q < 2 ^ 64) : ¬ x ≥ ofNat maxWord := by
  have hlimit : (ofNat maxWord).toModel.unpack = .finite .positive (2 ^ 52) 12 (by norm_num) := by rfl
  intro hge
  have hmodel : UnpackedFloat.le (ofNat maxWord).toModel.unpack x.toModel.unpack = true :=
    of_decide_eq_true hge
  rw [hlimit] at hmodel
  cases h with
  | zero h =>
    rw [h] at hmodel
    cases hmodel
  | @finite m e hm h =>
    rw [h] at hmodel
    have hsmall : e < 12 := by
      by_contra hlarge
      -- the exponent is not the least one, so the mantissa is full and the number reaches 2 ^ 64
      have hfull : (2 : ℚ) ^ 52 ≤ m := by
        exact_mod_cast (regular_of_unpack h).full.resolve_left (by omega)
      have hpow : (2 : ℚ) ^ 12 ≤ 2 ^ e := by
        exact_mod_cast zpow_le_zpow_right₀ (one_le_two (α := ℚ)) (not_lt.mp hlarge)
      have := mul_le_mul hfull hpow (by positivity) (by positivity)
      linarith
    have hcompare : compare 12 e = .gt := Int.compare_eq_gt.mpr hsmall
    change ((compare 12 e).then (compare (2 ^ 52) m)).isLE = true at hmodel
    rw [hcompare] at hmodel
    cases hmodel

end PulseSequencer.Binary64
