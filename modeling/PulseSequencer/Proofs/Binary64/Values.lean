import PulseSequencer.Proofs.Arith.Rounding
import PulseSequencer.Proofs.Binary64
import PulseSequencer.Proofs.Binary64.Order
import PulseSequencer.Proofs.Binary64.Rounding
import Mathlib

/-!
# Doubles as numbers

The value of a double that is not negative is read off its bits, and rounding gives the double nearest
to a number, or infinity.

* `fields_of_unpack`, `decode_of_unpack`: mantissa and exponent in the bits.
* `HasValue`: the number that a double stands for.
* `IsRounding`, `isRounding_roundWithAccuracy`: what rounding comes to.
* `exists_values_of_rank_le`: the order.
* `toWord_eq_floor`, `roundToWord_le`: doubles as words.
-/

namespace PulseSequencer.Binary64

open Float.Model (Format UnpackedFloat totalExponent)
open Float.Model.UnpackedFloat

variable {x y : Float} {p q : ℚ} {m : ℕ} {e : ℤ} {hm : 0 < m}

/-! ### The bits -/

/-- What the mantissa and the exponent of a positive double can be. -/
structure Regular (m : ℕ) (e : ℤ) : Prop where
  upper : m < 2 ^ 53
  least : -1074 ≤ e
  greatest : e ≤ 971
  full : e = -1074 ∨ 2 ^ 52 ≤ m

theorem toNat_unpackExponent (b : BitVec Format.binary64.numBits) :
    (unpackExponent b).toNat = b.toNat / 2 ^ 52 % 2 ^ 11 := by
  show (b.extractLsb' 52 11).toNat = _
  rw [BitVec.extractLsb'_toNat, Nat.shiftRight_eq_div_pow]

theorem toNat_unpackMantissa (b : BitVec Format.binary64.numBits) :
    (unpackMantissa b).toNat = b.toNat % 2 ^ 52 := by
  show (b.extractLsb' 0 52).toNat = _
  rw [BitVec.extractLsb'_toNat, Nat.shiftRight_zero]

theorem toNat_unpackSign (b : BitVec Format.binary64.numBits) :
    (unpackSign b).toNat = b.toNat / 2 ^ 63 % 2 := by
  show (b.extractLsb' 63 1).toNat = _
  rw [BitVec.extractLsb'_toNat, Nat.shiftRight_eq_div_pow, pow_one]

theorem ofBitVec_eq_positive_iff {b : BitVec 1} : Sign.ofBitVec b = .positive ↔ b.toNat = 0 := by
  unfold Sign.ofBitVec
  split
  · next h => simp [h]
  · next h =>
    simp only [reduceCtorEq, false_iff]
    exact fun hzero => h (BitVec.eq_of_toNat_eq hzero)

/-- The fields in the bits of a positive double: below the exponents of normal doubles, the mantissa
lacks its first bit. -/
theorem fields_of_unpack (h : x.toModel.unpack = .finite .positive m e hm) :
    ∃ biased fraction : ℕ, x.toBits.toNat = biased * 2 ^ 52 + fraction ∧ biased < 2047 ∧
      fraction < 2 ^ 52 ∧ (biased = 0 ∧ m = fraction ∧ e = -1074 ∨
        0 < biased ∧ m = 2 ^ 52 + fraction ∧ e = biased - 1075) := by
  obtain ⟨b, hb⟩ : ∃ b : BitVec Format.binary64.numBits, b = x.toModel.toBits.toBitVec := ⟨_, rfl⟩
  have hbits : x.toBits.toNat = b.toNat := congrArg BitVec.toNat hb.symm
  have hword : b.toNat < 2 ^ 64 := b.isLt
  have hexponent := toNat_unpackExponent b
  have hmantissa := toNat_unpackMantissa b
  have hsign := toNat_unpackSign b
  have hbias : (Format.binary64.exponentBias : ℤ) = 1023 := rfl
  change UnpackedFloat.unpack Format.binary64 x.toModel.toBits.toBitVec = _ at h
  rw [← hb] at h
  unfold UnpackedFloat.unpack at h
  dsimp only at h
  split at h
  · split at h <;> cases h
  · next hfinite =>
    have hnot : (unpackExponent b).toNat ≠ 2047 := fun heq => hfinite (BitVec.eq_of_toNat_eq heq)
    refine ⟨(unpackExponent b).toNat, (unpackMantissa b).toNat, ?_⟩
    split at h
    · next hsmall =>
      have hzero : (unpackExponent b).toNat = 0 := congrArg BitVec.toNat hsmall
      split at h
      · cases h
      · obtain ⟨hs, hm, he⟩ := UnpackedFloat.finite.inj h
        rw [ofBitVec_eq_positive_iff] at hs
        omega
    · next hlarge =>
      have hpos : (unpackExponent b).toNat ≠ 0 := fun heq => hlarge (BitVec.eq_of_toNat_eq heq)
      obtain ⟨hs, hm, he⟩ := UnpackedFloat.finite.inj h
      rw [ofBitVec_eq_positive_iff] at hs
      rw [BitVec.toNat_append, ← Nat.shiftLeft_add_eq_or_of_lt (BitVec.isLt _), Nat.shiftLeft_eq] at hm
      change 1 * 2 ^ 52 + _ = m at hm
      omega

theorem regular_of_unpack (h : x.toModel.unpack = .finite .positive m e hm) : Regular m e := by
  obtain ⟨biased, fraction, -, hbiased, hfraction, hfields⟩ := fields_of_unpack h
  exact ⟨by omega, by omega, by omega, by omega⟩

theorem decode_of_unpack (h : x.toModel.unpack = .finite .positive m e hm) :
    decode x = .finite false m e := by
  obtain ⟨biased, fraction, hbits, hbiased, hfraction, hfields⟩ := fields_of_unpack h
  have hnegative : x.toBits.toNat.testBit 63 = false := Nat.testBit_lt_two_pow (by omega)
  have hexponent : x.toBits.toNat / hiddenBit % 2048 = biased := by
    unfold hiddenBit
    omega
  have hmantissa : x.toBits.toNat % hiddenBit = fraction := by
    unfold hiddenBit
    omega
  simp only [decode, hnegative, hexponent, hmantissa]
  rw [if_neg (by omega)]
  rcases hfields with ⟨hzero, rfl, rfl⟩ | ⟨hpos, rfl, rfl⟩
  · rw [if_pos hzero]
    rfl
  · rw [if_neg (by omega)]
    congr 1
    unfold leastExponent
    omega

/-! ### Values -/

/-- The double is a number that is not negative. -/
inductive HasValue (x : Float) : ℚ → Prop
  | zero (h : x.toModel.unpack = .zero .positive) : HasValue x 0
  | finite {m : ℕ} {e : ℤ} {hm : 0 < m} (h : x.toModel.unpack = .finite .positive m e hm) :
    HasValue x (m * 2 ^ e)

theorem HasValue.nonneg (h : HasValue x q) : 0 ≤ q := by
  cases h with
  | zero => exact le_rfl
  | finite => positivity

theorem HasValue.isDouble (h : HasValue x q) : IsDouble q := by
  cases h with
  | zero => exact ⟨0, 0, by norm_num, by norm_num, by norm_num, by simp⟩
  | finite h =>
    have hregular := regular_of_unpack h
    exact ⟨_, _, hregular.upper, hregular.least, hregular.greatest, rfl⟩

/-- The doubles nearest to zero have their mantissas as they are. -/
theorem unpack_pack_small (hm : 0 < m) (hlt : m < 2 ^ 52) :
    (Float.Model.pack (.finite .positive m (-1074) hm)).unpack = .finite .positive m (-1074) hm := by
  have hlog : m.log2 < 52 := (Nat.log2_lt (Nat.ne_of_gt hm)).mpr hlt
  have hpack : UnpackedFloat.pack Format.binary64 (.finite .positive m (-1074) hm) =
      packComponents Format.binary64 .positive 0#11 (BitVec.ofNat 52 m) := by
    have hdigits : ¬ m.log2 + 1 = 53 := by omega
    exact if_neg hdigits
  have hmantissa : (BitVec.ofNat 52 m).toNat = m := by
    rw [BitVec.toNat_ofNat, Nat.mod_eq_of_lt hlt]
  have hne : BitVec.ofNat 52 m ≠ 0#52 := by
    intro heq
    rw [heq] at hmantissa
    exact Nat.ne_of_lt hm hmantissa
  show UnpackedFloat.unpack Format.binary64 (UnpackedFloat.pack Format.binary64 _) = _
  rw [hpack]
  unfold UnpackedFloat.unpack
  dsimp only
  rw [if_neg (by rw [unpackExponent_packComponents]; decide),
    if_pos (by rw [unpackExponent_packComponents]), dif_neg (by rwa [unpackMantissa_packComponents])]
  rw [UnpackedFloat.finite.injEq]
  refine ⟨?_, ?_, ?_⟩
  · rw [unpackSign_packComponents]
    rfl
  · rw [unpackMantissa_packComponents, hmantissa]
  · rw [unpackExponent_packComponents]
    rfl

theorem unpack_pack_large (hm : 0 < m) (he : 972 ≤ e) :
    (Float.Model.pack (.finite .positive m e hm)).unpack = .infinity .positive := by
  have hpack : UnpackedFloat.pack Format.binary64 (.finite .positive m e hm) =
      packedInfinity Format.binary64 .positive := by
    have hbiased : 2 ^ 11 ≤ (e + 1023 + 52).toNat + 1 := by omega
    exact if_pos hbiased
  show UnpackedFloat.unpack Format.binary64 (UnpackedFloat.pack Format.binary64 _) = _
  rw [hpack]
  rfl

/-- A double with a mantissa of full length, as far as the exponents reach. -/
theorem hasValue_or_infinite (hm : 0 < m) (hlt : m < 2 ^ 53) (hleast : -1074 ≤ e)
    (hfull : e = -1074 ∨ 2 ^ 52 ≤ m) :
    HasValue (.ofModel (.pack (.finite .positive m e hm))) (m * 2 ^ e) ∨
      (Float.Model.pack (.finite .positive m e hm)).unpack = .infinity .positive ∧ 972 ≤ e := by
  rcases lt_or_ge e 972 with he | he
  · left
    by_cases hnormal : 2 ^ 52 ≤ m
    · exact .finite (unpack_scaled ⟨hnormal, hlt, hleast, by omega⟩)
    · obtain rfl : e = -1074 := hfull.resolve_right hnormal
      exact .finite (unpack_pack_small hm (by omega))
  · exact .inr ⟨unpack_pack_large hm he, he⟩

/-- The double nearest to a number, or infinity for a number that is too large. -/
inductive IsRounding (q : ℚ) (x : Float) : Prop
  | nearest {v : ℚ} (hvalue : HasValue x v) (hnearest : NearestTo q v)
  | infinite (h : x.toModel.unpack = .infinity .positive) (hlarge : 2 ^ (1023 : ℤ) ≤ q)

theorem isRounding_roundWithAccuracy {accuracy : Accuracy}
    (hm : Describes (.ofMantissaAndAccuracy m accuracy) (q / 2 ^ e)) (he : e ≤ roundingExponent m e) :
    IsRounding q (.ofModel (.pack (roundWithAccuracy Format.binary64 .positive m e accuracy))) := by
  obtain ⟨r, e', hr, hleast, hle, hfull, hunpacked⟩ := roundWithAccuracy_eq hm he
  generalize roundWithAccuracy Format.binary64 .positive m e accuracy = u at hunpacked ⊢
  have hlarge : 971 ≤ e' → 2 ^ (1023 : ℤ) ≤ q := by
    intro hge
    have hq := (le_div_iff₀ (by positivity)).mp (hfull.resolve_left (by omega))
    calc (2 : ℚ) ^ (1023 : ℤ) = 2 ^ 52 * 2 ^ (971 : ℤ) := by
          rw [← zpow_natCast, ← zpow_add₀ two_ne_zero]
          norm_num
      _ ≤ 2 ^ 52 * 2 ^ e' :=
          mul_le_mul_of_nonneg_left (zpow_le_zpow_right₀ one_le_two hge) (by positivity)
      _ ≤ q := hq
  have hnearest : IsDouble (r * 2 ^ e') → NearestTo q (r * 2 ^ e') := nearestTo_of_roundsTo hfull hr
  cases hunpacked with
  | zero hzero =>
    have hvalue : HasValue (.ofModel (.pack (.zero .positive))) (r * 2 ^ e') := by
      rw [hzero, Nat.cast_zero, zero_mul]
      exact .zero rfl
    exact .nearest hvalue (hnearest hvalue.isDouble)
  | mantissa hpos hlt =>
    have hfull' : e' = -1074 ∨ 2 ^ 52 ≤ r :=
      hfull.imp_right fun hle => hr.le_of_le (by exact_mod_cast hle)
    rcases hasValue_or_infinite hpos hlt hleast hfull' with hvalue | ⟨hinfinite, hge⟩
    · exact .nearest hvalue (hnearest hvalue.isDouble)
    · exact .infinite hinfinite (hlarge (by omega))
  | carry hcarry =>
    have hcarried : ((2 ^ 52 : ℕ) : ℚ) * 2 ^ (e' + 1) = r * 2 ^ e' := by
      rw [hcarry, zpow_add_one₀ two_ne_zero]
      push_cast
      ring
    rcases hasValue_or_infinite (by norm_num) (by norm_num) (by omega : -1074 ≤ e' + 1) (.inr le_rfl)
      with hvalue | ⟨hinfinite, hge⟩
    · rw [hcarried] at hvalue
      exact .nearest hvalue (hnearest hvalue.isDouble)
    · exact .infinite hinfinite (hlarge (by omega))

theorem IsRounding.of_lt (h : IsRounding q x) (hlt : q < 2 ^ (1023 : ℤ)) :
    ∃ v, HasValue x v ∧ NearestTo q v := by
  cases h with
  | nearest hvalue hnearest => exact ⟨_, hvalue, hnearest⟩
  | infinite _ hlarge => exact absurd hlarge (not_le.mpr hlt)

/-! ### Order -/

/-- Full mantissas make the exponent count before the mantissa. -/
theorem Regular.value_le {m' : ℕ} {e' : ℤ} (h : Regular m e) (h' : Regular m' e')
    (hle : e < e' ∨ e = e' ∧ m ≤ m') : (m : ℚ) * 2 ^ e ≤ m' * 2 ^ e' := by
  rcases hle with hlt | ⟨rfl, hle⟩
  · have hleast := h.least
    have hm : (m : ℚ) ≤ 2 ^ 53 := by exact_mod_cast h.upper.le
    have hm' : (2 : ℚ) ^ 52 ≤ m' := by exact_mod_cast h'.full.resolve_left (by omega)
    calc (m : ℚ) * 2 ^ e ≤ 2 ^ 53 * 2 ^ e := mul_le_mul_of_nonneg_right hm (by positivity)
      _ = 2 ^ 52 * 2 ^ (e + 1) := by
          rw [zpow_add_one₀ two_ne_zero]
          ring
      _ ≤ 2 ^ 52 * 2 ^ e' :=
          mul_le_mul_of_nonneg_left (zpow_le_zpow_right₀ one_le_two (by omega)) (by positivity)
      _ ≤ m' * 2 ^ e' := mul_le_mul_of_nonneg_right hm' (by positivity)
  · exact mul_le_mul_of_nonneg_right (by exact_mod_cast hle) (by positivity)

/-- Positive doubles are ordered as numbers by what they are compared by. -/
theorem exists_values_of_rank_le (hx : isPositive x = true) (hy : isPositive y = true)
    (hle : rank x ≤ rank y) : ∃ p q, HasValue x p ∧ HasValue y q ∧ 0 < p ∧ p ≤ q := by
  obtain ⟨m, e, hm, hx⟩ := exists_unpack_of_isPositive hx
  obtain ⟨m', e', hm', hy⟩ := exists_unpack_of_isPositive hy
  unfold rank at hle
  rw [hx, hy, Prod.Lex.toLex_le_toLex] at hle
  exact ⟨_, _, .finite hx, .finite hy, by positivity,
    (regular_of_unpack hx).value_le (regular_of_unpack hy) hle⟩

/-! ### Words -/

theorem HasValue.decode_eq (h : HasValue x q) :
    ∃ (m : ℕ) (e : ℤ), decode x = .finite false m e ∧ q = m * 2 ^ e := by
  cases h with
  | zero h =>
    have hx : x = 0 := eq_of_unpack_eq (h.trans rfl)
    refine ⟨0, leastExponent, ?_, by rw [Nat.cast_zero, zero_mul]⟩
    rw [hx]
    rfl
  | finite h => exact ⟨_, _, decode_of_unpack h, rfl⟩

theorem floorScaled_eq_floor (m : ℕ) (e : ℤ) : floorScaled m e = ⌊(m : ℚ) * 2 ^ e⌋₊ := by
  unfold floorScaled
  split
  · next he =>
    obtain ⟨k, rfl⟩ := Int.eq_ofNat_of_zero_le he
    rw [Int.toNat_natCast, Nat.shiftLeft_eq, zpow_natCast]
    exact_mod_cast (Nat.floor_natCast (R := ℚ) (m * 2 ^ k)).symm
  · next he =>
    obtain ⟨k, hk⟩ := Int.eq_ofNat_of_zero_le (by omega : 0 ≤ -e)
    obtain rfl : e = -k := by omega
    rw [neg_neg, Int.toNat_natCast, Nat.shiftRight_eq_div_pow, zpow_neg, zpow_natCast, ← div_eq_mul_inv,
      ← Nat.floor_div_eq_div (K := ℚ)]
    push_cast
    rfl

theorem toWord_eq_floor (h : HasValue x q) (hlt : q < 2 ^ 64) : toWord x = ⌊q⌋₊ := by
  obtain ⟨m, e, hdecode, rfl⟩ := h.decode_eq
  have hfloor : ⌊(m : ℚ) * 2 ^ e⌋₊ < 2 ^ 64 := (Nat.floor_lt h.nonneg).mpr (by exact_mod_cast hlt)
  unfold toWord convert
  rw [hdecode]
  show Word.saturate (floorScaled m e) = _
  rw [floorScaled_eq_floor]
  unfold Word.saturate maxWord wordLimit
  omega

/-- Rounding to an integer does not go beyond an integer above. -/
theorem roundScaled_le {n : ℕ} (hle : (m : ℚ) * 2 ^ e ≤ n) : roundScaled m e ≤ n := by
  unfold roundScaled
  split
  · next he =>
    obtain ⟨k, rfl⟩ := Int.eq_ofNat_of_zero_le he
    rw [Int.toNat_natCast, Nat.shiftLeft_eq]
    rw [zpow_natCast] at hle
    exact_mod_cast hle
  · next he =>
    obtain ⟨k, hk⟩ := Int.eq_ofNat_of_zero_le (by omega : 0 ≤ -e)
    obtain rfl : e = -k := by omega
    rw [neg_neg, Int.toNat_natCast, Nat.one_shiftLeft]
    rw [zpow_neg, zpow_natCast, ← div_eq_mul_inv, div_le_iff₀ (by positivity)] at hle
    have hunits : m ≤ n * 2 ^ k := by exact_mod_cast hle
    have hbelow := (isNearest_halfEvenDiv (Nat.two_pow_pos k) m).below_le
    by_contra hgt
    have hmore := Nat.mul_le_mul_right (2 ^ k) (Nat.lt_of_not_le hgt)
    rw [Nat.succ_mul] at hmore
    have hunit := Nat.two_pow_pos k
    omega

theorem roundToWord_le {n : ℕ} (h : HasValue x q) (hle : q ≤ n) : roundToWord x ≤ n := by
  obtain ⟨m, e, hdecode, rfl⟩ := h.decode_eq
  unfold roundToWord convert
  rw [hdecode]
  exact (min_le_left _ _).trans (roundScaled_le hle)

end PulseSequencer.Binary64
