import PulseSequencer.Binary64
import Mathlib.Algebra.Ring.Int.Defs
import Mathlib.Algebra.Ring.Nat

/-!
# Whole numbers as doubles

A positive double with a full mantissa of 53 bits is `mantissa · 2 ^ exponent` for exactly one pair of
these (`Normal`, `scaled`).  Rounding leaves such a number alone, and so do writing it to the bits of a
double and reading it back.

* `roundWithAccuracy_exact`: rounding drops zeros at the end of a mantissa, and nothing else.
* `unpack_scaled`, `decode_scaled`: the bits of a double have its mantissa and its exponent.
* `scaled_mul_one`: the product with 1 is exact.
* `exists_scaled_of_le`: every whole number from 1 to `2 ^ 53` is such a double, and dropping the
  fraction of it gives the number back.
-/

namespace PulseSequencer.Binary64

open Float.Model (Format UnpackedFloat totalExponent)
open Float.Model.UnpackedFloat

/-- A mantissa of 53 bits, with an exponent that a double can hold. -/
structure Normal (m : Nat) (e : Int) : Prop where
  lower : 2 ^ 52 ≤ m
  upper : m < 2 ^ 53
  least : -1074 ≤ e
  greatest : e ≤ 971

section Normal

variable {m : Nat} {e : Int}

theorem Normal.pos (h : Normal m e) : 0 < m := by
  have := h.lower
  omega

theorem Normal.log2 (h : Normal m e) : m.log2 = 52 :=
  (Nat.log2_eq_iff (Nat.ne_of_gt h.pos)).mpr ⟨h.lower, h.upper⟩

/-- The double `m · 2 ^ e`. -/
def scaled (m : Nat) (e : Int) (h : Normal m e) : Float :=
  .ofModel (.pack (.finite .positive m e h.pos))

/-! ### Rounding -/

theorem Normal.log2_mul (h : Normal m e) (j : Nat) : (m * 2 ^ j).log2 = 52 + j := by
  have hne : m * 2 ^ j ≠ 0 := Nat.ne_of_gt (Nat.mul_pos h.pos (Nat.two_pow_pos j))
  rw [Nat.log2_eq_iff hne]
  constructor
  · rw [Nat.pow_add]
    exact Nat.mul_le_mul_right _ h.lower
  · have hlt := Nat.mul_lt_mul_of_pos_right h.upper (Nat.two_pow_pos j)
    rwa [← Nat.pow_add, Nat.add_right_comm 52 1 j] at hlt

/-- The exponent that a mantissa with zeros at its end is brought to. -/
theorem Normal.targetExponent (h : Normal m e) (j : Nat) :
    Format.binary64.targetExponent (totalExponent (m * 2 ^ j) (e - j)) = e := by
  have := h.least
  show max (((m * 2 ^ j).log2 : Int) + 1 + (e - j) - 53) (-1074) = e
  rw [h.log2_mul]
  omega

theorem shiftRight_exact (m j : Nat) :
    ExtendedMantissa.ofMantissaAndAccuracy (m * 2 ^ j) .exact >>> j = ⟨m, false, false⟩ := by
  induction j generalizing m with
  | zero =>
    rw [Nat.pow_zero, Nat.mul_one]
    rfl
  | succ j ih =>
    have hsplit : m * 2 ^ (j + 1) = (m * 2) * 2 ^ j := by
      rw [Nat.pow_succ, Nat.mul_assoc, Nat.mul_comm 2]
    show ExtendedMantissa.shiftRightOne
      (ExtendedMantissa.ofMantissaAndAccuracy (m * 2 ^ (j + 1)) .exact >>> j) = _
    rw [hsplit, ih]
    simp [ExtendedMantissa.shiftRightOne]

theorem shiftToTargetExponent_exact (h : Normal m e) (j : Nat) :
    shiftToTargetExponent Format.binary64 (m * 2 ^ j) (e - j) .exact = (⟨m, false, false⟩, e) := by
  have hamount : (e - (e - j)).toNat = j := by omega
  have hexponent : e - j + (j : Nat) = e := by omega
  simp only [shiftToTargetExponent, h.targetExponent, shiftToExponent, hamount, hexponent,
    shiftRight_exact]

/-- Rounding drops zeros at the end of a mantissa, and nothing else. -/
theorem roundWithAccuracy_exact (h : Normal m e) (j : Nat) :
    roundWithAccuracy Format.binary64 .positive (m * 2 ^ j) (e - j) .exact =
      .finite .positive m e h.pos := by
  have hagain : shiftToTargetExponent Format.binary64 m e .exact = (⟨m, false, false⟩, e) := by
    simpa using shiftToTargetExponent_exact h 0
  unfold roundWithAccuracy
  rw [shiftToTargetExponent_exact h j]
  -- the mantissa is `m` now, and the second shift finds nothing to do
  have hrounded : ExtendedMantissa.roundedMantissa ⟨m, false, false⟩ = m := rfl
  dsimp only
  rw [hrounded, hagain]
  exact dif_neg (Nat.ne_of_gt h.pos)

/-! ### The bits of a double -/

theorem pack_scaled (h : Normal m e) :
    UnpackedFloat.pack Format.binary64 (.finite .positive m e h.pos) =
      packComponents Format.binary64 .positive (BitVec.ofNat 11 (e + 1075).toNat)
        (BitVec.ofNat 52 m) := by
  have := h.least
  have := h.greatest
  have hbiased : (e + 1023 + 52).toNat = (e + 1075).toNat := by omega
  have hfits : ¬ 2 ^ 11 ≤ (e + 1023 + 52).toNat + 1 := by omega
  show (if 2 ^ 11 ≤ (e + 1023 + 52).toNat + 1 then _ else if m.log2 + 1 = 53 then
    packComponents Format.binary64 .positive (BitVec.ofNat 11 (e + 1023 + 52).toNat)
      (BitVec.ofNat 52 m) else _) = _
  rw [if_neg hfits, if_pos (by rw [h.log2]), hbiased]

theorem unpackSign_packComponents (exponent : BitVec 11) (mantissa : BitVec 52) :
    unpackSign (packComponents Format.binary64 .positive exponent mantissa) = 0#1 := by
  show (0#1 ++ exponent ++ mantissa).extractLsb' 63 1 = 0#1
  ext i hi
  have htop : (0#1 ++ exponent ++ mantissa).getLsbD (63 + i) = false := by
    have hmantissa : ¬ 63 + i < 52 := by omega
    have hexponent : ¬ 63 + i - 52 < 11 := by omega
    rw [BitVec.getLsbD_append, BitVec.getLsbD_append]
    simp [hmantissa, hexponent]
  rw [BitVec.getElem_extractLsb', htop]
  simp

theorem toNat_biased (h : Normal m e) :
    (BitVec.ofNat 11 (e + 1075).toNat).toNat = (e + 1075).toNat := by
  have := h.least
  have := h.greatest
  rw [BitVec.toNat_ofNat]
  omega

/-- A double is read off its bits with the mantissa bit that is not among them. -/
theorem unpack_of_normal (b : BitVec Format.binary64.numBits) (hinfinite : unpackExponent b ≠ -1#11)
    (hzero : unpackExponent b ≠ 0#11) (hpos : 0 < (1#1 ++ unpackMantissa b).toNat) :
    UnpackedFloat.unpack Format.binary64 b =
      .finite (Sign.ofBitVec (unpackSign b)) (1#1 ++ unpackMantissa b).toNat
        ((unpackExponent b).toNat - 1075) hpos := by
  show (if unpackExponent b = -1#11 then _ else if unpackExponent b = 0#11 then _ else
    UnpackedFloat.finite (Sign.ofBitVec (unpackSign b)) (1#1 ++ unpackMantissa b).toNat
      ((unpackExponent b).toNat - (1023 + 52)) _) = _
  rw [if_neg hinfinite, if_neg hzero]
  rfl

theorem unpack_scaled (h : Normal m e) :
    (scaled m e h).toModel.unpack = .finite .positive m e h.pos := by
  have hlower := h.lower
  have hupper := h.upper
  have hleast := h.least
  have hgreatest := h.greatest
  have hbiased := toNat_biased h
  have hmantissa : (1#1 ++ BitVec.ofNat 52 m).toNat = m := by
    rw [BitVec.toNat_append, ← Nat.shiftLeft_add_eq_or_of_lt (BitVec.isLt _), BitVec.toNat_ofNat,
      Nat.shiftLeft_eq]
    show 1 * 2 ^ 52 + m % 2 ^ 52 = m
    omega
  have hinfinite : BitVec.ofNat 11 (e + 1075).toNat ≠ -1#11 := by
    intro hall
    rw [hall] at hbiased
    change 2047 = _ at hbiased
    omega
  have hzero : BitVec.ofNat 11 (e + 1075).toNat ≠ 0#11 := by
    intro hall
    rw [hall] at hbiased
    change 0 = _ at hbiased
    omega
  show UnpackedFloat.unpack Format.binary64 (UnpackedFloat.pack Format.binary64 _) = _
  rw [pack_scaled h, unpack_of_normal]
  · rw [UnpackedFloat.finite.injEq]
    refine ⟨?_, ?_, ?_⟩
    · rw [unpackSign_packComponents]
      rfl
    · rw [unpackMantissa_packComponents, hmantissa]
    · rw [unpackExponent_packComponents, hbiased]
      omega
  · rw [unpackExponent_packComponents]
    exact hinfinite
  · rw [unpackExponent_packComponents]
    exact hzero
  · rw [unpackMantissa_packComponents, hmantissa]
    exact h.pos

theorem toNat_toBits_scaled (h : Normal m e) :
    (scaled m e h).toBits.toNat = (e + 1075).toNat * 2 ^ 52 + m % 2 ^ 52 := by
  show (UnpackedFloat.pack Format.binary64 (.finite .positive m e h.pos)).toNat = _
  rw [pack_scaled h]
  show (0#1 ++ BitVec.ofNat 11 (e + 1075).toNat ++ BitVec.ofNat 52 m).toNat = _
  rw [BitVec.toNat_append, ← Nat.shiftLeft_add_eq_or_of_lt (BitVec.isLt _), BitVec.toNat_append,
    ← Nat.shiftLeft_add_eq_or_of_lt (BitVec.isLt _), toNat_biased h, Nat.shiftLeft_eq,
    Nat.shiftLeft_eq, BitVec.toNat_ofNat]
  simp

theorem decode_scaled (h : Normal m e) : decode (scaled m e h) = .finite false m e := by
  have hlower := h.lower
  have hupper := h.upper
  have hleast := h.least
  have hgreatest := h.greatest
  obtain ⟨biased, hbiased⟩ : ∃ biased : Nat, biased = (e + 1075).toNat := ⟨_, rfl⟩
  have hbits := toNat_toBits_scaled h
  rw [← hbiased] at hbits
  have hnegative : (scaled m e h).toBits.toNat.testBit 63 = false := by
    apply Nat.testBit_lt_two_pow
    omega
  have hexponent : (scaled m e h).toBits.toNat / hiddenBit % 2048 = biased := by
    unfold hiddenBit
    omega
  have hfraction : (scaled m e h).toBits.toNat % hiddenBit = m % 2 ^ 52 := by
    unfold hiddenBit
    omega
  simp only [decode, hnegative, hexponent, hfraction]
  rw [if_neg (by omega), if_neg (by omega)]
  congr 1
  · unfold hiddenBit
    omega
  · unfold leastExponent
    omega

/-! ### Products and comparisons -/

theorem normal_one : Normal (2 ^ 52) (-52) := ⟨by decide, by decide, by decide, by decide⟩

theorem one_eq_scaled : (1 : Float) = scaled (2 ^ 52) (-52) normal_one := by rfl

theorem scaled_mul_one (h : Normal m e) : scaled m e h * 1 = scaled m e h := by
  have hone : (1 : Float).toModel.unpack = .finite .positive (2 ^ 52) (-52) normal_one.pos := by
    rw [one_eq_scaled, unpack_scaled]
  show Float.ofModel (.pack (UnpackedFloat.mul Format.binary64 (scaled m e h).toModel.unpack
    (1 : Float).toModel.unpack)) = _
  rw [unpack_scaled, hone]
  show Float.ofModel (.pack (roundWithAccuracy Format.binary64 .positive (m * 2 ^ 52)
    (e - (52 : Nat)) .exact)) = _
  rw [roundWithAccuracy_exact h]
  rfl

theorem isFinite_scaled (h : Normal m e) : (scaled m e h).isFinite = true := by
  show (scaled m e h).toModel.unpack.isFinite = true
  rw [unpack_scaled]
  rfl

/-- A smaller exponent makes a smaller double. -/
theorem not_scaled_le {m' : Nat} {e' : Int} (h : Normal m e) (h' : Normal m' e') (hlt : e < e') :
    ¬ scaled m' e' h' ≤ scaled m e h := by
  intro hle
  have hmodel : (scaled m' e' h').toModel ≤ (scaled m e h).toModel := of_decide_eq_true hle
  change UnpackedFloat.le (scaled m' e' h').toModel.unpack (scaled m e h).toModel.unpack = true
    at hmodel
  rw [unpack_scaled, unpack_scaled] at hmodel
  have hcompare : compare e' e = .gt := Int.compare_eq_gt.mpr hlt
  change ((compare e' e).then (compare m' m)).isLE = true at hmodel
  rw [hcompare] at hmodel
  exact Bool.false_ne_true hmodel

theorem toWord_scaled (h : Normal m e) : toWord (scaled m e h) = Word.saturate (floorScaled m e) := by
  unfold toWord convert
  rw [decode_scaled]

end Normal

/-! ### Whole numbers -/

section Whole

variable {n : Nat} (hpos : 1 ≤ n)
include hpos

theorem log2_le_of_lt (hlt : n < 2 ^ 53) : n.log2 ≤ 52 := by
  have := (Nat.log2_lt (by omega)).mpr hlt
  omega

/-- A whole number of at most 53 bits becomes a full mantissa by zeros at its end. -/
theorem normal_of_lt (hlt : n < 2 ^ 53) : Normal (n * 2 ^ (52 - n.log2)) ((n.log2 : Int) - 52) := by
  obtain ⟨hlower, hupper⟩ := (Nat.log2_eq_iff (n := n) (k := n.log2) (by omega)).mp rfl
  have hlog := log2_le_of_lt hpos hlt
  have hsplit : 2 ^ n.log2 * 2 ^ (52 - n.log2) = 2 ^ 52 := by
    rw [← Nat.pow_add, Nat.add_sub_cancel' hlog]
  refine ⟨?_, ?_, by omega, by omega⟩
  · rw [← hsplit]
    exact Nat.mul_le_mul_right _ hlower
  · calc n * 2 ^ (52 - n.log2)
        < 2 ^ (n.log2 + 1) * 2 ^ (52 - n.log2) :=
          Nat.mul_lt_mul_of_pos_right hupper (Nat.two_pow_pos _)
      _ = 2 * (2 ^ n.log2 * 2 ^ (52 - n.log2)) := by rw [Nat.pow_succ, Nat.mul_comm _ 2, Nat.mul_assoc]
      _ = 2 ^ 53 := by omega

theorem round_of_lt (hlt : n < 2 ^ 53) :
    UnpackedFloat.round Format.binary64 .positive n 0 =
      .finite .positive (n * 2 ^ (52 - n.log2)) ((n.log2 : Int) - 52) (normal_of_lt hpos hlt).pos := by
  have hlog := log2_le_of_lt hpos hlt
  have htarget : Format.binary64.targetExponent (totalExponent n 0) = (n.log2 : Int) - 52 := by
    show max ((n.log2 : Int) + 1 + 0 - 53) (-1074) = _
    omega
  have hshift : decreaseExponent n 0 ((n.log2 : Int) - 52) =
      (n * 2 ^ (52 - n.log2), (n.log2 : Int) - 52) := by
    have hamount : (0 - ((n.log2 : Int) - 52)).toNat = 52 - n.log2 := by omega
    have hexponent : (0 : Int) - (52 - n.log2 : Nat) = (n.log2 : Int) - 52 := by omega
    simp only [decreaseExponent, hamount, hexponent, Nat.shiftLeft_eq]
  have hround := roundWithAccuracy_exact (normal_of_lt hpos hlt) 0
  rw [Nat.pow_zero, Nat.mul_one, Int.natCast_zero, Int.sub_zero] at hround
  unfold UnpackedFloat.round
  dsimp only
  rw [htarget, hshift]
  exact hround

theorem toFloat_eq_scaled (hlt : n < 2 ^ 53) :
    n.toUInt64.toFloat = scaled _ _ (normal_of_lt hpos hlt) := by
  have hword : n.toUInt64.toNat = n := by
    rw [Nat.toUInt64_eq, UInt64.toNat_ofNat']
    omega
  have hnormalize : UnpackedFloat.normalize Format.binary64 (n : Int) 0 .positive =
      UnpackedFloat.round Format.binary64 .positive n 0 := by
    have hcompare : compare (n : Int) 0 = .gt := Int.compare_eq_gt.mpr (by omega)
    unfold UnpackedFloat.normalize
    rw [hcompare]
    rfl
  show Float.ofModel (.pack (UnpackedFloat.normalize Format.binary64 (n.toUInt64.toNat : Int) 0
    .positive)) = _
  rw [hword, hnormalize, round_of_lt hpos hlt]
  rfl

theorem floorScaled_of_lt (hlt : n < 2 ^ 53) :
    floorScaled (n * 2 ^ (52 - n.log2)) ((n.log2 : Int) - 52) = n := by
  have hlog := log2_le_of_lt hpos hlt
  unfold floorScaled
  split
  · have hfull : n.log2 = 52 := by omega
    simp [hfull]
  · have hamount : (-((n.log2 : Int) - 52)).toNat = 52 - n.log2 := by omega
    rw [hamount, Nat.shiftRight_eq_div_pow, Nat.mul_div_cancel _ (Nat.two_pow_pos _)]

/-- A whole number up to `2 ^ 53` is a double. -/
theorem exists_scaled_of_le (hle : n ≤ 2 ^ 53) :
    ∃ m e, ∃ h : Normal m e, Float.ofScientific n false 0 = scaled m e h ∧ e ≤ 1 ∧
      floorScaled m e = n := by
  rcases Nat.lt_or_eq_of_le hle with hlt | rfl
  · have hlog := log2_le_of_lt hpos hlt
    refine ⟨_, _, normal_of_lt hpos hlt, ?_, by omega, floorScaled_of_lt hpos hlt⟩
    have hone : Float.exactlyRepresentablePowersOfTen[0] = (1 : Float) := by rfl
    rw [Float.ofScientific, dif_pos ⟨hlt, by omega⟩]
    simp only [hone, Bool.false_eq_true, if_false]
    rw [toFloat_eq_scaled hpos hlt, scaled_mul_one]
  · -- the mantissa has one zero to give to the exponent
    exact ⟨2 ^ 52, 1, ⟨by decide, by decide, by decide, by decide⟩, by rfl, by decide, by rfl⟩

end Whole

end PulseSequencer.Binary64
