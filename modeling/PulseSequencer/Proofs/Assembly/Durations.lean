import PulseSequencer.Proofs.Assembly.Layout
import PulseSequencer.Proofs.Binary64.Operations
import PulseSequencer.Proofs.Text.Spelling
import Mathlib

/-!
# Which durations are read

A duration is written as a decimal with a unit, and it has an exact length in ns.  It is read through
doubles: the decimal is rounded, and once more its product with the unit.  Only then the fraction is
dropped, so that a length just below a whole number of ns may be read as that number, and a length of a
whole number as the number before.

* `WrittenDuration`: durations as they are written, with their exact values.
* `parseDuration_eq_truncated`: the double that the fraction is dropped of.
* `abs_sub_le_of_nearest`: both roundings together are less than one part in `2 ^ 52`.
* `parseDuration_written`: together; `parseDuration_below_whole` is a duration that is read too short.
-/

namespace PulseSequencer.Assembly

open Binary64 (IsDouble NearestTo HasValue IsRounding)

/-- A unit, with its number of ns. -/
inductive DurationUnit : List Char → ℕ → Prop
  | nanoseconds : DurationUnit ['n', 's'] 1
  | microseconds : DurationUnit ['u', 's'] (10 ^ 3)
  | milliseconds : DurationUnit ['m', 's'] (10 ^ 6)
  | seconds : DurationUnit ['s'] (10 ^ 9)

/-- A duration as it is written: digits, with more of them behind a point or not, then blanks or none,
then a unit.  With it go the number of units and the ns in each. -/
inductive WrittenDuration : List Char → ℚ → ℕ → Prop
  | whole {digits blanks unit : List Char} {n scale : ℕ} (hdigits : Text.Spells 10 digits n)
      (hblanks : ∀ c ∈ blanks, Text.isBlank c = true) (hunit : DurationUnit unit scale) :
      WrittenDuration (digits ++ (blanks ++ unit)) n scale
  | decimal {digits fraction blanks unit : List Char} {n k scale : ℕ}
      (hdigits : Text.Spells 10 digits n) (hfraction : Text.Spells 10 fraction k)
      (hblanks : ∀ c ∈ blanks, Text.isBlank c = true) (hunit : DurationUnit unit scale) :
      WrittenDuration (digits ++ '.' :: (fraction ++ (blanks ++ unit)))
        (n + k / 10 ^ fraction.length) scale

/-- What is read if a number of ns has its fraction dropped. -/
def truncated (token : List Char) (ns : ℚ) : Except ParseFault ℕ :=
  if ⌊ns⌋₊ = 0 then .error (.durationTooShort (String.ofList token)) else .ok ⌊ns⌋₊

/-! ### The parts of a duration -/

section Parts

variable {cs blanks unit : List Char} {n scale : ℕ}

theorem eq_digitChar_of_isDigit {c : Char} {d : ℕ} (h : Text.IsDigit 10 c d) :
    c = d.digitChar ∧ d < 10 := by
  obtain ⟨hd, hc⟩ := h
  have hupper : ∀ d < 10, d.digitChar.toUpper = d.digitChar := by decide
  refine ⟨?_, hd⟩
  rcases hc with rfl | rfl
  · rfl
  · exact hupper d hd

theorem ofDigitChars_of_forall₂ {ds : List ℕ} (h : List.Forall₂ (Text.IsDigit 10) cs ds) (acc : ℕ) :
    Nat.ofDigitChars 10 cs acc = ds.foldl (fun a d => a * 10 + d) acc := by
  induction h generalizing acc with
  | nil => rfl
  | cons hc _ ih =>
    obtain ⟨rfl, hd⟩ := eq_digitChar_of_isDigit hc
    rw [Nat.ofDigitChars_cons_digitChar_of_lt_ten hd, ih, List.foldl_cons, Nat.mul_comm 10]

theorem ofDigitChars_of_spells (h : Text.Spells 10 cs n) : Nat.ofDigitChars 10 cs 0 = n := by
  obtain ⟨-, ds, hds, rfl⟩ := h
  rw [ofDigitChars_of_forall₂ hds, Text.foldl_digits_eq_ofDigits]

theorem spells_digits (ds : List ℕ) (hne : ds ≠ []) (hds : ∀ d ∈ ds, d < 10) :
    Text.Spells 10 (ds.map Nat.digitChar) (Nat.ofDigits 10 ds.reverse) := by
  refine ⟨by simpa using hne, ds, ?_, rfl⟩
  rw [List.forall₂_map_left_iff, List.forall₂_same]
  exact fun d hd => ⟨hds d hd, .inl rfl⟩

theorem isDigit_of_spells (h : Text.Spells 10 cs n) : ∀ c ∈ cs, c.isDigit = true := by
  obtain ⟨-, ds, hds, -⟩ := h
  have hdigit : ∀ d < 10, d.digitChar.isDigit = true := by decide
  induction hds with
  | nil => simp
  | cons hc _ ih =>
    obtain ⟨rfl, hd⟩ := eq_digitChar_of_isDigit hc
    rintro c (_ | ⟨_, hmem⟩)
    · exact hdigit _ hd
    · exact ih c hmem

theorem not_isDigit_of_isBlank {c : Char} (h : Text.isBlank c = true) :
    c.isDigit = false ∧ c ≠ '.' := by
  constructor
  · by_contra hdigit
    rw [Bool.not_eq_false, Char.isDigit, Bool.and_eq_true, decide_eq_true_iff, decide_eq_true_iff]
      at hdigit
    have hlower : 48 ≤ c.toNat := hdigit.1
    have hupper : c.toNat ≤ 57 := hdigit.2
    simp only [Text.isBlank, Bool.or_eq_true, Bool.and_eq_true, decide_eq_true_eq, beq_iff_eq] at h
    omega
  · rintro rfl
    cases h

/-- What follows the digits: it does not go on with digits or a point, and the unit is left of it. -/
theorem rest_of_unit (hblanks : ∀ c ∈ blanks, Text.isBlank c = true) (hunit : DurationUnit unit scale) :
    (∀ c ∈ (blanks ++ unit).head?, c.isDigit = false ∧ c ≠ '.') ∧
      Text.trimStart (blanks ++ unit) = unit := by
  have hhead : ∀ c ∈ unit.head?, c.isDigit = false ∧ c ≠ '.' ∧ Text.isBlank c = false := by
    cases hunit <;> simp <;> decide
  constructor
  · intro c hc
    cases blanks with
    | nil => exact ⟨(hhead c hc).1, (hhead c hc).2.1⟩
    | cons b blanks =>
      obtain rfl : b = c := by simpa using hc
      exact not_isDigit_of_isBlank (hblanks b List.mem_cons_self)
  · rw [Text.trimStart, List.dropWhile_append_of_pos hblanks]
    exact Text.trimStart_of_head fun c hc => (hhead c hc).2.2

theorem hasValue_unitScale (h : DurationUnit unit scale) :
    ∃ f, unitScale? unit = some f ∧ HasValue f scale := by
  have hvalue : ∀ {f : Float} (m k : ℕ) (hm : 0 < m * 2 ^ k),
      f.toModel.unpack = .finite .positive (m * 2 ^ k) (-k) hm → HasValue f m := by
    intro f m k hm hunpack
    have hf := HasValue.finite hunpack
    rwa [Nat.cast_mul, Nat.cast_pow, Nat.cast_ofNat, zpow_neg, zpow_natCast,
      mul_inv_cancel_right₀ (by positivity)] at hf
  cases h with
  | nanoseconds => exact ⟨1, rfl, hvalue 1 52 (by norm_num) (by rfl)⟩
  | microseconds => exact ⟨1e3, rfl, hvalue (10 ^ 3) 43 (by norm_num) (by rfl)⟩
  | milliseconds => exact ⟨1e6, rfl, hvalue (10 ^ 6) 33 (by norm_num) (by rfl)⟩
  | seconds => exact ⟨1e9, rfl, hvalue (10 ^ 9) 23 (by norm_num) (by rfl)⟩

theorem DurationUnit.scale_le (h : DurationUnit unit scale) : 1 ≤ scale ∧ scale ≤ 10 ^ 9 := by
  cases h <;> norm_num

end Parts

/-! ### The literal -/

section Literal

variable {token : List Char} {v : ℚ} {scale : ℕ}

/-- A duration is taken apart into its digits, as a count of the last decimal place, and its unit. -/
theorem exists_split (h : WrittenDuration token v scale) :
    ∃ d : DurationLiteral, splitDuration token = some d ∧ DurationUnit d.unit scale ∧
      v = Nat.ofDigitChars 10 (d.whole ++ d.fraction) 0 / 10 ^ d.fraction.length := by
  cases h with
  | @whole digits blanks unit n _ hdigits hblanks hunit =>
    obtain ⟨hrest, htrim⟩ := rest_of_unit hblanks hunit
    refine ⟨⟨digits, [], unit⟩, ?_, hunit, ?_⟩
    · rw [splitDuration, spanDigits_append (isDigit_of_spells hdigits) fun c hc => (hrest c hc).1]
      dsimp only
      rw [if_neg (by simpa using hdigits.1)]
      split
      · next heq =>
        rw [heq] at hrest
        exact absurd rfl (hrest '.' rfl).2
      · rw [htrim]
    · rw [List.append_nil, ofDigitChars_of_spells hdigits, List.length_nil, pow_zero, div_one]
  | @decimal digits fraction blanks unit n k _ hdigits hfraction hblanks hunit =>
    obtain ⟨hrest, htrim⟩ := rest_of_unit hblanks hunit
    refine ⟨⟨digits, fraction, unit⟩, ?_, hunit, ?_⟩
    · have hspan : Decimal.spanDigits (fraction ++ (blanks ++ unit)) = (fraction, blanks ++ unit) :=
        spanDigits_append (isDigit_of_spells hfraction) fun c hc => (hrest c hc).1
      rw [splitDuration, spanDigits_append (isDigit_of_spells hdigits) (by simp)]
      simp only [hspan, htrim]
      rw [if_neg (by simpa using hdigits.1), if_neg (by simpa using hfraction.1)]
    · rw [Nat.ofDigitChars_append, Nat.ofDigitChars_eq_ofDigitChars_zero,
        ofDigitChars_of_spells hdigits, ofDigitChars_of_spells hfraction]
      push_cast
      field_simp

/-- The number in front of the unit is rounded once. -/
theorem exists_hasValue_value (d : DurationLiteral)
    (hv : v = Nat.ofDigitChars 10 (d.whole ++ d.fraction) 0 / 10 ^ d.fraction.length)
    (hlt : v < 2 ^ 53) : ∃ x, HasValue d.value x ∧ NearestTo v x := by
  unfold DurationLiteral.value Decimal.ofDigits
  generalize Nat.ofDigitChars 10 (d.whole ++ d.fraction) 0 = n at hv ⊢
  dsimp only
  by_cases hzero : n = 0
  · have hvalue : HasValue 0 0 := .zero rfl
    rw [if_pos (.inl hzero), hv, hzero, Nat.cast_zero, zero_div]
    exact ⟨0, hvalue, Binary64.nearestTo_self hvalue.isDouble⟩
  · -- a decimal with digits in front of the point is not so small as to be cut off
    have hpos : 0 < n := Nat.pos_of_ne_zero hzero
    have hsmall : v < 2 ^ (1023 : ℤ) := Binary64.lt_zpow_of_lt_pow hlt (by norm_num)
    have hmagnitude : ¬ (-(d.fraction.length : ℤ) + (d.whole ++ d.fraction).length < -400) := by
      rw [List.length_append]
      omega
    rw [if_neg (not_or.mpr ⟨hzero, hmagnitude⟩), if_neg (by omega), Int.natAbs_neg, Int.natAbs_natCast]
    refine IsRounding.of_lt ?_ hsmall
    rw [hv]
    by_cases hwhole : d.fraction.length = 0
    · rw [hwhole, pow_zero, div_one]
      exact Binary64.isRounding_ofNat hpos
    · rw [decide_eq_true (by omega)]
      exact Binary64.isRounding_ofScientific hpos _

end Literal

/-! ### Two roundings -/

section Error

variable {v x y : ℚ} {scale : ℕ} (hv : 0 ≤ v) (hscale : 1 ≤ scale ∧ scale ≤ 10 ^ 9)
  (hlt : v * scale < 2 ^ 53) (hx : NearestTo v x)
include hv hscale hlt hx

/-- The first rounding, seen from behind the product; it is less exact only far below 1. -/
theorem scaled_error :
    (2 ^ 53 + 1) * |v * scale - x * scale| ≤ v * scale ∨ v * scale < 1 ∧ x * scale ≤ 2 ^ (-1 : ℤ) := by
  have hone : (1 : ℚ) ≤ scale := by exact_mod_cast hscale.1
  have hscale' : (scale : ℚ) ≤ 10 ^ 9 := by exact_mod_cast hscale.2
  rcases le_or_gt (2 ^ (-1022 : ℤ)) v with hlarge | hsmall
  · left
    have hv53 : v < 2 ^ 53 := (le_mul_of_one_le_right hv hone).trans_lt hlt
    have herror := hx.error hlarge (Binary64.lt_zpow_of_lt_pow hv53 (by norm_num))
    rw [← sub_mul, abs_mul, abs_of_nonneg (by linarith : (0 : ℚ) ≤ scale), ← mul_assoc]
    exact mul_le_mul_of_nonneg_right herror (by linarith)
  · right
    have htiny : (2 : ℚ) ^ (-1022 : ℤ) * scale ≤ 2 ^ (-1 : ℤ) := by
      calc (2 : ℚ) ^ (-1022 : ℤ) * scale ≤ 2 ^ (-1022 : ℤ) * 2 ^ 30 :=
            mul_le_mul_of_nonneg_left (hscale'.trans (by norm_num)) (by positivity)
        _ = 2 ^ (-992 : ℤ) := by
            rw [← zpow_natCast, ← zpow_add₀ two_ne_zero]
            rfl
        _ ≤ 2 ^ (-1 : ℤ) := zpow_le_zpow_right₀ one_le_two (by norm_num)
    have hxsmall : x ≤ 2 ^ (-1022 : ℤ) :=
      hx.ge (Binary64.isDouble_two_zpow (by norm_num) (by norm_num)) hsmall.le
    constructor
    · calc v * scale ≤ 2 ^ (-1022 : ℤ) * scale := mul_le_mul_of_nonneg_right hsmall.le (by linarith)
        _ ≤ 2 ^ (-1 : ℤ) := htiny
        _ < 1 := by norm_num
    · exact (mul_le_mul_of_nonneg_right hxsmall (by linarith)).trans htiny

theorem scaled_lt : x * scale < 2 ^ 54 := by
  rcases scaled_error hv hscale hlt hx with herror | ⟨-, hsmall⟩
  · have hdist := neg_abs_le (v * scale - x * scale)
    linarith
  · exact hsmall.trans_lt (by norm_num)

/-- Both roundings together. -/
theorem abs_sub_le_of_nearest (hy : NearestTo (x * scale) y) :
    |y - v * scale| ≤ v * scale / 2 ^ 52 ∨ v * scale < 1 ∧ y < 1 := by
  have hhalf : x * scale ≤ 2 ^ (-1 : ℤ) → y < 1 := by
    intro hle
    have := hy.ge (Binary64.isDouble_two_zpow (by norm_num) (by norm_num)) hle
    norm_num at this
    linarith
  rcases scaled_error hv hscale hlt hx with herror | ⟨hone, hsmall⟩
  · rcases le_or_gt (2 ^ (-1022 : ℤ)) (x * scale) with hlarge | htiny
    · left
      have hagain := hy.error hlarge
        (Binary64.lt_zpow_of_lt_pow (scaled_lt hv hscale hlt hx) (by norm_num))
      have hlength : 0 ≤ v * scale := by positivity
      have hfirst := neg_abs_le (v * scale - x * scale)
      have htriangle := abs_sub_le y (x * scale) (v * scale)
      rw [abs_sub_comm y (x * scale), abs_sub_comm (x * scale) (v * scale)] at htriangle
      linarith
    · -- the second error is not relative to so small a product, but then all is far below 1
      right
      have hle : x * scale ≤ 2 ^ (-1 : ℤ) :=
        htiny.le.trans (zpow_le_zpow_right₀ one_le_two (by norm_num))
      refine ⟨?_, hhalf hle⟩
      have hdist := le_abs_self (v * scale - x * scale)
      norm_num at hle
      linarith
  · exact .inr ⟨hone, hhalf hsmall⟩

end Error

/-! ### Durations -/

theorem truncated_inj {token : List Char} {s t : ℚ} :
    truncated token s = truncated token t ↔ ⌊s⌋₊ = ⌊t⌋₊ := by
  constructor
  · unfold truncated
    generalize ⌊s⌋₊ = m
    generalize ⌊t⌋₊ = n
    intro h
    split at h
    · split at h
      · omega
      · cases h
    · split at h
      · cases h
      · exact Except.ok.inj h
  · intro h
    rw [truncated, truncated, h]

section Written

variable {token : List Char} {v : ℚ} {scale : ℕ}

theorem WrittenDuration.nonneg (h : WrittenDuration token v scale) : 0 ≤ v := by
  obtain ⟨d, -, -, rfl⟩ := exists_split h
  positivity

theorem WrittenDuration.scale_le (h : WrittenDuration token v scale) : 1 ≤ scale ∧ scale ≤ 10 ^ 9 := by
  obtain ⟨d, -, hunit, -⟩ := exists_split h
  exact hunit.scale_le

/-- The fraction is dropped of the nearest double to the product with the nearest double. -/
theorem parseDuration_eq_truncated (h : WrittenDuration token v scale) (hlt : v * scale < 2 ^ 53) :
    ∃ x y, NearestTo v x ∧ NearestTo (x * scale) y ∧ parseDuration token = truncated token y := by
  obtain ⟨d, hsplit, hunit, hv⟩ := exists_split h
  obtain ⟨f, hf, hscale⟩ := hasValue_unitScale hunit
  have hone : (1 : ℚ) ≤ scale := by exact_mod_cast h.scale_le.1
  obtain ⟨x, hvalue, hx⟩ :=
    exists_hasValue_value d hv ((le_mul_of_one_le_right h.nonneg hone).trans_lt hlt)
  have hsmall := scaled_lt h.nonneg h.scale_le hlt hx
  obtain ⟨y, hns, hy⟩ := (Binary64.isRounding_mul hvalue hscale hone).of_lt
    (Binary64.lt_zpow_of_lt_pow hsmall (by norm_num))
  have hword : y < 2 ^ 64 := by
    have hdouble : IsDouble (2 ^ (54 : ℤ)) := Binary64.isDouble_two_zpow (by norm_num) (by norm_num)
    have hle := hy.ge hdouble (by exact_mod_cast hsmall.le)
    norm_num at hle
    linarith
  refine ⟨x, y, hx, hy, ?_⟩
  have hnanoseconds : (splitDuration token).bind DurationLiteral.nanoseconds? = some (d.value * f) := by
    rw [hsplit, Option.bind_some, DurationLiteral.nanoseconds?, hf]
    rfl
  unfold parseDuration truncated
  simp only [hnanoseconds, hns.isFinite, hns.not_ge_maxWord hword, Binary64.toWord_eq_floor hns hword]
  rfl

/-- **Durations.**  A duration of less than `2 ^ 53` ns is read as the integer part of a double, which is
the exact length rounded twice, and it is refused if that is zero.  The result is the integer part of the
exact length if this is a whole number of the unit, and in general if neither of the two roundings reaches
a whole number of ns: the value and the length are doubles themselves, or the length keeps one part in
`2 ^ 52` of itself as a distance from the whole numbers around. -/
theorem parseDuration_written (h : WrittenDuration token v scale) (hlt : ⌊v * scale⌋₊ < 2 ^ 53) :
    ∃ x y : ℚ, NearestTo v x ∧ NearestTo (x * scale) y ∧ parseDuration token = truncated token y ∧
      (parseDuration token = truncated token (v * scale) ↔ ⌊y⌋₊ = ⌊v * scale⌋₊) ∧
      ((∃ n : ℕ, v = n) → parseDuration token = truncated token (v * scale)) ∧
      (IsDouble v → IsDouble (v * scale) → parseDuration token = truncated token (v * scale)) ∧
      (⌊v * scale⌋₊ ≤ v * scale - v * scale / 2 ^ 52 →
        v * scale + v * scale / 2 ^ 52 < ⌊v * scale⌋₊ + 1 →
        parseDuration token = truncated token (v * scale)) := by
  have hlength : v * scale < 2 ^ 53 := by
    have hlt := (Nat.floor_lt (mul_nonneg h.nonneg (Nat.cast_nonneg scale))).mp hlt
    exact_mod_cast hlt
  obtain ⟨x, y, hx, hy, hparse⟩ := parseDuration_eq_truncated h hlength
  have hdoubles : IsDouble v → IsDouble (v * scale) → ⌊y⌋₊ = ⌊v * scale⌋₊ := by
    intro hv hns
    rw [hx.eq_self hv] at hy
    rw [hy.eq_self hns]
  refine ⟨x, y, hx, hy, hparse, ?_, ?_, ?_, ?_⟩
  · rw [hparse, truncated_inj]
  · rintro ⟨n, rfl⟩
    rw [hparse, truncated_inj]
    have hns : n * scale < 2 ^ 53 := by exact_mod_cast hlength
    have hn : n ≤ n * scale := Nat.le_mul_of_pos_right n h.scale_le.1
    refine hdoubles (Binary64.isDouble_natCast (by omega)) ?_
    exact_mod_cast Binary64.isDouble_natCast hns.le
  · intro hv hns
    rw [hparse, truncated_inj, hdoubles hv hns]
  · intro hbelow habove
    rw [hparse, truncated_inj]
    rcases abs_sub_le_of_nearest h.nonneg h.scale_le hlength hx hy with herror | ⟨hone, hyone⟩
    · obtain ⟨hlower, hupper⟩ := abs_le.mp herror
      have hy0 : 0 ≤ y := by
        have := Nat.cast_nonneg (α := ℚ) ⌊v * scale⌋₊
        linarith
      rw [Nat.floor_eq_iff hy0]
      exact ⟨by linarith, by linarith⟩
    · rw [Nat.floor_eq_zero.mpr hyone, Nat.floor_eq_zero.mpr hone]

theorem parseDuration_written_fraction :
    WrittenDuration ['1', '.', '5', 'u', 's'] (1 + 5 / 10 ^ 1) (10 ^ 3) ∧
      parseDuration ['1', '.', '5', 'u', 's'] =
        truncated ['1', '.', '5', 'u', 's'] ((1 + 5 / 10 ^ 1) * (10 ^ 3 : ℕ)) := by
  have hwritten : WrittenDuration ['1', '.', '5', 'u', 's'] (1 + 5 / 10 ^ 1) (10 ^ 3) := by
    have hwhole : Text.Spells 10 ['1'] 1 := spells_digits [1] (by simp) (by simp)
    have hfraction : Text.Spells 10 ['5'] 5 := spells_digits [5] (by simp) (by simp)
    have h := WrittenDuration.decimal hwhole hfraction (List.forall_mem_nil _) .microseconds
    simpa using h
  obtain ⟨x, y, -, -, -, -, -, hdoubles, -⟩ := parseDuration_written hwritten (by norm_num)
  refine ⟨hwritten, hdoubles ?_ ?_⟩
  · exact ⟨3, -1, by norm_num, by norm_num, by norm_num, by norm_num⟩
  · exact ⟨1500, 0, by norm_num, by norm_num, by norm_num, by norm_num⟩

/-- A microsecond and a nanosecond, as a decimal: the double next to it is below, and the nanosecond is
lost. -/
theorem parseDuration_below_whole :
    ¬ ∀ (token : List Char) (v : ℚ) (scale : ℕ), WrittenDuration token v scale →
      ⌊v * scale⌋₊ < 2 ^ 53 → parseDuration token = truncated token (v * scale) := by
  intro hall
  have hwritten : WrittenDuration ['1', '.', '0', '0', '1', 'u', 's'] (1 + 1 / 10 ^ 3) (10 ^ 3) := by
    have hwhole : Text.Spells 10 ['1'] 1 := spells_digits [1] (by simp) (by simp)
    have hfraction : Text.Spells 10 ['0', '0', '1'] 1 := spells_digits [0, 0, 1] (by simp) (by simp)
    have h := WrittenDuration.decimal hwhole hfraction (List.forall_mem_nil _) .microseconds
    simpa using h
  have hcode : parseDuration ['1', '.', '0', '0', '1', 'u', 's'] = .ok 1000 := by rfl
  have hexact : ⌊((1 + 1 / 10 ^ 3 : ℚ) * (10 ^ 3 : ℕ))⌋₊ = 1001 := by norm_num
  have hread := hall _ _ _ hwritten (by rw [hexact]; norm_num)
  rw [hcode, truncated, hexact] at hread
  cases hread

end Written

end PulseSequencer.Assembly
