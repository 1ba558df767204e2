import PulseSequencer.Text.Numeral
import PulseSequencer.Proofs.Stages

/-!
# Numerals read back

Reading undoes writing: a number written in decimal or in upper-case hexadecimal, with zeros in front or
not, is read as itself, as long as it fits the word.

* `readDigitsFrom_toDigits`: digit by digit, in any base and with any spelling of the digits.
* `readWord_hexDigits`, `readInt_repr`: hexadecimal words and decimal integers.
* `intRepr_eq_natRepr_iff`: an integer and a natural number are written alike only if they are equal.
-/

namespace PulseSequencer.Text

/-! ### Digits -/

theorem readDigitsFrom_append (base limit acc : Nat) (xs ys : List Char) :
    readDigitsFrom base limit acc (xs ++ ys) =
      readDigitsFrom base limit acc xs >>= fun value => readDigitsFrom base limit value ys := by
  induction xs generalizing acc with
  | nil => rfl
  | cons c xs ih =>
    rw [List.cons_append, readDigitsFrom, readDigitsFrom]
    split
    · rfl
    · simp only
      split
      · exact ih _
      · rfl

theorem readDigitsFrom_digit {base limit acc d : Nat} {c : Char} (hc : digitValue? base c = some d)
    (hlimit : acc * base + d < limit) : readDigitsFrom base limit acc [c] = .ok (acc * base + d) := by
  simp only [readDigitsFrom, hc, if_pos hlimit]

/-- A number is read off its digits, however these are spelled. -/
theorem readDigitsFrom_toDigits {base limit : Nat} (hbase : 1 < base) {f : Char → Char}
    (hf : ∀ d < base, digitValue? base (f d.digitChar) = some d) {n : Nat} (h : n < limit) :
    readDigitsFrom base limit 0 ((Nat.toDigits base n).map f) = .ok n := by
  -- the last digit is the remainder, and the digits before it are those of the quotient
  induction n using Nat.strongRecOn with
  | ind n ih =>
    by_cases hn : n < base
    · rw [Nat.toDigits_of_lt_base hn, List.map_singleton, readDigitsFrom_digit (hf n hn) (by omega)]
      simp
    · have hquotient : n / base < n := Nat.div_lt_self (by omega) hbase
      have hsplit : n / base * base + n % base = n := Nat.div_add_mod' n base
      rw [Nat.toDigits_of_base_le hbase (by omega), List.map_append, readDigitsFrom_append,
        ih (n / base) hquotient (by omega), List.map_singleton]
      show readDigitsFrom base limit (n / base) [f (n % base).digitChar] = _
      rw [readDigitsFrom_digit (hf _ (Nat.mod_lt _ (by omega))) (by omega), hsplit]

theorem readDigitsFrom_zeros {base limit : Nat} (hbase : 1 < base) (hlimit : 0 < limit) (k : Nat)
    (cs : List Char) :
    readDigitsFrom base limit 0 (List.replicate k '0' ++ cs) = readDigitsFrom base limit 0 cs := by
  have hzero : digitValue? base '0' = some 0 := by
    show (some 0).filter (· < base) = some 0
    simp
    omega
  induction k with
  | zero => rfl
  | succ k ih =>
    rw [List.replicate_succ, List.cons_append, readDigitsFrom, hzero]
    simp only [Nat.zero_mul, Nat.zero_add, if_pos hlimit]
    exact ih

/-! ### Hexadecimal words -/

theorem digitValue?_toUpper {d : Nat} (h : d < 16) :
    digitValue? 16 d.digitChar.toUpper = some d := by
  revert d
  decide

theorem exists_digitChar_of_mem_toDigits {base n : Nat} (hbase : 1 < base) {c : Char}
    (hc : c ∈ Nat.toDigits base n) : ∃ d < base, c = d.digitChar := by
  induction n using Nat.strongRecOn with
  | ind n ih =>
    by_cases hn : n < base
    · rw [Nat.toDigits_of_lt_base hn] at hc
      exact ⟨n, hn, List.mem_singleton.mp hc⟩
    · rw [Nat.toDigits_of_base_le hbase (by omega)] at hc
      rcases List.mem_append.mp hc with hc | hc
      · exact ih (n / base) (Nat.div_lt_self (by omega) hbase) hc
      · exact ⟨n % base, Nat.mod_lt _ (by omega), List.mem_singleton.mp hc⟩

theorem exists_digit_of_mem_hexDigits {width n : Nat} {c : Char} (hc : c ∈ hexDigits width n) :
    ∃ d < 16, c = d.digitChar.toUpper := by
  unfold hexDigits List.leftpad at hc
  rcases List.mem_append.mp hc with hc | hc
  · exact ⟨0, by decide, (List.mem_replicate.mp hc).2⟩
  · obtain ⟨c', hc', rfl⟩ := List.mem_map.mp hc
    obtain ⟨d, hd, rfl⟩ := exists_digitChar_of_mem_toDigits (by decide) hc'
    exact ⟨d, hd, rfl⟩

theorem hexDigits_ne_nil (width n : Nat) : hexDigits width n ≠ [] := by
  unfold hexDigits List.leftpad
  simp [Nat.toDigits_ne_nil]

theorem readDigitRun_of_ne_nil {base limit : Nat} {cs : List Char} (hne : cs ≠ []) :
    readDigitRun base limit cs = readDigitsFrom base limit 0 cs := by
  cases cs with
  | nil => exact absurd rfl hne
  | cons c cs => rfl

theorem readWord_of_digits {base : Nat} {cs : List Char} (hne : cs ≠ [])
    (hplus : ∀ c ∈ cs, c ≠ '+') : readWord base cs = readDigitsFrom base wordLimit 0 cs := by
  unfold readWord
  split
  · exact absurd rfl hne
  · exact absurd rfl (hplus '+' List.mem_cons_self)
  · exact readDigitRun_of_ne_nil hne

theorem readWord_hexDigits (width : Nat) {n : Nat} (h : n < wordLimit) :
    readWord 16 (hexDigits width n) = .ok n := by
  rw [readWord_of_digits (hexDigits_ne_nil width n)]
  · unfold hexDigits List.leftpad
    rw [readDigitsFrom_zeros (by decide) (by decide),
      readDigitsFrom_toDigits (by decide) (fun d hd => digitValue?_toUpper hd) h]
  · intro c hc
    obtain ⟨d, hd, rfl⟩ := exists_digit_of_mem_hexDigits hc
    clear hc
    revert d
    decide

/-! ### Decimal integers -/

theorem digitValue?_digitChar {d : Nat} (h : d < 10) : digitValue? 10 d.digitChar = some d := by
  revert d
  decide

theorem readDigitRun_toDigits {limit n : Nat} (h : n < limit) :
    readDigitRun 10 limit (Nat.toDigits 10 n) = .ok n := by
  rw [readDigitRun_of_ne_nil Nat.toDigits_ne_nil, ← List.map_id (Nat.toDigits 10 n)]
  exact readDigitsFrom_toDigits (by decide) (fun d hd => digitValue?_digitChar hd) h

theorem ne_of_mem_toDigits {n : Nat} {c sign : Char} (hsign : sign.isDigit = false)
    (hc : c ∈ Nat.toDigits 10 n) : c ≠ sign := by
  rintro rfl
  rw [Nat.isDigit_of_mem_toDigits (by decide) (by decide) hc] at hsign
  cases hsign

theorem readInt_of_digits {cs : List Char} (hne : cs ≠ []) (hminus : ∀ c ∈ cs, c ≠ '-')
    (hplus : ∀ c ∈ cs, c ≠ '+') : readInt cs = (readDigitRun 10 intLimit cs).map Int.ofNat := by
  unfold readInt
  split
  · exact absurd rfl hne
  · exact absurd rfl (hminus '-' List.mem_cons_self)
  · exact absurd rfl (hplus '+' List.mem_cons_self)
  · rfl

/-- An integer that fits a signed word is read off its decimal text. -/
theorem readInt_repr {z : Int} (hlow : -(intLimit : Int) ≤ z) (hhigh : z < intLimit) :
    readInt z.repr.toList = .ok z := by
  cases z with
  | ofNat n =>
    rw [Int.ofNat_eq_natCast] at hhigh
    rw [Int.repr, Nat.toList_repr, readInt_of_digits Nat.toDigits_ne_nil
      (fun c => ne_of_mem_toDigits (by decide)) (fun c => ne_of_mem_toDigits (by decide)),
      readDigitRun_toDigits (by omega)]
    rfl
  | negSucc n =>
    have hlist : (Int.negSucc n).repr.toList = '-' :: Nat.toDigits 10 (n + 1) := by
      rw [Int.repr, String.toList_append, Nat.toList_repr]
      rfl
    rw [hlist, readInt, readDigitRun_toDigits (by omega)]
    rfl

theorem natRepr_inj {a b : Nat} : a.repr = b.repr ↔ a = b := by
  refine ⟨fun h => ?_, congrArg Nat.repr⟩
  have hdigits : Nat.toDigits 10 a = Nat.toDigits 10 b := by
    rw [← Nat.toList_repr, ← Nat.toList_repr, h]
  rw [← @Nat.ofDigitChars_ten_toDigits a, hdigits, Nat.ofDigitChars_ten_toDigits]

theorem intRepr_eq_natRepr_iff {z : Int} {a : Nat} : z.repr = a.repr ↔ z = a := by
  cases z with
  | ofNat n =>
    rw [Int.repr, natRepr_inj]
    exact Int.ofNat_inj.symm
  | negSucc n =>
    constructor
    · intro h
      -- no digit is a minus
      have hminus : '-' ∈ a.repr.toList := by
        rw [← h, Int.repr, String.toList_append]
        simp
      rw [Nat.toList_repr] at hminus
      exact absurd rfl (ne_of_mem_toDigits (by decide) hminus)
    · intro h
      cases h

end PulseSequencer.Text
