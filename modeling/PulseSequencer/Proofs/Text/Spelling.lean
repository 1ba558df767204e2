import PulseSequencer.Proofs.Text.Numeral
import Mathlib.Data.Nat.Digits.Lemmas

/-!
# What numerals spell

A numeral is a run of digits, and it stands for the sum of their values, each by its position.  No size
of a word comes into this.  Readers go digit by digit and stop where a word is left; they accept exactly
the numerals whose number fits, since no front part of a numeral stands for more than the whole.

* `IsDigit`, `Spells`, `SpellsInt`: digits, numerals and signed decimal numerals.
* `readDigitsFrom_eq_ok_iff`: the reader of digits, after any value.
* `readWord_eq_ok_iff`, `readInt_eq_ok_iff`: the readers of words and of integers.
-/

namespace PulseSequencer.Text

/-- The character is the digit of value `d`, in either case. -/
def IsDigit (base : Nat) (c : Char) (d : Nat) : Prop :=
  d < base ∧ (c = d.digitChar ∨ c = d.digitChar.toUpper)

/-- The text is a nonempty run of digits, the leading one first, that stands for `n`. -/
def Spells (base : Nat) (cs : List Char) (n : Nat) : Prop :=
  cs ≠ [] ∧ ∃ ds, List.Forall₂ (IsDigit base) cs ds ∧ Nat.ofDigits base ds.reverse = n

/-- The text is a decimal numeral, with a sign in front or not, that stands for `z`. -/
inductive SpellsInt : List Char → Int → Prop
  | plain {cs : List Char} {n : Nat} (h : Spells 10 cs n) : SpellsInt cs n
  | plus {cs : List Char} {n : Nat} (h : Spells 10 cs n) : SpellsInt ('+' :: cs) n
  | minus {cs : List Char} {n : Nat} (h : Spells 10 cs n) : SpellsInt ('-' :: cs) (-n)

/-! ### Digits -/

section Digits

variable {base : Nat} {c : Char} {d : Nat}

/-- A digit of a base is a hexadecimal one of a value below the base. -/
theorem digitValue?_eq_some_iff_lt (hbase : base ≤ 16) :
    digitValue? base c = some d ↔ digitValue? 16 c = some d ∧ d < base := by
  simp only [digitValue?, Option.filter_eq_some_iff, decide_eq_true_eq]
  constructor
  · rintro ⟨hvalue, hd⟩
    exact ⟨⟨hvalue, by omega⟩, hd⟩
  · rintro ⟨⟨hvalue, -⟩, hd⟩
    exact ⟨hvalue, hd⟩

theorem lt_of_digitValue? (h : digitValue? base c = some d) : c.toNat < 128 := by
  obtain ⟨hvalue, -⟩ := Option.filter_eq_some_iff.mp h
  split at hvalue
  · next hrange =>
    have : c.toNat ≤ 57 := hrange.2
    omega
  · split at hvalue
    · next hrange =>
      have : c.toNat ≤ 122 := hrange.2
      omega
    · split at hvalue
      · next hrange =>
        have : c.toNat ≤ 90 := hrange.2
        omega
      · cases hvalue

theorem digitValue?_eq_some_iff (hbase : base ≤ 16) :
    digitValue? base c = some d ↔ IsDigit base c d := by
  rw [digitValue?_eq_some_iff_lt hbase]
  constructor
  · rintro ⟨hvalue, hd⟩
    refine ⟨hd, ?_⟩
    -- the digits are among the first characters, and these are gone through
    have htable : ∀ n < 128, ∀ d ∈ digitValue? 16 (Char.ofNat n),
        Char.ofNat n = d.digitChar ∨ Char.ofNat n = d.digitChar.toUpper := by decide
    have hchar := htable c.toNat (lt_of_digitValue? hvalue)
    rw [Char.ofNat_toNat] at hchar
    exact hchar d hvalue
  · rintro ⟨hd, hc⟩
    have htable : ∀ d < 16, digitValue? 16 d.digitChar = some d := by decide
    refine ⟨?_, hd⟩
    rcases hc with rfl | rfl
    · exact htable d (by omega)
    · exact digitValue?_toUpper (by omega)

/-- A sign is no digit. -/
theorem not_isDigit_sign (hbase : base ≤ 16) (hc : c = '+' ∨ c = '-') : ¬ IsDigit base c d := by
  rw [← digitValue?_eq_some_iff hbase, digitValue?_eq_some_iff_lt hbase]
  rcases hc with rfl | rfl
  · exact fun h => nomatch h.1
  · exact fun h => nomatch h.1

end Digits

/-! ### Runs of digits -/

section Runs

variable {base limit acc n : Nat} {cs : List Char}

theorem le_foldl_digits (hbase : 0 < base) (acc : Nat) (ds : List Nat) :
    acc ≤ ds.foldl (fun a d => a * base + d) acc := by
  induction ds generalizing acc with
  | nil => exact Nat.le_refl acc
  | cons d ds ih =>
    calc acc ≤ acc * base := Nat.le_mul_of_pos_right acc hbase
      _ ≤ acc * base + d := Nat.le_add_right _ _
      _ ≤ ds.foldl (fun a d => a * base + d) (acc * base + d) := ih _

theorem foldl_digits_eq_ofDigits (base : Nat) (ds : List Nat) :
    ds.foldl (fun a d => a * base + d) 0 = Nat.ofDigits base ds.reverse := by
  rw [Nat.ofDigits_eq_foldr, List.foldr_reverse]
  simp only [Nat.cast_id, Nat.mul_comm, Nat.add_comm]

/-- Digits are read after a value if the number of all of them together fits. -/
theorem readDigitsFrom_eq_ok_iff (hpos : 0 < base) (hbase : base ≤ 16) (hacc : acc < limit) :
    readDigitsFrom base limit acc cs = .ok n ↔ ∃ ds, List.Forall₂ (IsDigit base) cs ds ∧
      ds.foldl (fun a d => a * base + d) acc = n ∧ n < limit := by
  induction cs generalizing acc with
  | nil =>
    simp only [readDigitsFrom, Except.ok.injEq, List.forall₂_nil_left_iff, exists_eq_left,
      List.foldl_nil]
    constructor
    · rintro rfl
      exact ⟨rfl, hacc⟩
    · exact fun h => h.1
  | cons c cs ih =>
    simp only [List.forall₂_cons_left_iff]
    cases hc : digitValue? base c with
    | none =>
      simp only [readDigitsFrom, hc, reduceCtorEq, false_iff]
      rintro ⟨-, ⟨d, ds, hd, -, -⟩, -⟩
      rw [← digitValue?_eq_some_iff hbase, hc] at hd
      cases hd
    | some d =>
      have hdigit : ∀ d', IsDigit base c d' ↔ d' = d := by
        intro d'
        rw [← digitValue?_eq_some_iff hbase, hc, Option.some_inj, eq_comm]
      simp only [readDigitsFrom, hc]
      by_cases hlimit : acc * base + d < limit
      · rw [if_pos hlimit, ih hlimit]
        constructor
        · rintro ⟨ds, hds, hfold⟩
          exact ⟨d :: ds, ⟨d, ds, (hdigit d).mpr rfl, hds, rfl⟩, hfold⟩
        · rintro ⟨-, ⟨d', ds, hd', hds, rfl⟩, hfold⟩
          rw [hdigit] at hd'
          subst hd'
          exact ⟨ds, hds, hfold⟩
      · -- the digits behind do not make the number smaller
        rw [if_neg hlimit]
        simp only [reduceCtorEq, false_iff]
        rintro ⟨-, ⟨d', ds, hd', -, rfl⟩, rfl, hlt⟩
        rw [hdigit] at hd'
        subst hd'
        rw [List.foldl_cons] at hlt
        have := le_foldl_digits hpos (acc * base + d') ds
        omega

theorem readDigitRun_eq_ok_iff (hpos : 0 < base) (hbase : base ≤ 16) (hlimit : 0 < limit) :
    readDigitRun base limit cs = .ok n ↔ Spells base cs n ∧ n < limit := by
  by_cases hne : cs = []
  · subst hne
    simp [readDigitRun, Spells]
  · rw [readDigitRun_of_ne_nil hne, readDigitsFrom_eq_ok_iff hpos hbase hlimit]
    simp only [foldl_digits_eq_ofDigits, Spells, hne, ne_eq, not_false_eq_true, true_and]
    constructor
    · rintro ⟨ds, hds, hvalue, hlt⟩
      exact ⟨⟨ds, hds, hvalue⟩, hlt⟩
    · rintro ⟨⟨ds, hds, hvalue⟩, hlt⟩
      exact ⟨ds, hds, hvalue, hlt⟩

theorem not_spells_sign (hbase : base ≤ 16) {c : Char} (hc : c = '+' ∨ c = '-') :
    ¬ Spells base (c :: cs) n := by
  rintro ⟨-, ds, hds, -⟩
  obtain ⟨d, ds, hd, -, -⟩ := List.forall₂_cons_left_iff.mp hds
  exact not_isDigit_sign hbase hc hd

end Runs

/-! ### Words and integers -/

/-- What stands behind a plus, if the text begins with one. -/
def dropPlus : List Char → List Char
  | '+' :: cs => cs
  | cs => cs

theorem dropPlus_of_head {cs : List Char} (h : cs.head? ≠ some '+') : dropPlus cs = cs := by
  unfold dropPlus
  split
  · exact absurd rfl h
  · rfl

/-- A word is read off its numeral, in front of which a plus may stand. -/
theorem readWord_eq_ok_iff {base n : Nat} {cs : List Char} (hpos : 0 < base) (hbase : base ≤ 16) :
    readWord base cs = .ok n ↔ Spells base (dropPlus cs) n ∧ n < wordLimit := by
  have hlimit : 0 < wordLimit := by decide
  unfold readWord
  split
  · simp [dropPlus, Spells]
  · exact readDigitRun_eq_ok_iff hpos hbase hlimit
  · next hplus =>
    rw [dropPlus_of_head]
    · exact readDigitRun_eq_ok_iff hpos hbase hlimit
    · intro hhead
      obtain ⟨digits, hcs⟩ := List.head?_eq_some_iff.mp hhead
      exact hplus digits hcs

/-- The digits of an integer, with what is done to their number. -/
theorem map_readDigitRun_eq_ok_iff {limit : Nat} (hlimit : 0 < limit) {cs : List Char} {f : Nat → Int}
    {z : Int} :
    (readDigitRun 10 limit cs).map f = .ok z ↔ ∃ n, Spells 10 cs n ∧ n < limit ∧ f n = z := by
  simp only [map_eq_ok_iff, readDigitRun_eq_ok_iff (by decide : 0 < 10) (by decide) hlimit, and_assoc]

theorem readInt_minus (cs : List Char) :
    readInt ('-' :: cs) = (readDigitRun 10 (intLimit + 1) cs).map fun n : Nat => -(n : Int) := by
  rw [readInt]
  cases readDigitRun 10 (intLimit + 1) cs <;> rfl

/-- An integer is read off its numeral if it fits a signed word. -/
theorem readInt_eq_ok_iff {cs : List Char} {z : Int} :
    readInt cs = .ok z ↔ SpellsInt cs z ∧ -2 ^ 63 ≤ z ∧ z < 2 ^ 63 := by
  have hpos : 0 < intLimit := by decide
  have hvalue : (intLimit : Int) = 2 ^ 63 := by decide
  have hten : 10 ≤ 16 := by decide
  constructor
  · intro h
    unfold readInt at h
    split at h
    · cases h
    · next digits =>
      have hminus := (readInt_minus digits).symm.trans h
      obtain ⟨n, hspells, hlt, rfl⟩ := (map_readDigitRun_eq_ok_iff (Nat.succ_pos _)).mp hminus
      exact ⟨.minus hspells, by omega, by omega⟩
    · obtain ⟨n, hspells, hlt, rfl⟩ := (map_readDigitRun_eq_ok_iff hpos).mp h
      rw [Int.ofNat_eq_natCast]
      exact ⟨.plus hspells, by omega, by omega⟩
    · obtain ⟨n, hspells, hlt, rfl⟩ := (map_readDigitRun_eq_ok_iff hpos).mp h
      rw [Int.ofNat_eq_natCast]
      exact ⟨.plain hspells, by omega, by omega⟩
  · rintro ⟨h, hlow, hhigh⟩
    cases h with
    | @plain _ n h =>
      have hsign : ∀ c digits, (c = '+' ∨ c = '-') → cs ≠ c :: digits := by
        rintro c digits hc rfl
        exact not_spells_sign hten hc h
      unfold readInt
      split
      · exact absurd rfl h.1
      · exact absurd rfl (hsign _ _ (.inr rfl))
      · exact absurd rfl (hsign _ _ (.inl rfl))
      · exact (map_readDigitRun_eq_ok_iff hpos).mpr ⟨n, h, by omega, rfl⟩
    | @plus digits n h => exact (map_readDigitRun_eq_ok_iff hpos).mpr ⟨n, h, by omega, rfl⟩
    | @minus digits n h =>
      rw [readInt_minus]
      exact (map_readDigitRun_eq_ok_iff (Nat.succ_pos _)).mpr ⟨n, h, by omega, rfl⟩

end PulseSequencer.Text
