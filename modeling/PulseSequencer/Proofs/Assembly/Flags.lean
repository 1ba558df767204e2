import PulseSequencer.Proofs.Assembly.Reading
import PulseSequencer.Proofs.Compiler.Width
import PulseSequencer.Proofs.Text.Spelling

/-!
# Which flags are read

Flags are a literal: `0x` or `0b`, in either case of the letter, and digits of that base.  The digits are
left to the reader of words, which lets a plus stand in front of them; so a literal is also read with a
plus behind its base, and with nothing else.

* `FlagLiteral`: the literals, with the numbers they stand for.
* `splitBase_eq_some_iff`, `parseFlags_eq_ok_iff`: the base, and the whole token.
* `parseLinesFrom_of_hasFlags`: a token that is not read ends the text at its line.
* `parseFlags_literal`: together; `parseFlags_plus` is a token that is no literal.
-/

namespace PulseSequencer.Assembly

/-- Flags as they are written, with their number: hexadecimal digits behind `0x`, or binary ones behind
`0b`. -/
inductive FlagLiteral : List Char → Nat → Prop
  | hex {letter : Char} {digits : List Char} {n : Nat} (hletter : letter = 'x' ∨ letter = 'X')
      (hdigits : Text.Spells 16 digits n) : FlagLiteral ('0' :: letter :: digits) n
  | binary {letter : Char} {digits : List Char} {n : Nat} (hletter : letter = 'b' ∨ letter = 'B')
      (hdigits : Text.Spells 2 digits n) : FlagLiteral ('0' :: letter :: digits) n

/-- The token without a plus behind its base. -/
def withoutPlus : List Char → List Char
  | zero :: letter :: digits => zero :: letter :: Text.dropPlus digits
  | token => token

theorem withoutPlus_of_third {token : List Char} (h : token[2]? ≠ some '+') :
    withoutPlus token = token := by
  unfold withoutPlus
  split
  · next zero letter digits =>
    have hhead : digits.head? ≠ some '+' := by simpa [List.head?_eq_getElem?] using h
    rw [Text.dropPlus_of_head hhead]
  · rfl

/-! ### One token -/

theorem splitBase_eq_some_iff {token digits : List Char} {base : Nat} :
    splitBase token = some (base, digits) ↔ ∃ letter, token = '0' :: letter :: digits ∧
      ((letter = 'x' ∨ letter = 'X') ∧ base = 16 ∨ (letter = 'b' ∨ letter = 'B') ∧ base = 2) := by
  unfold splitBase
  split
  · next zero letter rest =>
    simp only [Option.map_eq_some_iff, Prod.mk.injEq, List.cons.injEq]
    unfold base?
    constructor
    · rintro ⟨base, hbase, rfl, rfl⟩
      split at hbase
      · next h => exact ⟨letter, ⟨h.1, rfl, rfl⟩, .inl ⟨h.2, (Option.some.inj hbase).symm⟩⟩
      · split at hbase
        · next h => exact ⟨letter, ⟨h.1, rfl, rfl⟩, .inr ⟨h.2, (Option.some.inj hbase).symm⟩⟩
        · cases hbase
    · rintro ⟨_, ⟨rfl, rfl, rfl⟩, ⟨hletter, rfl⟩ | ⟨hletter, rfl⟩⟩
      · exact ⟨16, by rw [if_pos ⟨rfl, hletter⟩], rfl, rfl⟩
      · have hhex : ¬ (letter = 'x' ∨ letter = 'X') := by
          rcases hletter with rfl | rfl <;> decide
        exact ⟨2, by rw [if_neg fun h => hhex h.2, if_pos ⟨rfl, hletter⟩], rfl, rfl⟩
  · next hshort =>
    constructor
    · nofun
    · rintro ⟨letter, rfl, -⟩
      exact absurd rfl (hshort _ _ _)

/-- What stands behind the base is digits of that base, with a plus in front or not. -/
theorem flagLiteral_withoutPlus_iff {token : List Char} {n : Nat} :
    FlagLiteral (withoutPlus token) n ↔
      ∃ base digits, splitBase token = some (base, digits) ∧
        Text.Spells base (Text.dropPlus digits) n := by
  simp only [splitBase_eq_some_iff]
  constructor
  · intro h
    unfold withoutPlus at h
    split at h
    · next zero letter digits =>
      cases h with
      | hex hletter hdigits =>
        exact ⟨16, digits, ⟨letter, rfl, .inl ⟨hletter, rfl⟩⟩, hdigits⟩
      | binary hletter hdigits =>
        exact ⟨2, digits, ⟨letter, rfl, .inr ⟨hletter, rfl⟩⟩, hdigits⟩
    · next hshort =>
      cases h with
      | hex => exact absurd rfl (hshort _ _ _)
      | binary => exact absurd rfl (hshort _ _ _)
  · rintro ⟨base, digits, ⟨letter, rfl, ⟨hletter, rfl⟩ | ⟨hletter, rfl⟩⟩, hdigits⟩
    · exact .hex hletter hdigits
    · exact .binary hletter hdigits

/-- A token is read if it is a literal, a plus behind its base apart, of a number within the channels. -/
theorem parseFlags_eq_ok_iff {channels : Nat} {token : List Char} {flags : FlagWord} :
    parseFlags channels token = .ok flags ↔
      FlagLiteral (withoutPlus token) flags.toNat ∧ flags.toNat < 2 ^ channels := by
  rw [flagLiteral_withoutPlus_iff, ← FlagWord.fits_iff_lt]
  unfold parseFlags
  cases hbase : splitBase token with
  | none => simp
  | some found =>
    obtain ⟨base, digits⟩ := found
    have hrange : 0 < base ∧ base ≤ 16 := by
      obtain ⟨-, -, ⟨-, rfl⟩ | ⟨-, rfl⟩⟩ := splitBase_eq_some_iff.mp hbase <;> decide
    have hread : ∀ n, Text.readWord base digits = .ok n ↔
        Text.Spells base (Text.dropPlus digits) n ∧ n < wordLimit := fun n =>
      Text.readWord_eq_ok_iff hrange.1 hrange.2
    constructor
    · intro h
      cases hword : Text.readWord base digits with
      | error fault =>
        simp only [hword] at h
        cases h
      | ok n =>
        obtain ⟨hspells, hlt⟩ := (hread n).mp hword
        simp only [hword] at h
        split at h
        · next hfits =>
          cases h
          have hvalue : (BitVec.ofNat 64 n).toNat = n := Nat.mod_eq_of_lt hlt
          exact ⟨⟨base, digits, rfl, by rwa [hvalue]⟩, hfits⟩
        · cases h
    · rintro ⟨⟨base', digits', heq, hspells⟩, hfits⟩
      cases heq
      simp only [(hread flags.toNat).mpr ⟨hspells, flags.isLt⟩, BitVec.ofNat_toNat,
        BitVec.setWidth_eq, hfits, if_true]

/-! ### The token in its line -/

/-- The line has the token in the place of its flags. -/
def Statement.HasFlags (st : Statement) (token : List Char) : Prop :=
  ∃ first duration more label,
    (Text.fields ',' st.text).map Text.trim = first :: duration :: more ∧ more.length ≤ 2 ∧
      splitLabel first = .ok (label, token)

/-- Flags that are not read end the text, whatever was read before and stands behind. -/
theorem parseLinesFrom_of_hasFlags {channels : Nat} {st : Statement} {token : List Char}
    {fault : ParseFault} (hst : st.HasFlags token) (hflags : parseFlags channels token = .error fault)
    (seen : List Line) (rest : List Statement) :
    parseLinesFrom channels seen (st :: rest) = .error (.parse st.line fault) := by
  obtain ⟨first, duration, more, label, hfields, hmore, hlabel⟩ := hst
  apply parseLinesFrom_malformed
  rw [parseStatement_of_fields hfields hmore, parseFields, hlabel]
  refine bind_eq_error_iff.mpr (.inr ⟨(label, token), rfl, ?_⟩)
  exact bind_eq_error_iff.mpr (.inl hflags)

/-- **Which flags are read.**  For any number of channels, a token with no plus behind its base is read
as flags exactly if it is a literal, `0x` or `0X` and hexadecimal digits or `0b` or `0B` and binary
ones, whose number is below two to the number of channels; and then as that number.  A plus behind the
base is passed over.  Every other token is refused, and the error is at the line that has it. -/
theorem parseFlags_literal (channels : Nat) (token : List Char) :
    (token[2]? ≠ some '+' → ∀ flags : FlagWord, parseFlags channels token = .ok flags ↔
      FlagLiteral token flags.toNat ∧ flags.toNat < 2 ^ channels) ∧
    (∀ (zero letter : Char) (digits : List Char), token = zero :: letter :: '+' :: digits →
      ∀ flags : FlagWord, parseFlags channels token = .ok flags ↔
        FlagLiteral (zero :: letter :: digits) flags.toNat ∧ flags.toNat < 2 ^ channels) ∧
    ((∀ n, FlagLiteral (withoutPlus token) n → 2 ^ channels ≤ n) → ∃ fault,
      parseFlags channels token = .error fault ∧
      ∀ (st : Statement) (seen : List Line) (rest : List Statement), st.HasFlags token →
        parseLinesFrom channels seen (st :: rest) = .error (.parse st.line fault)) := by
  refine ⟨fun hplus flags => ?_, ?_, fun hnone => ?_⟩
  · rw [parseFlags_eq_ok_iff, withoutPlus_of_third hplus]
  · rintro zero letter digits rfl flags
    exact parseFlags_eq_ok_iff
  · cases hflags : parseFlags channels token with
    | ok flags =>
      obtain ⟨hliteral, hlt⟩ := parseFlags_eq_ok_iff.mp hflags
      exact absurd hlt (Nat.not_lt.mpr (hnone _ hliteral))
    | error fault =>
      exact ⟨fault, rfl, fun st seen rest hst => parseLinesFrom_of_hasFlags hst hflags seen rest⟩

/-- A token that is no literal and is read. -/
theorem parseFlags_plus :
    parseFlags 24 "0x+1".toList = .ok 1 ∧ ∀ n, ¬ FlagLiteral "0x+1".toList n := by
  refine ⟨rfl, fun n h => ?_⟩
  have hsign : ∀ base ≤ 16, ¬ Text.Spells base ['+', '1'] n := fun base hbase =>
    Text.not_spells_sign hbase (.inl rfl)
  cases h with
  | hex _ hdigits => exact hsign 16 (by decide) hdigits
  | binary _ hdigits => exact hsign 2 (by decide) hdigits

end PulseSequencer.Assembly
