import PulseSequencer.Assembly.Line
import PulseSequencer.Proofs.Binary64
import PulseSequencer.Proofs.Stages
import PulseSequencer.Proofs.Text.Token
import Mathlib.Data.List.TakeDrop

/-!
# Lines read back

A line that spells out all its fields, with tokens between the separators and with a name or nothing in
front of the colon, is cut into these tokens again; and each field is read as what was written.

* `cutComment_append`: a comment begins at two slashes, and a name does not have them.
* `strip_layout`, `fields_layout`, `splitLabel_layout`: the fields of a line.
* `parseFlags_hexDigits`, `parseDuration_toDigits`: flags and durations.
* `parseStatement_layout`: a whole line.
-/

namespace PulseSequencer.Assembly

open Text (Name Token)

/-- What stands in front of the flags in a line. -/
def lead : Option (List Char) → List Char
  | none => []
  | some label => label ++ [':', ' ']

/-- A line with an opcode and an operand, and with a label or not. -/
def layout (label : Option (List Char)) (flags duration opcode operand : List Char) : List Char :=
  lead label ++ (flags ++ ',' :: ' ' :: (duration ++ ',' :: ' ' :: (opcode ++ ',' :: ' ' :: operand)))

/-! ### Comments -/

theorem cutComment_cons {c : Char} {cs : List Char} (h : ¬ ['/', '/'] <+: c :: cs) :
    cutComment (c :: cs) = c :: cutComment cs := by
  rw [cutComment.eq_def]
  split
  · next heq => cases heq
  · next rest heq => exact absurd ⟨rest, heq.symm⟩ h
  · next heq =>
    obtain ⟨rfl, rfl⟩ := List.cons_eq_cons.mp heq
    rfl

theorem cutComment_cons_of_ne {c : Char} (hc : c ≠ '/') (cs : List Char) :
    cutComment (c :: cs) = c :: cutComment cs :=
  cutComment_cons fun hstart => hc (List.cons_prefix_cons.mp hstart).1.symm

theorem cutComment_append_of_not_mem {a : List Char} (h : '/' ∉ a) (b : List Char) :
    cutComment (a ++ b) = a ++ cutComment b := by
  induction a with
  | nil => rfl
  | cons c a ih =>
    have hc : c ≠ '/' := fun hc => h (hc ▸ List.mem_cons_self)
    rw [List.cons_append, cutComment_cons_of_ne hc, ih fun hmem => h (List.mem_cons_of_mem _ hmem),
      List.cons_append]

/-- Single slashes begin no comment, and neither does one at the end of `a`. -/
theorem cutComment_append_of_head {a b : List Char} (ha : ¬ ['/', '/'] <:+: a)
    (hb : b.head? ≠ some '/') : cutComment (a ++ b) = a ++ cutComment b := by
  induction a with
  | nil => rfl
  | cons c a ih =>
    rw [List.infix_cons_iff, not_or] at ha
    have hstart : ¬ ['/', '/'] <+: c :: (a ++ b) := by
      intro hstart
      obtain ⟨rfl, hnext⟩ := List.cons_prefix_cons.mp hstart
      cases a with
      | nil =>
        obtain ⟨rest, rfl⟩ := hnext
        exact hb rfl
      | cons c' a =>
        obtain ⟨rfl, -⟩ := List.cons_prefix_cons.mp hnext
        exact ha.1 (List.prefix_append ['/', '/'] a)
    rw [List.cons_append, cutComment_cons hstart, ih ha.2, List.cons_append]

theorem cutComment_append {a b : List Char} (ha : ¬ ['/', '/'] <:+: a) (hb : '/' ∉ b) :
    cutComment (a ++ b) = a ++ b := by
  have hcut : cutComment b = b := by simpa [cutComment] using cutComment_append_of_not_mem hb []
  rw [cutComment_append_of_head ha fun hhead => hb (List.mem_of_mem_head? hhead), hcut]

/-! ### The fields of a line -/

section Fields

variable {label : Option (List Char)} {flags duration opcode operand : List Char}
  (hlabel : ∀ name ∈ label, Name name) (hflags : Token flags)

include hlabel

theorem not_mem_lead {c : Char} (hc : c = ',' ∨ c = '\t' ∨ c = '\n') : c ∉ lead label := by
  cases label with
  | none => exact List.not_mem_nil
  | some name =>
    have hname := hlabel name rfl
    rcases hc with rfl | rfl | rfl
    · simp [lead, hname.no_comma]
    · simp [lead, hname.no_tab]
    · simp [lead, hname.no_newline]

theorem cutComment_lead {rest : List Char} (hrest : '/' ∉ rest) :
    cutComment (lead label ++ rest) = lead label ++ rest := by
  cases label with
  | none => exact cutComment_append (by decide) hrest
  | some name =>
    rw [lead, List.append_assoc]
    exact cutComment_append (hlabel name rfl).no_comment (by simpa using hrest)

include hflags

theorem head_lead (rest : List Char) :
    ∀ c ∈ (lead label ++ (flags ++ rest)).head?, Text.isBlank c = false := by
  cases label with
  | none => exact hflags.head rest
  | some name =>
    have hname := hlabel name rfl
    rw [lead, List.append_assoc, List.head?_append_of_ne_nil name hname.ne_nil]
    exact hname.head

theorem splitLabel_layout :
    splitLabel (lead label ++ flags) = .ok (label.map String.ofList, flags) := by
  cases label with
  | none =>
    rw [lead, List.nil_append, splitLabel, Text.cutAt_of_not_mem (hflags.not_mem (by decide))]
    rfl
  | some name =>
    have hname := hlabel name rfl
    rw [lead, List.append_assoc, splitLabel]
    simp only [List.cons_append, List.nil_append]
    rw [Text.cutAt_append (hname.no_colon)]
    simp only [hname.trim_eq, Text.trim_space_token hflags]
    rw [if_neg (by simpa using hname.ne_nil), Option.map_some]

variable (hduration : Token duration) (hopcode : Token opcode) (hoperand : Token operand)

include hduration hopcode hoperand

theorem not_mem_layout {c : Char} (hc : c = '\t' ∨ c = '\n') :
    c ∉ layout label flags duration opcode operand := by
  have hplain : Text.isPlain c = false ∧ c ≠ ',' ∧ c ≠ ' ' := by
    rcases hc with rfl | rfl <;> decide
  simp [layout, not_mem_lead hlabel (.inr hc), hflags.not_mem hplain.1,
    hduration.not_mem hplain.1, hopcode.not_mem hplain.1, hoperand.not_mem hplain.1, hplain.2]

theorem strip_layout {pad : List Char} (hpad : ∀ c ∈ pad, c = ' ') :
    strip (pad ++ layout label flags duration opcode operand) =
      layout label flags duration opcode operand := by
  have hslash : Text.isPlain '/' = false := by decide
  have hcut : cutComment (pad ++ layout label flags duration opcode operand) =
      pad ++ layout label flags duration opcode operand := by
    rw [cutComment_append_of_not_mem fun hmem => absurd (hpad _ hmem) (by decide), layout,
      cutComment_lead hlabel]
    simp [hflags.not_mem hslash, hduration.not_mem hslash, hopcode.not_mem hslash,
      hoperand.not_mem hslash]
  have htab : ∀ c ∈ pad ++ layout label flags duration opcode operand, c ≠ '\t' := by
    rintro c hc rfl
    rcases List.mem_append.mp hc with hc | hc
    · exact absurd (hpad _ hc) (by decide)
    · exact not_mem_layout hlabel hflags hduration hopcode hoperand (.inl rfl) hc
  have hblank : ∀ c ∈ pad, Text.isBlank c = true := by
    intro c hc
    rw [hpad c hc]
    rfl
  have hlast : layout label flags duration opcode operand =
      (lead label ++ (flags ++ ',' :: ' ' :: (duration ++ ',' :: ' ' :: (opcode ++ [',', ' '])))) ++
        operand := by
    simp [layout]
  rw [strip, hcut, List.filter_eq_self.mpr fun c hc => bne_iff_ne.mpr (htab c hc),
    Text.trim_blanks_append hblank]
  refine Text.trim_of_edges (head_lead hlabel hflags _) ?_
  rw [hlast]
  exact hoperand.last _

theorem fields_layout :
    (Text.fields ',' (layout label flags duration opcode operand)).map Text.trim =
      [lead label ++ flags, duration, opcode, operand] := by
  have hcomma : Text.isPlain ',' = false := by decide
  have hfirst : ',' ∉ lead label ++ flags := by
    simp [not_mem_lead hlabel (.inl rfl), hflags.not_mem hcomma]
  have hspaced : ∀ token : List Char, Token token → ',' ∉ ' ' :: token := by
    intro token htoken
    simp [htoken.not_mem hcomma]
  have hlayout : layout label flags duration opcode operand = (lead label ++ flags) ++
      ',' :: (' ' :: duration ++ ',' :: (' ' :: opcode ++ ',' :: (' ' :: operand))) := by
    simp [layout]
  have hedges : Text.trim (lead label ++ flags) = lead label ++ flags :=
    Text.trim_of_edges (by simpa using head_lead hlabel hflags []) (hflags.last _)
  rw [hlayout, Text.fields_append hfirst, Text.fields_append (hspaced _ hduration),
    Text.fields_append (hspaced _ hopcode), Text.fields_of_not_mem (hspaced _ hoperand)]
  simp only [List.map_cons, List.map_nil, Text.trim_space_token hduration,
    Text.trim_space_token hopcode, Text.trim_space_token hoperand, hedges]

end Fields

/-! ### Flags and durations -/

theorem parseFlags_hexDigits {channels : Nat} {flags : FlagWord} (width : Nat)
    (hfits : flags.fits channels = true) :
    parseFlags channels ('0' :: 'x' :: Text.hexDigits width flags.toNat) = .ok flags := by
  have hread : Text.readWord 16 (Text.hexDigits width flags.toNat) = .ok flags.toNat :=
    Text.readWord_hexDigits width flags.isLt
  have hbase : splitBase ('0' :: 'x' :: Text.hexDigits width flags.toNat) =
      some (16, Text.hexDigits width flags.toNat) := rfl
  rw [parseFlags, hbase]
  simp only [hread, BitVec.ofNat_toNat, BitVec.setWidth_eq, hfits, if_true]

theorem spanDigits_append {digits rest : List Char} (hdigits : ∀ c ∈ digits, c.isDigit = true)
    (hrest : ∀ c ∈ rest.head?, c.isDigit = false) :
    Decimal.spanDigits (digits ++ rest) = (digits, rest) := by
  rw [Decimal.spanDigits, List.span_eq_takeWhile_dropWhile]
  have htake : rest.takeWhile Char.isDigit = [] := by
    cases rest with
    | nil => rfl
    | cons c rest => rw [List.takeWhile_cons_of_neg (by simp [hrest c rfl])]
  have hdrop : rest.dropWhile Char.isDigit = rest := by
    cases rest with
    | nil => rfl
    | cons c rest => rw [List.dropWhile_cons_of_neg (by simp [hrest c rfl])]
  rw [List.takeWhile_append_of_pos hdigits, List.dropWhile_append_of_pos hdigits, htake, hdrop,
    List.append_nil]

/-- A whole number of nanoseconds, up to `2 ^ 53`, is read exactly. -/
theorem parseDuration_toDigits {n : Nat} (hpos : 1 ≤ n) (hle : n ≤ 2 ^ 53) :
    parseDuration (Nat.toDigits 10 n ++ ['n', 's']) = .ok n := by
  have hsplit : splitDuration (Nat.toDigits 10 n ++ ['n', 's']) =
      some ⟨Nat.toDigits 10 n, [], ['n', 's']⟩ := by
    rw [splitDuration, spanDigits_append
      (fun c hc => Nat.isDigit_of_mem_toDigits (by decide) (by decide) hc) (by simp)]
    simp only
    rw [if_neg (by simp)]
    rfl
  obtain ⟨m, e, hnormal, hdouble, hexponent, hfloor⟩ := Binary64.exists_scaled_of_le hpos hle
  have hvalue : DurationLiteral.value ⟨Nat.toDigits 10 n, [], ['n', 's']⟩ =
      Binary64.scaled m e hnormal := by
    rw [← hdouble]
    simp only [DurationLiteral.value, Decimal.ofDigits, List.append_nil, List.length_nil,
      Nat.ofDigitChars_ten_toDigits]
    rw [if_neg (by omega), if_neg (by decide)]
    rfl
  have hns : (splitDuration (Nat.toDigits 10 n ++ ['n', 's'])).bind DurationLiteral.nanoseconds? =
      some (Binary64.scaled m e hnormal) := by
    rw [hsplit]
    show some (DurationLiteral.value _ * 1) = _
    rw [hvalue, Binary64.scaled_mul_one]
  have hlimit : Binary64.ofNat maxWord = Binary64.scaled (2 ^ 52) 12
      ⟨by decide, by decide, by decide, by decide⟩ := by rfl
  have hfits : ¬ (Binary64.scaled m e hnormal ≥ Binary64.ofNat maxWord) := by
    rw [hlimit]
    exact Binary64.not_scaled_le hnormal _ (by omega)
  have hword : Binary64.toWord (Binary64.scaled m e hnormal) = n := by
    rw [Binary64.toWord_scaled, hfloor, Word.saturate, maxWord, wordLimit]
    omega
  unfold parseDuration
  rw [hns]
  simp only [Binary64.isFinite_scaled, hfits, hword]
  rw [if_neg (by simp), if_neg (by omega)]

/-! ### A whole line -/

theorem token_flags (width : Nat) (flags : FlagWord) :
    Token ('0' :: 'x' :: Text.hexDigits width flags.toNat) :=
  Token.append (a := ['0', 'x']) (Text.token_of_all (by decide) (by decide))
    (Text.token_hexDigits _ _)

theorem token_duration (duration : Nat) : Token (Nat.toDigits 10 duration ++ ['n', 's']) :=
  (Text.token_toDigits duration).append (Text.token_of_all (by decide) (by decide))

theorem parseStatement_layout {channels : Nat} (number width : Nat) {label : Option (List Char)}
    (hlabel : ∀ name ∈ label, Name name) {operand : List Char} (hoperand : Token operand)
    {flags : FlagWord}
    (hfits : flags.fits channels = true) {duration : Nat} (hpos : 1 ≤ duration)
    (hle : duration ≤ 2 ^ 53) (opcode : Opcode) :
    parseStatement channels ⟨number, layout label ('0' :: 'x' :: Text.hexDigits width flags.toNat)
      (Nat.toDigits 10 duration ++ ['n', 's']) opcode.name.toList operand⟩ =
      .ok ⟨number, label.map String.ofList, flags, duration, opcode,
        .written (String.ofList operand)⟩ := by
  have hflags := token_flags width flags
  have hduration := token_duration duration
  have hname : parseOpcode (some opcode.name.toList) = .ok opcode := by
    rw [parseOpcode, Opcode.parse?_name]
  unfold parseStatement
  rw [fields_layout hlabel hflags hduration (Text.token_name opcode) hoperand]
  simp only [parseFields]
  refine bind_eq_ok_iff.mpr ⟨_, splitLabel_layout hlabel hflags, ?_⟩
  refine bind_eq_ok_iff.mpr ⟨_, parseFlags_hexDigits width hfits, ?_⟩
  refine bind_eq_ok_iff.mpr ⟨_, parseDuration_toDigits hpos hle, ?_⟩
  exact bind_eq_ok_iff.mpr ⟨_, hname, rfl⟩

end PulseSequencer.Assembly
