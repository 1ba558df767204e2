import PulseSequencer.Text.Blank
import PulseSequencer.Text.Split
import PulseSequencer.Proofs.Text.Numeral
import PulseSequencer.Opcode
import Mathlib.Data.List.Infix
import Mathlib.Data.List.TakeWhile

/-!
# Tokens

Cutting and trimming stop at blanks and separators and at nothing else.  A `Token` holds neither, so it
comes out of them whole.  A `Name` may hold blanks, but not at its ends, and single slashes.

* `fields_append`, `fields_of_not_mem`, `fields_intercalate`, `cutAt_append`: a text is cut where a
  separator was put.
* `trim_blanks_append`, `trim_append_blanks`, `trim_of_edges`: trimming drops the blanks in front and
  behind and keeps what neither begins nor ends with one.
* `token_toDigits`, `token_hexDigits`, `token_repr`, `token_name`: numerals and names of opcodes are
  tokens.
* `Token.name`: a token is a name.
-/

namespace PulseSequencer.Text

/-! ### Cutting -/

section Cutting

variable {sep : Char} {f : List Char}

theorem fields_cons (sep c : Char) (cs : List Char) :
    fields sep (c :: cs) =
      if c = sep then [] :: fields sep cs
      else (c :: (splitFields sep cs).1) :: (splitFields sep cs).2 := by
  unfold fields
  rw [splitFields_cons]
  split <;> rfl

theorem fields_append (h : sep ∉ f) (rest : List Char) :
    fields sep (f ++ sep :: rest) = f :: fields sep rest := by
  induction f with
  | nil => rw [List.nil_append, fields_cons, if_pos rfl]
  | cons c f ih =>
    have hc : c ≠ sep := fun hc => h (hc ▸ List.mem_cons_self)
    have ih := ih fun hmem => h (List.mem_cons_of_mem _ hmem)
    obtain ⟨hfirst, hrest⟩ := List.cons_eq_cons.mp ih
    rw [List.cons_append, fields_cons, if_neg hc, hfirst, hrest]

theorem fields_of_not_mem (h : sep ∉ f) : fields sep f = [f] := by
  induction f with
  | nil => rfl
  | cons c f ih =>
    have hc : c ≠ sep := fun hc => h (hc ▸ List.mem_cons_self)
    have ih := ih fun hmem => h (List.mem_cons_of_mem _ hmem)
    obtain ⟨hfirst, hrest⟩ := List.cons_eq_cons.mp ih
    rw [fields_cons, if_neg hc, hfirst, hrest]

theorem fields_intercalate {fs : List (List Char)} (hne : fs ≠ []) (h : ∀ f ∈ fs, sep ∉ f) :
    fields sep ([sep].intercalate fs) = fs := by
  induction fs with
  | nil => exact absurd rfl hne
  | cons f fs ih =>
    have hf := h f List.mem_cons_self
    cases fs with
    | nil => rw [List.intercalate_singleton, fields_of_not_mem hf]
    | cons g fs =>
      rw [List.intercalate_cons_cons, List.append_assoc, List.singleton_append, fields_append hf,
        ih (List.cons_ne_nil g fs) fun f' hf' => h f' (List.mem_cons_of_mem f hf')]

theorem cutAt_of_not_mem (h : sep ∉ f) : cutAt sep f = none := by
  induction f with
  | nil => rfl
  | cons c f ih =>
    have hc : c ≠ sep := fun hc => h (hc ▸ List.mem_cons_self)
    rw [cutAt, if_neg hc, ih fun hmem => h (List.mem_cons_of_mem _ hmem)]
    rfl

theorem cutAt_append (h : sep ∉ f) (rest : List Char) :
    cutAt sep (f ++ sep :: rest) = some (f, rest) := by
  induction f with
  | nil => rw [List.nil_append, cutAt, if_pos rfl]
  | cons c f ih =>
    have hc : c ≠ sep := fun hc => h (hc ▸ List.mem_cons_self)
    rw [List.cons_append, cutAt, if_neg hc, ih fun hmem => h (List.mem_cons_of_mem _ hmem)]
    rfl

end Cutting

/-! ### Tokens -/

/-- Neither a blank nor one of the characters that a program text is cut at. -/
def isPlain (c : Char) : Bool :=
  !isBlank c && c != ',' && c != ':' && c != '/'

/-- A text that cutting and trimming leave whole. -/
structure Token (cs : List Char) : Prop where
  ne_nil : cs ≠ []
  plain : ∀ c ∈ cs, isPlain c = true

section Token

variable {a b cs : List Char}

theorem not_isBlank_of_isPlain {c : Char} (h : isPlain c = true) : isBlank c = false := by
  simp only [isPlain, Bool.and_eq_true, Bool.not_eq_true'] at h
  exact h.1.1.1

theorem Token.not_mem (h : Token cs) {c : Char} (hc : isPlain c = false) : c ∉ cs := by
  intro hmem
  rw [h.plain c hmem] at hc
  cases hc

theorem token_of_all (hne : cs ≠ []) (hall : cs.all isPlain = true) : Token cs :=
  ⟨hne, List.all_eq_true.mp hall⟩

theorem Token.append (ha : Token a) (hb : Token b) : Token (a ++ b) := by
  refine ⟨by simp [ha.ne_nil], fun c hc => ?_⟩
  rcases List.mem_append.mp hc with hc | hc
  · exact ha.plain c hc
  · exact hb.plain c hc

/-! ### Trimming -/

theorem trimStart_of_head (h : ∀ c ∈ cs.head?, isBlank c = false) : trimStart cs = cs := by
  cases cs with
  | nil => rfl
  | cons c cs => rw [trimStart, List.dropWhile_cons_of_neg (by simp [h c rfl])]

/-- What neither begins nor ends with a blank has none to lose. -/
theorem trim_of_edges (hhead : ∀ c ∈ cs.head?, isBlank c = false)
    (hlast : ∀ c ∈ cs.getLast?, isBlank c = false) : trim cs = cs := by
  rw [← List.head?_reverse] at hlast
  rw [trim, trimStart_of_head hhead, trimEnd, trimStart_of_head hlast, List.reverse_reverse]

theorem Token.head (h : Token a) (rest : List Char) :
    ∀ c ∈ (a ++ rest).head?, isBlank c = false := by
  intro c hc
  rw [List.head?_append_of_ne_nil a h.ne_nil] at hc
  exact not_isBlank_of_isPlain (h.plain c (List.mem_of_mem_head? hc))

theorem Token.last (h : Token b) (rest : List Char) :
    ∀ c ∈ (rest ++ b).getLast?, isBlank c = false := by
  intro c hc
  rw [List.getLast?_append_of_ne_nil rest h.ne_nil] at hc
  exact not_isBlank_of_isPlain (h.plain c (List.mem_of_mem_getLast? hc))

theorem trim_token (h : Token cs) : trim cs = cs :=
  trim_of_edges (by simpa using h.head []) (by simpa using h.last [])

theorem trim_blanks_append (hblank : ∀ c ∈ a, isBlank c = true) (rest : List Char) :
    trim (a ++ rest) = trim rest := by
  rw [trim, trimStart, List.dropWhile_append_of_pos hblank]
  rfl

theorem trim_append_blanks (hblank : ∀ c ∈ b, isBlank c = true) (a : List Char) :
    trim (a ++ b) = trim a := by
  have hend : ∀ rest, trimEnd (rest ++ b) = trimEnd rest := by
    intro rest
    rw [trimEnd, List.reverse_append, trimStart,
      List.dropWhile_append_of_pos fun c hc => hblank c (List.mem_reverse.mp hc)]
    rfl
  rw [trim, trim, trimStart, List.dropWhile_append]
  split
  · next hempty =>
    rw [List.isEmpty_iff] at hempty
    rw [List.dropWhile_eq_nil_iff.mpr hblank, trimStart, hempty]
  · exact hend _

theorem trim_space_token (h : Token cs) : trim (' ' :: cs) = cs := by
  have hblank : ∀ c ∈ [' '], isBlank c = true := by simp [isBlank]
  rw [← List.singleton_append, trim_blanks_append hblank, trim_token h]

end Token

/-! ### Names -/

/-- A text that can stand in front of a colon: not empty, with no blank at its ends, and with nothing in
it that a program text is cut at. -/
structure Name (cs : List Char) : Prop where
  ne_nil : cs ≠ []
  head : ∀ c ∈ cs.head?, isBlank c = false
  last : ∀ c ∈ cs.getLast?, isBlank c = false
  no_comma : ',' ∉ cs
  no_colon : ':' ∉ cs
  no_tab : '\t' ∉ cs
  no_newline : '\n' ∉ cs
  no_comment : ¬ ['/', '/'] <:+: cs

theorem name_iff {cs : List Char} :
    Name cs ↔ cs ≠ [] ∧ (cs.head?.any isBlank = false ∧ cs.getLast?.any isBlank = false) ∧
      (',' ∉ cs ∧ ':' ∉ cs ∧ '\t' ∉ cs ∧ '\n' ∉ cs) ∧ ¬ ['/', '/'] <:+: cs := by
  simp only [Option.any_eq_false]
  exact ⟨fun h => ⟨h.ne_nil, ⟨h.head, h.last⟩, ⟨h.no_comma, h.no_colon, h.no_tab, h.no_newline⟩,
      h.no_comment⟩,
    fun ⟨hne, ⟨hhead, hlast⟩, ⟨hcomma, hcolon, htab, hnewline⟩, hcomment⟩ =>
      ⟨hne, hhead, hlast, hcomma, hcolon, htab, hnewline, hcomment⟩⟩

instance (cs : List Char) : Decidable (Name cs) :=
  decidable_of_iff' _ name_iff

theorem Name.trim_eq {cs : List Char} (h : Name cs) : trim cs = cs :=
  trim_of_edges h.head h.last

theorem Token.name {cs : List Char} (h : Token cs) : Name cs where
  ne_nil := h.ne_nil
  head := by simpa using h.head []
  last := by simpa using h.last []
  no_comma := h.not_mem (by decide)
  no_colon := h.not_mem (by decide)
  no_tab := h.not_mem (by decide)
  no_newline := h.not_mem (by decide)
  no_comment := by
    intro hslashes
    have hslash : isPlain '/' = false := by decide
    exact h.not_mem hslash (hslashes.subset List.mem_cons_self)

/-! ### Numerals and names of opcodes -/

theorem token_toDigits (n : Nat) : Token (Nat.toDigits 10 n) := by
  refine ⟨Nat.toDigits_ne_nil, fun c hc => ?_⟩
  obtain ⟨d, hd, rfl⟩ := exists_digitChar_of_mem_toDigits (by decide) hc
  clear hc
  revert d
  decide

theorem token_hexDigits (width n : Nat) : Token (hexDigits width n) := by
  refine ⟨hexDigits_ne_nil width n, fun c hc => ?_⟩
  obtain ⟨d, hd, rfl⟩ := exists_digit_of_mem_hexDigits hc
  clear hc
  revert d
  decide

theorem token_repr (z : Int) : Token z.repr.toList := by
  cases z with
  | ofNat n =>
    rw [Int.repr, Nat.toList_repr]
    exact token_toDigits n
  | negSucc n =>
    rw [Int.repr, String.toList_append, Nat.toList_repr]
    exact .append (token_of_all (by decide) (by decide)) (token_toDigits _)

theorem token_name (op : Opcode) : Token op.name.toList := by
  cases op <;> exact token_of_all (by decide) (by decide)

end PulseSequencer.Text
