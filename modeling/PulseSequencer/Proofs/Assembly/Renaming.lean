import PulseSequencer.Proofs.Assembly.Layout
import PulseSequencer.Proofs.Assembly.Reading
import PulseSequencer.Proofs.Text.Fields

/-!
# Renaming the labels of a text

`rename` gives the labels of a text new names: in front of the colons, and in the operands that are one of
them.  Everything else in the text stays in its place, blanks, tabs and comments included.

* `Exchanged`: a stretch of a text has become a name; `cutComment_of_exchanged` says that a comment stays
  where it is then.
* `fields_editField`: one field of a line is changed and no other one.
* `splitLabel_renameLabel`, `said_renameOperand`: what the two fields say then.
* `Renamed`, `renamed_renameLine`: a line that could be read still can, and is read as the same but for
  its label and its operand.
* `renamed_statements`, `readAs_renamedLines`: all lines.
-/

namespace PulseSequencer.Assembly

open Text (Name said exchange)

/-- A name that is free of slashes. -/
structure LabelName (cs : List Char) : Prop extends Name cs where
  no_slash : '/' ∉ cs

/-! ### Exchanging a stretch of a text -/

/-- A stretch of the text has become a name, or nothing has changed. -/
inductive Exchanged : List Char → List Char → Prop
  | refl (cs : List Char) : Exchanged cs cs
  | name (a old b : List Char) {new : List Char} (hnew : LabelName new) :
    Exchanged (a ++ old ++ b) (a ++ new ++ b)

section Exchanged

variable {x y : List Char}

theorem Exchanged.within (h : Exchanged x y) (a b : List Char) :
    Exchanged (a ++ x ++ b) (a ++ y ++ b) := by
  cases h with
  | refl => exact .refl _
  | name p old q hnew =>
    have happend : ∀ s : List Char, a ++ (p ++ s ++ q) ++ b = (a ++ p) ++ s ++ (q ++ b) := by simp
    rw [happend, happend]
    exact .name (a ++ p) old (q ++ b) hnew

theorem Exchanged.not_mem (h : Exchanged x y) {c : Char} (hc : c = ',' ∨ c = ':' ∨ c = '\n')
    (hx : c ∉ x) : c ∉ y := by
  cases h with
  | refl => exact hx
  | @name a old b new hnew =>
    have hnot : c ∉ new := by
      rcases hc with rfl | rfl | rfl
      · exact hnew.no_comma
      · exact hnew.no_colon
      · exact hnew.no_newline
    simp only [List.mem_append, not_or] at hx ⊢
    exact ⟨⟨hx.1.1, hnot⟩, hx.2⟩

theorem exchanged_exchange {new : List Char} (hnew : LabelName new) (cs : List Char) :
    Exchanged cs (exchange new cs) := by
  have h := Exchanged.name (Text.leadingBlanks cs) (Text.trim cs) (Text.trailingBlanks cs) hnew
  rwa [Text.blanks_append] at h

/-! ### Comments -/

theorem not_infix_cutComment (line : List Char) : ¬ ['/', '/'] <:+: cutComment line := by
  induction line with
  | nil => decide
  | cons c line ih =>
    by_cases hstart : ['/', '/'] <+: c :: line
    · obtain ⟨rest, hrest⟩ := hstart
      rw [← hrest]
      exact (by decide : ¬ ['/', '/'] <:+: ([] : List Char))
    · rw [cutComment_cons hstart, List.infix_cons_iff, not_or]
      refine ⟨?_, ih⟩
      intro hslashes
      obtain ⟨rfl, hnext⟩ := List.cons_prefix_cons.mp hslashes
      obtain ⟨rest, hrest⟩ := hnext
      -- the second slash is the first character of the line behind `c`
      cases line with
      | nil => cases hrest
      | cons d line =>
        by_cases hd : d = '/'
        · exact hstart (hd ▸ List.prefix_append ['/', '/'] line)
        · rw [cutComment_cons_of_ne hd] at hrest
          exact hd (List.cons_eq_cons.mp hrest).1.symm

theorem cutComment_prefix_line (line : List Char) : cutComment line <+: line := by
  induction line with
  | nil => exact List.prefix_rfl
  | cons c line ih =>
    by_cases hstart : ['/', '/'] <+: c :: line
    · obtain ⟨rest, hrest⟩ := hstart
      rw [← hrest]
      exact List.nil_prefix
    · rw [cutComment_cons hstart]
      exact List.cons_prefix_cons.mpr ⟨rfl, ih⟩

/-- What is kept from the front can be left out of account. -/
theorem cutComment_of_append {a b c : List Char} (h : cutComment (a ++ b) = a ++ c) :
    cutComment b = c := by
  induction a with
  | nil => exact h
  | cons d a ih =>
    rw [List.cons_append] at h
    by_cases hstart : ['/', '/'] <+: d :: (a ++ b)
    · obtain ⟨rest, hrest⟩ := hstart
      rw [← hrest] at h
      cases h
    · rw [cutComment_cons hstart] at h
      exact ih (List.cons_eq_cons.mp h).2

/-- A name holds no slash, so it neither begins a comment nor ends the first half of one. -/
theorem cutComment_of_exchanged (h : Exchanged x y) {comment : List Char}
    (hcut : cutComment (x ++ comment) = x) : cutComment (y ++ comment) = y := by
  cases h with
  | refl => exact hcut
  | @name a old b new hnew =>
    have hback : cutComment (b ++ comment) = b := by
      refine cutComment_of_append (a := a ++ old) ?_
      rw [← List.append_assoc, hcut]
    have hfront : ¬ ['/', '/'] <:+: a := by
      intro hslashes
      have hprefix : a <+: a ++ old ++ b := by simp
      have hall := hslashes.trans hprefix.isInfix
      rw [← hcut] at hall
      exact not_infix_cutComment _ hall
    have hhead : (new ++ (b ++ comment)).head? ≠ some '/' := by
      rw [List.head?_append_of_ne_nil new hnew.ne_nil]
      exact fun hslash => hnew.no_slash (List.mem_of_mem_head? hslash)
    rw [List.append_assoc, List.append_assoc, cutComment_append_of_head hfront hhead,
      cutComment_append_of_not_mem hnew.no_slash, hback, List.append_assoc]

end Exchanged

/-! ### One field of a line -/

/-- The line with one of its fields changed. -/
def editField (k : Nat) (g : List Char → List Char) (line : List Char) : List Char :=
  Text.joinFields ',' ((Text.fields ',' (cutComment line)).modify k g) ++
    line.drop (cutComment line).length

section EditField

variable {k : Nat} {g : List Char → List Char} {line : List Char}

/-- The fields glued together are the text of the line with one of them exchanged. -/
theorem exchanged_joinFields {fs : List (List Char)} (hg : ∀ f ∈ fs[k]?, Exchanged f (g f)) :
    Exchanged (Text.joinFields ',' fs) (Text.joinFields ',' (fs.modify k g)) := by
  by_cases hk : k < fs.length
  · obtain ⟨a, b, hjoin⟩ := Text.exists_joinFields ',' (fs.take k) (fs.drop (k + 1))
    have hfield : fs.take k ++ fs[k] :: fs.drop (k + 1) = fs := by
      rw [← List.drop_eq_getElem_cons hk, List.take_append_drop]
    rw [List.modify_eq_take_cons_drop hk, hjoin]
    conv_lhs => rw [← hfield, hjoin]
    exact (hg fs[k] (by simp [hk])).within a b
  · rw [List.modify_eq_self (by omega)]
    exact .refl _

theorem exchanged_body (hg : ∀ f ∈ (Text.fields ',' (cutComment line))[k]?, Exchanged f (g f)) :
    Exchanged (cutComment line)
      (Text.joinFields ',' ((Text.fields ',' (cutComment line)).modify k g)) := by
  have h := exchanged_joinFields hg
  rwa [Text.join_fields] at h

theorem cutComment_append_drop (line : List Char) :
    cutComment line ++ line.drop (cutComment line).length = line :=
  List.prefix_iff_eq_append.mp (cutComment_prefix_line line)

theorem exchanged_editField
    (hg : ∀ f ∈ (Text.fields ',' (cutComment line))[k]?, Exchanged f (g f)) :
    Exchanged line (editField k g line) := by
  have h := (exchanged_body hg).within [] (line.drop (cutComment line).length)
  rwa [List.nil_append, List.nil_append, cutComment_append_drop] at h

theorem fields_editField
    (hg : ∀ f ∈ (Text.fields ',' (cutComment line))[k]?, Exchanged f (g f)) :
    Text.fields ',' (cutComment (editField k g line)) =
      (Text.fields ',' (cutComment line)).modify k g := by
  have hcut : cutComment (cutComment line ++ line.drop (cutComment line).length) = cutComment line := by
    rw [cutComment_append_drop]
  rw [editField, cutComment_of_exchanged (exchanged_body hg) hcut, Text.fields_joinFields]
  · simp [Text.fields]
  · intro f' hf'
    obtain ⟨j, hj⟩ := List.getElem?_of_mem hf'
    rw [List.getElem?_modify] at hj
    obtain ⟨f, hf, rfl⟩ := Option.map_eq_some_iff.mp hj
    have hcomma := Text.not_mem_of_mem_fields (List.mem_of_getElem? hf)
    split
    · next hkj =>
      subst hkj
      exact (hg f hf).not_mem (.inl rfl) hcomma
    · exact hcomma

end EditField

/-! ### Labels and operands -/

variable {ρ : String → String} {labels : List (Option String)}

/-- The first field of a line with the label renamed. -/
def renameLabel (ρ : String → String) (field : List Char) : List Char :=
  match Text.cutAt ':' field with
  | none => field
  | some (label, flags) => exchange (ρ (String.ofList (said label))).toList label ++ ':' :: flags

/-- An operand with the labels renamed. -/
def respell (ρ : String → String) (labels : List (Option String)) (text : String) : String :=
  if some text ∈ labels then ρ text else text

/-- The last field of a line with the labels renamed. -/
def renameOperand (ρ : String → String) (labels : List (Option String)) (field : List Char) :
    List Char :=
  let text := String.ofList (said field)
  if some text ∈ labels then exchange (ρ text).toList field else field

theorem splitLabel_said (field : List Char) :
    splitLabel (said field) =
      match Text.cutAt ':' field with
      | none => .ok (none, said field)
      | some (label, flags) =>
        if (said label).isEmpty then .error .emptyLabel
        else .ok (some (String.ofList (said label)), said flags) := by
  rcases Text.cutAt_cases ':' field with ⟨hcut, hnot⟩ | ⟨label, flags, hcut, rfl, hnot⟩
  · rw [hcut, splitLabel, Text.cutAt_of_not_mem fun hmem => hnot (Text.said_subset hmem)]
  · obtain ⟨label', flags', hcut', hlabel, hflags⟩ :=
      Text.cutAt_said (b := flags) (by decide) (by decide) hnot
    rw [hcut, splitLabel, hcut']
    simp only [hlabel, hflags]

section RenameLabel

variable {field flags : List Char} {label : Option String}
  (h : splitLabel (said field) = .ok (label, flags)) (hlabel : ∀ l ∈ label, LabelName (ρ l).toList)

include h hlabel

theorem renameLabel_cases :
    (label = none ∧ renameLabel ρ field = field) ∨
      ∃ front back name, label = some name ∧ flags = said back ∧ field = front ++ ':' :: back ∧
        ':' ∉ front ∧ LabelName (ρ name).toList ∧
        renameLabel ρ field = exchange (ρ name).toList front ++ ':' :: back := by
  rw [splitLabel_said] at h
  unfold renameLabel
  rcases Text.cutAt_cases ':' field with ⟨hcut, -⟩ | ⟨front, back, hcut, hfield, hnot⟩
  · rw [hcut] at h ⊢
    cases h
    exact .inl ⟨rfl, rfl⟩
  · rw [hcut] at h ⊢
    simp only at h
    split at h
    · cases h
    · cases h
      exact .inr ⟨front, back, _, rfl, rfl, hfield, hnot, hlabel _ rfl, rfl⟩

theorem exchanged_renameLabel : Exchanged field (renameLabel ρ field) := by
  rcases renameLabel_cases h hlabel with ⟨-, heq⟩ | ⟨front, back, name, -, -, hfield, -, hname, heq⟩
  · rw [heq]
    exact .refl field
  · rw [heq, hfield]
    simpa using (exchanged_exchange hname front).within [] (':' :: back)

theorem splitLabel_renameLabel :
    splitLabel (said (renameLabel ρ field)) = .ok (label.map ρ, flags) := by
  rcases renameLabel_cases h hlabel with
    ⟨rfl, heq⟩ | ⟨front, back, name, rfl, rfl, -, hnot, hname, heq⟩
  · rw [heq, h]
    rfl
  · have hcut : Text.cutAt ':' (exchange (ρ name).toList front ++ ':' :: back) =
        some (exchange (ρ name).toList front, back) :=
      Text.cutAt_append ((exchanged_exchange hname front).not_mem (.inr (.inl rfl)) hnot) back
    have hne : (ρ name).toList.isEmpty = false := by simpa using hname.ne_nil
    rw [heq, splitLabel_said, hcut]
    simp only [Text.said_exchange hname.toName, hne]
    simp

end RenameLabel

theorem said_renameOperand (hlabels : ∀ l, some l ∈ labels → LabelName (ρ l).toList)
    (field : List Char) :
    String.ofList (said (renameOperand ρ labels field)) =
      respell ρ labels (String.ofList (said field)) := by
  simp only [renameOperand, respell]
  split
  · next hmem => rw [Text.said_exchange (hlabels _ hmem).toName, String.ofList_toList]
  · rfl

theorem exchanged_renameOperand (hlabels : ∀ l, some l ∈ labels → LabelName (ρ l).toList)
    (field : List Char) : Exchanged field (renameOperand ρ labels field) := by
  simp only [renameOperand]
  split
  · next hmem => exact exchanged_exchange (hlabels _ hmem) field
  · exact .refl field

/-! ### Lines -/

/-- A line with the labels renamed. -/
def renameLine (ρ : String → String) (labels : List (Option String)) (line : List Char) :
    List Char :=
  editField 3 (renameOperand ρ labels) (editField 0 (renameLabel ρ) line)

/-- A text with the labels renamed. -/
def rename (ρ : String → String) (labels : List (Option String)) (source : String) : String :=
  String.ofList
    (Text.joinFields '\n' ((Text.fields '\n' source.toList).map (renameLine ρ labels)))

/-- What the fields of a line say. -/
theorem map_trim_fields_strip (line : List Char) :
    (Text.fields ',' (strip line)).map Text.trim = (Text.fields ',' (cutComment line)).map said :=
  Text.map_trim_fields_said (by decide) (by decide) _

theorem strip_eq_nil_iff {line : List Char} :
    strip line = [] ↔ (Text.fields ',' (cutComment line)).map said = [[]] := by
  rw [← map_trim_fields_strip]
  constructor
  · intro h
    rw [h]
    rfl
  · intro h
    obtain ⟨field, hfields, hfield⟩ := List.map_eq_singleton_iff.mp h
    have hjoin := Text.join_fields ',' (strip line)
    rw [hfields, Text.joinFields] at hjoin
    rwa [hjoin, strip, Text.trim_trim] at hfield

/-- The fields of a line, with the label that stands in front of the flags in the first one. -/
structure Begins (line : List Char) (label : Option String) (first : List Char)
    (rest : List (List Char)) : Prop where
  fields : Text.fields ',' (cutComment line) = first :: rest
  label : ∃ flags, splitLabel (said first) = .ok (label, flags)

section Begins

variable {line first : List Char} {label : Option String} {rest : List (List Char)}
  (h : Begins line label first rest) (hlabel : ∀ l ∈ label, LabelName (ρ l).toList)
  (hlabels : ∀ l, some l ∈ labels → LabelName (ρ l).toList)

include h hlabel

theorem Begins.exchanged :
    ∀ f ∈ (Text.fields ',' (cutComment line))[0]?, Exchanged f (renameLabel ρ f) := by
  intro f hf
  obtain ⟨flags, hfirst⟩ := h.label
  rw [h.fields] at hf
  cases hf
  exact exchanged_renameLabel hfirst hlabel

include hlabels

theorem Begins.fields_renameLine :
    Text.fields ',' (cutComment (renameLine ρ labels line)) =
      renameLabel ρ first :: rest.modify 2 (renameOperand ρ labels) := by
  rw [renameLine, fields_editField fun f _ => exchanged_renameOperand hlabels f,
    fields_editField (h.exchanged hlabel), h.fields]
  rfl

theorem Begins.newline_not_mem (hline : '\n' ∉ line) : '\n' ∉ renameLine ρ labels line := by
  have hfront := (exchanged_editField (h.exchanged hlabel)).not_mem (.inr (.inr rfl)) hline
  exact (exchanged_editField fun f _ => exchanged_renameOperand hlabels f).not_mem
    (.inr (.inr rfl)) hfront

end Begins

theorem begins_of_blank {line : List Char} (hblank : strip line = []) :
    ∃ first, Begins line none first [] ∧ said first = [] := by
  obtain ⟨first, hfields, hfirst⟩ := List.map_eq_singleton_iff.mp (strip_eq_nil_iff.mp hblank)
  exact ⟨first, ⟨hfields, [], by rw [hfirst]; rfl⟩, hfirst⟩

/-- Nothing is renamed in a line that says nothing. -/
theorem strip_renameLine_of_blank (hlabels : ∀ l, some l ∈ labels → LabelName (ρ l).toList)
    {line : List Char} (hblank : strip line = []) : strip (renameLine ρ labels line) = [] := by
  obtain ⟨first, hbegins, hfirst⟩ := begins_of_blank hblank
  obtain ⟨flags, hlabel⟩ := hbegins.label
  have hsame : renameLabel ρ first = first := by
    rcases renameLabel_cases hlabel (by simp) with ⟨-, heq⟩ | ⟨_, _, _, h, -⟩
    · exact heq
    · cases h
  rw [strip_eq_nil_iff, hbegins.fields_renameLine (by simp) hlabels, hsame, List.modify_nil,
    List.map_singleton, hfirst]

/-! ### Reading -/

/-- The operand of a line, if it has one. -/
def Statement.operand? (st : Statement) : Option String :=
  ((Text.fields ',' st.text).map Text.trim)[3]?.map String.ofList

/-- The line with another label, and with the operand that is written there. -/
def Line.relabel (ρ : String → String) (operand : Option String) (line : Line) : Line :=
  { line with label := line.label.map ρ, operand := .written (operand.getD "0") }

section Cut

variable {line first duration : List Char} {more : List (List Char)}

theorem parseStatement_of_cut
    (hcut : Text.fields ',' (cutComment line) = first :: duration :: more) (hmore : more.length ≤ 2)
    (channels n : Nat) : parseStatement channels ⟨n, strip line⟩ =
      parseFields channels n (said first) (said duration) (more[0]?.map said) (more[1]?.map said) := by
  have hfields : (Text.fields ',' (strip line)).map Text.trim =
      said first :: said duration :: more.map said := by
    rw [map_trim_fields_strip, hcut]
    rfl
  rw [← List.getElem?_map, ← List.getElem?_map]
  exact parseStatement_of_fields hfields (by simpa using hmore)

theorem operand?_of_cut (hcut : Text.fields ',' (cutComment line) = first :: duration :: more)
    (n : Nat) :
    Statement.operand? ⟨n, strip line⟩ = (more[1]?.map said).map String.ofList := by
  rw [Statement.operand?, map_trim_fields_strip, hcut, ← List.getElem?_map (f := said)]
  rfl

end Cut

theorem begins_of_parseStatement {channels n : Nat} {line : List Char} {l : Line}
    (h : parseStatement channels ⟨n, strip line⟩ = .ok l) :
    ∃ first duration more, Begins line l.label first (duration :: more) ∧ more.length ≤ 2 := by
  obtain ⟨first, duration, more, hfields, hmore, hparse⟩ := exists_fields_of_parseStatement h
  rw [map_trim_fields_strip] at hfields
  obtain ⟨f, fs, hcut, rfl, hrest⟩ := List.map_eq_cons_iff.mp hfields
  obtain ⟨d, fs, rfl, rfl, rfl⟩ := List.map_eq_cons_iff.mp hrest
  obtain ⟨flags, hlabel, -⟩ := parseFields_eq_ok_iff.mp hparse
  exact ⟨f, d, fs, ⟨hcut, flags, hlabel⟩, by simpa using hmore⟩

theorem parseFields_relabel {channels n : Nat} {first first' duration : List Char}
    {opcode operand operand' : Option (List Char)} {line : Line}
    (h : parseFields channels n first duration opcode operand = .ok line)
    (hfirst : ∀ flags, splitLabel first = .ok (line.label, flags) →
      splitLabel first' = .ok (line.label.map ρ, flags)) :
    parseFields channels n first' duration opcode operand' =
      .ok (line.relabel ρ (operand'.map String.ofList)) := by
  obtain ⟨flags, hlabel, hflags, hduration, hopcode, hnumber, -⟩ := parseFields_eq_ok_iff.mp h
  refine parseFields_eq_ok_iff.mpr
    ⟨flags, hfirst flags hlabel, hflags, hduration, hopcode, hnumber, ?_⟩
  cases operand' <;> rfl

/-- An operand that is left out is read as `0`. -/
theorem operand_of_parseStatement {channels : Nat} {st : Statement} {line : Line}
    (h : parseStatement channels st = .ok line) :
    line.operand = .written (st.operand?.getD "0") := by
  obtain ⟨first, duration, more, hfields, -, hparse⟩ := exists_fields_of_parseStatement h
  obtain ⟨-, -, -, -, -, -, hoperand⟩ := parseFields_eq_ok_iff.mp hparse
  have hfield : st.operand? = more[1]?.map String.ofList := by
    rw [Statement.operand?, hfields]
    rfl
  rw [hoperand, hfield]
  cases more[1]? <;> rfl

/-- The second statement is the first one with the labels renamed. -/
structure Renamed (ρ : String → String) (labels : List (Option String)) (channels : Nat)
    (st st' : Statement) : Prop where
  operand : st'.operand? = st.operand?.map (respell ρ labels)
  read : ∀ line, parseStatement channels st = .ok line →
    parseStatement channels st' = .ok (line.relabel ρ st'.operand?)

/-- All statements can be read, and their labels are among the given ones. -/
def LabelledFrom (channels : Nat) (labels : List (Option String)) (sts : List Statement) : Prop :=
  ∀ st ∈ sts, ∃ line, parseStatement channels st = .ok line ∧
    ∀ name ∈ line.label, some name ∈ labels

/-- Each line of such a text says nothing or is one of the statements. -/
theorem LabelledFrom.blank_or_read {channels : Nat} {source : List Char}
    (hread : LabelledFrom channels labels (statements source)) {k : Nat} {line : List Char}
    (hline : (Text.fields '\n' source)[k]? = some line) :
    strip line = [] ∨ (strip line ≠ [] ∧ ∃ l, parseStatement channels ⟨k + 1, strip line⟩ = .ok l ∧
      ∀ name ∈ l.label, some name ∈ labels) := by
  by_cases hblank : strip line = []
  · exact .inl hblank
  · exact .inr ⟨hblank, hread _ (mem_statements_iff.mpr ⟨k, line, hline, hblank, rfl⟩)⟩

section Statements

variable {channels : Nat} (hlabels : ∀ l, some l ∈ labels → LabelName (ρ l).toList)

include hlabels

theorem renamed_renameLine {n : Nat} {line : List Char} {l : Line}
    (hread : parseStatement channels ⟨n, strip line⟩ = .ok l)
    (hlabel : ∀ name ∈ l.label, some name ∈ labels) :
    strip (renameLine ρ labels line) ≠ [] ∧
      Renamed ρ labels channels ⟨n, strip line⟩ ⟨n, strip (renameLine ρ labels line)⟩ := by
  obtain ⟨first, duration, more, hbegins, hmore⟩ := begins_of_parseStatement hread
  have hnames : ∀ name ∈ l.label, LabelName (ρ name).toList :=
    fun name hname => hlabels name (hlabel name hname)
  have hcut : Text.fields ',' (cutComment (renameLine ρ labels line)) =
      renameLabel ρ first :: duration :: more.modify 1 (renameOperand ρ labels) := by
    rw [hbegins.fields_renameLine hnames hlabels]
    rfl
  refine ⟨fun hblank => ?_, ?_, fun line' hline' => ?_⟩
  · rw [strip_eq_nil_iff, hcut] at hblank
    simp at hblank
  · rw [operand?_of_cut hcut, operand?_of_cut hbegins.fields]
    simp [said_renameOperand hlabels, Function.comp_def]
  · obtain rfl : l = line' := Except.ok.inj (hread.symm.trans hline')
    have hopcode : (more.modify 1 (renameOperand ρ labels))[0]? = more[0]? := by
      cases more <;> rfl
    rw [parseStatement_of_cut hbegins.fields hmore] at hread
    rw [operand?_of_cut hcut, parseStatement_of_cut hcut (by simpa using hmore), hopcode]
    exact parseFields_relabel hread fun flags hflags => splitLabel_renameLabel hflags hnames

theorem fields_rename {source : String}
    (hread : LabelledFrom channels labels (statements source.toList)) :
    Text.fields '\n' (rename ρ labels source).toList =
      (Text.fields '\n' source.toList).map (renameLine ρ labels) := by
  rw [rename, String.toList_ofList, Text.fields_joinFields (by simp [Text.fields])]
  intro line' hline'
  obtain ⟨line, hline, rfl⟩ := List.mem_map.mp hline'
  obtain ⟨k, hk⟩ := List.getElem?_of_mem hline
  have hnewline := Text.not_mem_of_mem_fields hline
  rcases hread.blank_or_read hk with hblank | ⟨-, l, hl, hnames⟩
  · obtain ⟨first, hbegins, -⟩ := begins_of_blank hblank
    exact hbegins.newline_not_mem (by simp) hlabels hnewline
  · obtain ⟨first, duration, more, hbegins, -⟩ := begins_of_parseStatement hl
    exact hbegins.newline_not_mem (fun name hname => hlabels name (hnames name hname)) hlabels hnewline

/-- The statements of a text that can be read are renamed one by one. -/
theorem renamed_statements {source : String}
    (hread : LabelledFrom channels labels (statements source.toList)) :
    List.Forall₂ (Renamed ρ labels channels) (statements source.toList)
      (statements (rename ρ labels source).toList) := by
  unfold statements
  rw [fields_rename hlabels hread, List.zipIdx_map, List.filterMap_map]
  refine List.rel_filterMap (R := fun x y => x = y ∧ x ∈ (Text.fields '\n' source.toList).zipIdx)
    ?_ (List.forall₂_same.mpr fun x hx => ⟨rfl, hx⟩)
  rintro ⟨line, k⟩ _ ⟨rfl, hmem⟩
  simp only [Function.comp_apply, Prod.map, id]
  rcases hread.blank_or_read (List.mem_zipIdx_iff_getElem?.mp hmem) with
    hblank | ⟨hne, l, hl, hnames⟩
  · rw [hblank, strip_renameLine_of_blank hlabels hblank]
    exact .none
  · obtain ⟨hne', hrenamed⟩ := renamed_renameLine hlabels hl hnames
    rw [if_neg (by simpa using hne), if_neg (by simpa using hne')]
    exact .some hrenamed

end Statements

/-! ### The lines that are read then -/

/-- The lines of the renamed statements. -/
def renamedLines (ρ : String → String) (labels : List (Option String)) (sts : List Statement)
    (lines : List Line) : List Line :=
  List.zipWith (fun st line => line.relabel ρ (st.operand?.map (respell ρ labels))) sts lines

theorem readAs_renamedLines {channels : Nat} {sts sts' : List Statement} {lines : List Line}
    (hrenamed : List.Forall₂ (Renamed ρ labels channels) sts sts') (hread : ReadAs channels sts lines) :
    ReadAs channels sts' (renamedLines ρ labels sts lines) := by
  induction hrenamed generalizing lines with
  | nil =>
    cases hread
    exact .nil
  | @cons st st' sts sts' hst _ ih =>
    cases hread with
    | cons hline hread =>
      have hline' := hst.read _ hline
      rw [hst.operand] at hline'
      exact .cons hline' (ih hread)

theorem map_label_renamedLines {channels : Nat} {sts : List Statement} {lines : List Line}
    (hread : ReadAs channels sts lines) :
    (renamedLines ρ labels sts lines).map Line.label = (lines.map Line.label).map (Option.map ρ) := by
  induction hread with
  | nil => rfl
  | cons _ _ ih => exact congrArg _ ih

end PulseSequencer.Assembly
