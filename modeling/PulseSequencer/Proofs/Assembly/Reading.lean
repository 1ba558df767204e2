import PulseSequencer.Assembly.Line
import PulseSequencer.Proofs.Stages
import Mathlib.Data.List.Induction

/-!
# Reading the lines of a text

* `mem_statements_iff`, `statements_increasing`: the statements of a text are its lines that say
  something, each with its number, and in their order.
* `Unreadable`: why a line cannot be read: it is malformed, or repeats the label of a line before.
* `parseLinesFrom_cases`: reading goes on to the end if no line is unreadable, and otherwise stops at the
  first line that is.
-/

namespace PulseSequencer.Assembly

/-! ### The lines that say something -/

theorem mem_statements_iff {source : List Char} {st : Statement} :
    st ∈ statements source ↔ ∃ k line, (Text.fields '\n' source)[k]? = some line ∧
      strip line ≠ [] ∧ st = ⟨k + 1, strip line⟩ := by
  unfold statements
  rw [List.mem_filterMap]
  constructor
  · rintro ⟨⟨line, k⟩, hmem, hst⟩
    rw [List.mem_zipIdx_iff_getElem?] at hmem
    simp only at hst
    split at hst
    · cases hst
    · next hne => exact ⟨k, line, hmem, by simpa using hne, (Option.some.inj hst).symm⟩
  · rintro ⟨k, line, hline, hne, rfl⟩
    refine ⟨(line, k), List.mem_zipIdx_iff_getElem?.mpr hline, ?_⟩
    simp [hne]

theorem statements_increasing (source : List Char) :
    (statements source).Pairwise fun a b => a.line < b.line := by
  unfold statements
  rw [List.pairwise_filterMap]
  have hindex : (Text.fields '\n' source).zipIdx.Pairwise fun a b => a.2 < b.2 := by
    rw [List.pairwise_iff_getElem]
    intro i j hi hj hij
    simpa using hij
  refine hindex.imp ?_
  rintro ⟨line, k⟩ ⟨line', k'⟩ hlt a ha b hb
  simp only at ha hb hlt
  split at ha
  · cases ha
  · split at hb
    · cases hb
    · cases ha
      cases hb
      exact Nat.succ_lt_succ hlt

theorem statements_eq_nil_iff {source : List Char} :
    statements source = [] ↔ ∀ line ∈ Text.fields '\n' source, strip line = [] := by
  rw [List.eq_nil_iff_forall_not_mem]
  constructor
  · intro h line hline
    by_contra hne
    obtain ⟨k, hk⟩ := List.getElem?_of_mem hline
    exact h ⟨k + 1, strip line⟩ (mem_statements_iff.mpr ⟨k, line, hk, hne, rfl⟩)
  · intro h st hst
    obtain ⟨k, line, hk, hne, -⟩ := mem_statements_iff.mp hst
    exact hne (h line (List.mem_of_getElem? hk))

/-! ### One line -/

theorem parseFlags_eq_ok {channels : Nat} {token : List Char} {flags : FlagWord}
    (h : parseFlags channels token = .ok flags) : flags.fits channels = true := by
  unfold parseFlags at h
  split at h
  · cases h
  · split at h
    · cases h
    · simp only at h
      split at h
      · next hfits => cases h; exact hfits
      · cases h

/-- A line is read off its fields one by one. -/
theorem parseFields_eq_ok_iff {channels number : Nat} {first duration : List Char}
    {opcode operand : Option (List Char)} {line : Line} :
    parseFields channels number first duration opcode operand = .ok line ↔
      ∃ flags, splitLabel first = .ok (line.label, flags) ∧
        parseFlags channels flags = .ok line.flags ∧ parseDuration duration = .ok line.duration ∧
        parseOpcode opcode = .ok line.opcode ∧ line.number = number ∧
        line.operand = .written (String.ofList (operand.getD ['0'])) := by
  unfold parseFields
  constructor
  · intro h
    obtain ⟨⟨label, flags⟩, hlabel, h⟩ := bind_eq_ok_iff.mp h
    obtain ⟨_, hflags, h⟩ := bind_eq_ok_iff.mp h
    obtain ⟨_, hduration, h⟩ := bind_eq_ok_iff.mp h
    obtain ⟨_, hopcode, h⟩ := bind_eq_ok_iff.mp h
    cases h
    exact ⟨flags, hlabel, hflags, hduration, hopcode, rfl, rfl⟩
  · rintro ⟨flags, hlabel, hflags, hduration, hopcode, rfl, hoperand⟩
    refine bind_eq_ok_iff.mpr ⟨_, hlabel, bind_eq_ok_iff.mpr ⟨_, hflags, ?_⟩⟩
    refine bind_eq_ok_iff.mpr ⟨_, hduration, bind_eq_ok_iff.mpr ⟨_, hopcode, ?_⟩⟩
    rw [← hoperand]
    rfl

/-- Two to four fields are read one by one. -/
theorem parseStatement_of_fields {channels : Nat} {st : Statement} {first duration : List Char}
    {more : List (List Char)}
    (hfields : (Text.fields ',' st.text).map Text.trim = first :: duration :: more)
    (hmore : more.length ≤ 2) :
    parseStatement channels st =
      parseFields channels st.line first duration more[0]? more[1]? := by
  unfold parseStatement
  rw [hfields]
  match more, hmore with
  | [], _ => rfl
  | [opcode], _ => rfl
  | [opcode, operand], _ => rfl

/-- A line that is read has two to four fields. -/
theorem exists_fields_of_parseStatement {channels : Nat} {st : Statement} {line : Line}
    (h : parseStatement channels st = .ok line) :
    ∃ first duration more, (Text.fields ',' st.text).map Text.trim = first :: duration :: more ∧
      more.length ≤ 2 ∧
      parseFields channels st.line first duration more[0]? more[1]? = .ok line := by
  unfold parseStatement at h
  split at h
  · next first duration hfields => exact ⟨first, duration, [], hfields, by simp, h⟩
  · next first duration opcode hfields => exact ⟨first, duration, [opcode], hfields, by simp, h⟩
  · next first duration opcode operand hfields =>
    exact ⟨first, duration, [opcode, operand], hfields, by simp, h⟩
  · cases h
  · cases h
  · cases h

/-- A line that is read keeps its number, and its flags stay within the channels. -/
theorem parseStatement_eq_ok {channels : Nat} {st : Statement} {line : Line}
    (h : parseStatement channels st = .ok line) :
    line.number = st.line ∧ line.flags.fits channels = true := by
  obtain ⟨_, _, _, -, -, hfields⟩ := exists_fields_of_parseStatement h
  obtain ⟨_, -, hflags, -, -, hnumber, -⟩ := parseFields_eq_ok_iff.mp hfields
  exact ⟨hnumber, parseFlags_eq_ok hflags⟩

/-! ### All lines -/

/-- Line `n` cannot be read: it is malformed, or it repeats the label of a line before. -/
inductive Unreadable (channels : Nat) (sts : List Statement) (n : Nat) : ParseFault → Prop
  | malformed {st : Statement} {fault : ParseFault} (hst : st ∈ sts) (hn : st.line = n)
      (hread : parseStatement channels st = .error fault) : Unreadable channels sts n fault
  | repeated {st first : Statement} {line firstLine : Line} {label : String} (hst : st ∈ sts)
      (hn : st.line = n) (hread : parseStatement channels st = .ok line)
      (hlabel : line.label = some label) (hfirst : first ∈ sts) (hbefore : first.line < n)
      (hfirstRead : parseStatement channels first = .ok firstLine)
      (hfirstLabel : firstLine.label = some label) :
    Unreadable channels sts n (.duplicateLabel label)

theorem Unreadable.exists_statement {channels n : Nat} {sts : List Statement} {fault : ParseFault}
    (h : Unreadable channels sts n fault) : ∃ st ∈ sts, st.line = n := by
  rcases h with ⟨hst, hn, -⟩ | ⟨hst, hn, -⟩
  · exact ⟨_, hst, hn⟩
  · exact ⟨_, hst, hn⟩

/-- Each statement is read as the line in its place. -/
abbrev ReadAs (channels : Nat) : List Statement → List Line → Prop :=
  List.Forall₂ fun st line => parseStatement channels st = .ok line

/-- No label stands in two lines. -/
abbrev DistinctLabels (lines : List Line) : Prop :=
  lines.Pairwise fun a b => ∀ label, b.label = some label → a.label ≠ some label

section Lines

variable {channels : Nat} {done rest : List Statement} {st s : Statement} {seen : List Line}
  {fault : ParseFault}

/-- The lines before one of the statements are those of the statements in front of it. -/
theorem mem_done_iff (hsorted : (done ++ s :: rest).Pairwise fun a b => a.line < b.line)
    (hst : st ∈ done ++ s :: rest) : st ∈ done ↔ st.line < s.line := by
  obtain ⟨-, hrest, hcross⟩ := List.pairwise_append.mp hsorted
  constructor
  · intro h
    exact hcross st h s List.mem_cons_self
  · intro hlt
    rcases List.mem_append.mp hst with h | h
    · exact h
    · rcases List.mem_cons.mp h with rfl | h
      · omega
      · have := (List.pairwise_cons.mp hrest).1 st h
        omega

/-- No two statements are of the same line. -/
theorem eq_of_line_eq (hsorted : (done ++ s :: rest).Pairwise fun a b => a.line < b.line)
    (hst : st ∈ done ++ s :: rest) (hline : st.line = s.line) : st = s := by
  have hdone : st ∉ done := by
    rw [mem_done_iff hsorted hst]
    omega
  rcases List.mem_append.mp hst with h | h
  · exact absurd h hdone
  · rcases List.mem_cons.mp h with h | h
    · exact h
    · have := (List.pairwise_cons.mp (List.pairwise_append.mp hsorted).2.1).1 st h
      omega

/-- Once the lines before have been read, only the line itself and their labels matter. -/
theorem unreadable_iff (hsorted : (done ++ s :: rest).Pairwise fun a b => a.line < b.line)
    (hread : ReadAs channels done seen.reverse) (fault : ParseFault) :
    Unreadable channels (done ++ s :: rest) s.line fault ↔
      parseStatement channels s = .error fault ∨
      ∃ line label, parseStatement channels s = .ok line ∧ line.label = some label ∧
        fault = .duplicateLabel label ∧ ∃ before ∈ seen, before.label = some label := by
  constructor
  · rintro (⟨hst, hn, herror⟩ | @⟨st, first, line, firstLine, label, hst, hn, hline, hlabel, hfirst,
      hbefore, hfirstRead, hfirstLabel⟩)
    · rw [eq_of_line_eq hsorted hst hn] at herror
      exact .inl herror
    · rw [eq_of_line_eq hsorted hst hn] at hline
      obtain ⟨before, hmem, hok⟩ :=
        exists_right_of_mem hread ((mem_done_iff hsorted hfirst).mpr hbefore)
      obtain rfl : firstLine = before := Except.ok.inj (hfirstRead.symm.trans hok)
      exact .inr ⟨line, label, hline, hlabel, rfl, firstLine, List.mem_reverse.mp hmem, hfirstLabel⟩
  · have hmem : s ∈ done ++ s :: rest := by simp
    rintro (herror | ⟨line, label, hline, hlabel, rfl, before, hbefore, hbeforeLabel⟩)
    · exact .malformed hmem rfl herror
    · obtain ⟨first, hfirst, hok⟩ := exists_left_of_mem hread (List.mem_reverse.mpr hbefore)
      have hmem' : first ∈ done ++ s :: rest := List.mem_append_left _ hfirst
      exact .repeated hmem rfl hline hlabel hmem' ((mem_done_iff hsorted hmem').mp hfirst) hok
        hbeforeLabel

theorem parseLinesFrom_malformed (h : parseStatement channels s = .error fault) :
    parseLinesFrom channels seen (s :: rest) = .error (.parse s.line fault) := by
  rw [parseLinesFrom, h]

theorem parseLinesFrom_repeated {line : Line} {label : String}
    (h : parseStatement channels s = .ok line) (hlabel : line.label = some label)
    (hseen : ∃ before ∈ seen, before.label = some label) :
    parseLinesFrom channels seen (s :: rest) = .error (.parse s.line (.duplicateLabel label)) := by
  rw [parseLinesFrom, h]
  simp only [hlabel]
  rw [if_pos (by simpa using hseen)]

theorem parseLinesFrom_new {line : Line} (h : parseStatement channels s = .ok line)
    (hnew : ∀ label, line.label = some label → ∀ before ∈ seen, before.label ≠ some label) :
    parseLinesFrom channels seen (s :: rest) = parseLinesFrom channels (line :: seen) rest := by
  rw [parseLinesFrom, h]
  cases hlabel : line.label with
  | none => simp only [hlabel]
  | some label =>
    simp only [hlabel]
    rw [if_neg (by simpa using hnew label hlabel)]

/-- Reading stops at the first line that cannot be read, with what is wrong there; if there is none,
it gets to the end. -/
theorem parseLinesFrom_cases
    (hsorted : (done ++ rest).Pairwise fun a b => a.line < b.line)
    (hread : ReadAs channels done seen.reverse)
    (hclean : ∀ st ∈ done, ∀ fault, ¬ Unreadable channels (done ++ rest) st.line fault) :
    (∃ lines, parseLinesFrom channels seen rest = .ok lines ∧
      ReadAs channels (done ++ rest) lines ∧
      ∀ n fault, ¬ Unreadable channels (done ++ rest) n fault) ∨
    ∃ n fault, parseLinesFrom channels seen rest = .error (.parse n fault) ∧
      Unreadable channels (done ++ rest) n fault ∧
      ∀ m < n, ∀ fault, ¬ Unreadable channels (done ++ rest) m fault := by
  induction rest generalizing done seen with
  | nil =>
    refine .inl ⟨seen.reverse, rfl, by simpa using hread, ?_⟩
    intro n fault h
    obtain ⟨st, hst, rfl⟩ := h.exists_statement
    exact hclean st (by simpa using hst) fault h
  | cons s rest ih =>
    -- an unreadable line before this one would have been met already
    have hfirst : ∀ m < s.line, ∀ fault, ¬ Unreadable channels (done ++ s :: rest) m fault := by
      intro m hm fault h
      obtain ⟨st, hst, rfl⟩ := h.exists_statement
      exact hclean st ((mem_done_iff hsorted hst).mpr hm) fault h
    have hhere := unreadable_iff hsorted hread
    cases hline : parseStatement channels s with
    | error fault =>
      rw [parseLinesFrom_malformed hline]
      exact .inr ⟨s.line, fault, rfl, (hhere fault).mpr (.inl hline), hfirst⟩
    | ok line =>
      by_cases hseen : ∃ label, line.label = some label ∧ ∃ before ∈ seen, before.label = some label
      · obtain ⟨label, hlabel, hseen⟩ := hseen
        rw [parseLinesFrom_repeated hline hlabel hseen]
        refine .inr ⟨s.line, _, rfl, (hhere _).mpr (.inr ?_), hfirst⟩
        exact ⟨line, label, hline, hlabel, rfl, hseen⟩
      · rw [parseLinesFrom_new hline fun label hlabel before hbefore hsame =>
          hseen ⟨label, hlabel, before, hbefore, hsame⟩]
        have happend : done ++ s :: rest = (done ++ [s]) ++ rest := by simp
        rw [happend] at hsorted hclean hhere ⊢
        apply ih hsorted
        · rw [List.reverse_cons]
          exact List.rel_append hread (.cons hline .nil)
        · intro st hst fault h
          rcases List.mem_append.mp hst with hst | hst
          · exact hclean st hst fault h
          · rw [List.mem_singleton.mp hst, hhere] at h
            rcases h with herror | ⟨line', label, hline', hlabel, -, before, hbefore, hsame⟩
            · rw [hline] at herror
              cases herror
            · obtain rfl : line = line' := Except.ok.inj (hline.symm.trans hline')
              exact hseen ⟨label, hlabel, before, hbefore, hsame⟩

/-- Statements that are read one by one, with no label twice, are read together. -/
theorem parseLinesFrom_of_readAs {lines : List Line} (hread : ReadAs channels rest lines)
    (hlabels : DistinctLabels (seen.reverse ++ lines)) :
    parseLinesFrom channels seen rest = .ok (seen.reverse ++ lines) := by
  induction hread generalizing seen with
  | nil =>
    rw [parseLinesFrom, List.append_nil]
  | @cons st line rest lines hline _ ih =>
    obtain ⟨-, -, hcross⟩ := List.pairwise_append.mp hlabels
    rw [parseLinesFrom_new hline fun label hlabel before hbefore =>
      hcross before (List.mem_reverse.mpr hbefore) line List.mem_cons_self label hlabel]
    have hreverse : seen.reverse ++ line :: lines = (line :: seen).reverse ++ lines := by simp
    rw [hreverse] at hlabels ⊢
    exact ih hlabels

/-- Lines that are read together are read one by one, and no label stands twice. -/
theorem readAs_of_parseLinesFrom {out : List Line} (h : parseLinesFrom channels seen rest = .ok out)
    (hseen : DistinctLabels seen.reverse) :
    DistinctLabels out ∧ ∃ lines, out = seen.reverse ++ lines ∧ ReadAs channels rest lines := by
  induction rest generalizing seen with
  | nil =>
    cases h
    exact ⟨hseen, [], (List.append_nil _).symm, .nil⟩
  | cons st rest ih =>
    cases hline : parseStatement channels st with
    | error fault =>
      rw [parseLinesFrom_malformed hline] at h
      cases h
    | ok line =>
      by_cases hrepeated : ∃ label, line.label = some label ∧
          ∃ before ∈ seen, before.label = some label
      · obtain ⟨label, hlabel, hbefore⟩ := hrepeated
        rw [parseLinesFrom_repeated hline hlabel hbefore] at h
        cases h
      · have hnew : ∀ label, line.label = some label → ∀ before ∈ seen, before.label ≠ some label :=
          fun label hlabel before hbefore hsame => hrepeated ⟨label, hlabel, before, hbefore, hsame⟩
        rw [parseLinesFrom_new hline hnew] at h
        have hdistinct : DistinctLabels (line :: seen).reverse := by
          rw [List.reverse_cons]
          refine List.pairwise_append.mpr ⟨hseen, List.pairwise_singleton _ _, ?_⟩
          intro before hbefore _ hmem label hlabel
          rw [List.mem_singleton.mp hmem] at hlabel
          exact hnew label hlabel before (List.mem_reverse.mp hbefore)
        obtain ⟨hout, lines, rfl, hread⟩ := ih h hdistinct
        exact ⟨hout, line :: lines, by simp, .cons hline hread⟩

end Lines

end PulseSequencer.Assembly
