import PulseSequencer.Proofs.Text.Token

/-!
# Fields with blanks around them

What a field says is what is left of it without tabs and without the blanks at its ends.  It does not
matter whether these are taken off a text before it is cut or off its fields afterwards, and what a field
says can be exchanged for something else in its place.

* `blanks_append`, `exchange`: a text is what it says with blanks around it.
* `fields_filter`, `map_trim_fields_trim`, `map_trim_fields_said`: cutting and trimming in either order.
* `cutAt_cases`, `cutAt_said`: the same for the first separator only.
* `fields_joinFields`, `exists_joinFields`: fields glued together, with one of them exchanged.
-/

namespace PulseSequencer.Text

variable {sep : Char} {cs : List Char}

/-- The text without its tabs and the blanks at its ends. -/
def said (cs : List Char) : List Char :=
  trim (cs.filter (· != '\t'))

/-! ### Blanks at the ends -/

/-- The blanks in front of what a text says. -/
def leadingBlanks (cs : List Char) : List Char :=
  cs.takeWhile isBlank

/-- The blanks behind what a text says. -/
def trailingBlanks (cs : List Char) : List Char :=
  ((trimStart cs).reverse.takeWhile isBlank).reverse

theorem trimEnd_append (cs : List Char) :
    trimEnd cs ++ (cs.reverse.takeWhile isBlank).reverse = cs := by
  rw [trimEnd, trimStart, ← List.reverse_append, List.takeWhile_append_dropWhile,
    List.reverse_reverse]

theorem blanks_append (cs : List Char) :
    leadingBlanks cs ++ trim cs ++ trailingBlanks cs = cs := by
  rw [List.append_assoc, trim, trailingBlanks, trimEnd_append, leadingBlanks, trimStart,
    List.takeWhile_append_dropWhile]

theorem isBlank_of_mem_leadingBlanks : ∀ c ∈ leadingBlanks cs, isBlank c = true :=
  fun _ hc => List.mem_takeWhile_imp hc

theorem isBlank_of_mem_trailingBlanks : ∀ c ∈ trailingBlanks cs, isBlank c = true :=
  fun _ hc => List.mem_takeWhile_imp (List.mem_reverse.mp hc)

/-- The text with something else in the place of what it says. -/
def exchange (new cs : List Char) : List Char :=
  leadingBlanks cs ++ new ++ trailingBlanks cs

theorem said_exchange {new : List Char} (hname : Name new) (cs : List Char) :
    said (exchange new cs) = new := by
  have hnew : new.filter (· != '\t') = new :=
    List.filter_eq_self.mpr fun c hc => bne_iff_ne.mpr fun htab => hname.no_tab (htab ▸ hc)
  rw [said, exchange, List.filter_append, List.filter_append, hnew, trim_append_blanks,
    trim_blanks_append, hname.trim_eq]
  · exact fun c hc => isBlank_of_mem_leadingBlanks c (List.mem_of_mem_filter hc)
  · exact fun c hc => isBlank_of_mem_trailingBlanks c (List.mem_of_mem_filter hc)

/-- Trimming gets no further than a character that is no blank. -/
theorem trim_append_cons {c : Char} (hc : isBlank c = false) (a b : List Char) :
    trim (a ++ c :: b) = trimStart a ++ c :: trimEnd b := by
  have hstart : ∀ a b : List Char, trimStart (a ++ c :: b) = trimStart a ++ c :: b := by
    intro a b
    rw [trimStart, List.dropWhile_append, List.dropWhile_cons_of_neg (by simp [hc])]
    split
    · next hempty => rw [trimStart, List.isEmpty_iff.mp hempty, List.nil_append]
    · rfl
  rw [trim, hstart, trimEnd, List.reverse_append, List.reverse_cons, List.append_assoc,
    List.singleton_append, hstart, List.reverse_append, List.reverse_cons, List.reverse_reverse,
    List.append_assoc, List.singleton_append, trimEnd]

theorem trim_trimStart (cs : List Char) : trim (trimStart cs) = trim cs := by
  conv_rhs => rw [← List.takeWhile_append_dropWhile (p := isBlank) (l := cs),
    trim_blanks_append fun _ => List.mem_takeWhile_imp]
  rfl

theorem trim_trimEnd (cs : List Char) : trim (trimEnd cs) = trim cs := by
  conv_rhs => rw [← trimEnd_append cs,
    trim_append_blanks fun _ hc => List.mem_takeWhile_imp (List.mem_reverse.mp hc)]

theorem trim_trim (cs : List Char) : trim (trim cs) = trim cs :=
  (trim_trimEnd (trimStart cs)).trans (trim_trimStart cs)

/-! ### Cutting everywhere -/

theorem fields_filter {p : Char → Bool} (hsep : p sep = true) (cs : List Char) :
    fields sep (cs.filter p) = (fields sep cs).map (List.filter p) := by
  induction cs with
  | nil => rfl
  | cons c cs ih =>
    by_cases hc : c = sep
    · subst hc
      rw [List.filter_cons_of_pos hsep, fields_cons, if_pos rfl, fields_cons, if_pos rfl, ih]
      rfl
    · obtain ⟨hfirst, hrest⟩ := List.cons_eq_cons.mp ih
      rw [fields_cons, if_neg hc, List.map_cons, List.filter_cons, List.filter_cons]
      split
      · rw [fields_cons, if_neg hc, hfirst, hrest]
      · rw [ih]
        rfl

theorem fields_prepend {pre : List Char} (hpre : sep ∉ pre) (cs : List Char) :
    fields sep (pre ++ cs) = (pre ++ (splitFields sep cs).1) :: (splitFields sep cs).2 := by
  induction pre with
  | nil => rfl
  | cons c pre ih =>
    have hc : c ≠ sep := fun hc => hpre (hc ▸ List.mem_cons_self)
    obtain ⟨hfirst, hrest⟩ := List.cons_eq_cons.mp
      (ih fun hmem => hpre (List.mem_cons_of_mem _ hmem))
    rw [List.cons_append, fields_cons, if_neg hc, hfirst, hrest, List.cons_append]

/-- What follows the last separator belongs to the last field. -/
theorem exists_fields_append {post : List Char} (hpost : sep ∉ post) (cs : List Char) :
    ∃ front last, fields sep cs = front ++ [last] ∧
      fields sep (cs ++ post) = front ++ [last ++ post] := by
  induction cs with
  | nil => exact ⟨[], [], rfl, fields_of_not_mem hpost⟩
  | cons c cs ih =>
    obtain ⟨front, last, hcs, hboth⟩ := ih
    by_cases hc : c = sep
    · refine ⟨[] :: front, last, ?_, ?_⟩
      · rw [fields_cons, if_pos hc, hcs, List.cons_append]
      · rw [List.cons_append, fields_cons, if_pos hc, hboth, List.cons_append]
    · rw [List.cons_append, fields_cons, if_neg hc, fields_cons, if_neg hc]
      cases front with
      | nil =>
        obtain ⟨hfirst, hrest⟩ := List.cons_eq_cons.mp hcs
        obtain ⟨hfirst', hrest'⟩ := List.cons_eq_cons.mp hboth
        exact ⟨[], c :: last, by rw [hfirst, hrest]; rfl, by rw [hfirst', hrest']; rfl⟩
      | cons first front =>
        obtain ⟨hfirst, hrest⟩ := List.cons_eq_cons.mp hcs
        obtain ⟨hfirst', hrest'⟩ := List.cons_eq_cons.mp hboth
        exact ⟨(c :: first) :: front, last, by rw [hfirst, hrest]; rfl,
          by rw [hfirst', hrest']; rfl⟩

theorem map_trim_fields_trim (hsep : isBlank sep = false) (cs : List Char) :
    (fields sep (trim cs)).map trim = (fields sep cs).map trim := by
  have hnot : ∀ {bs : List Char}, (∀ c ∈ bs, isBlank c = true) → sep ∉ bs := by
    intro bs hbs hmem
    rw [hbs sep hmem] at hsep
    cases hsep
  obtain ⟨front, last, hfields, hbehind⟩ :=
    exists_fields_append (hnot isBlank_of_mem_trailingBlanks) (leadingBlanks cs ++ trim cs)
  rw [blanks_append] at hbehind
  rw [hbehind, List.map_append, List.map_singleton,
    trim_append_blanks isBlank_of_mem_trailingBlanks, ← List.map_singleton, ← List.map_append,
    ← hfields, fields_prepend (hnot isBlank_of_mem_leadingBlanks), List.map_cons,
    trim_blanks_append isBlank_of_mem_leadingBlanks]
  rfl

/-- What the fields say is the same before and after the trimming of the whole text. -/
theorem map_trim_fields_said (hblank : isBlank sep = false) (htab : sep ≠ '\t') (cs : List Char) :
    (fields sep (said cs)).map trim = (fields sep cs).map said := by
  rw [said, map_trim_fields_trim hblank, fields_filter (by simpa using htab), List.map_map]
  rfl

/-! ### Cutting once -/

theorem cutAt_cases (sep : Char) (cs : List Char) :
    (cutAt sep cs = none ∧ sep ∉ cs) ∨
      ∃ a b, cutAt sep cs = some (a, b) ∧ cs = a ++ sep :: b ∧ sep ∉ a := by
  by_cases hmem : sep ∈ cs
  · obtain ⟨a, b, rfl, hnot⟩ := List.eq_append_cons_of_mem hmem
    exact .inr ⟨a, b, cutAt_append hnot b, rfl, hnot⟩
  · exact .inl ⟨cutAt_of_not_mem hmem, hmem⟩

theorem said_subset : said cs ⊆ cs := by
  intro c hc
  have htrim : trim (cs.filter (· != '\t')) ⊆ cs.filter (· != '\t') := by
    conv_rhs => rw [← blanks_append (cs.filter (· != '\t'))]
    simp
  exact List.mem_of_mem_filter (htrim hc)

/-- A text that is cut is cut at the same place in what it says. -/
theorem cutAt_said (hblank : isBlank sep = false) (htab : sep ≠ '\t') {a b : List Char}
    (hnot : sep ∉ a) : ∃ a' b', cutAt sep (said (a ++ sep :: b)) = some (a', b') ∧
      trim a' = said a ∧ trim b' = said b := by
  refine ⟨trimStart (a.filter (· != '\t')), trimEnd (b.filter (· != '\t')), ?_, trim_trimStart _,
    trim_trimEnd _⟩
  rw [said, List.filter_append, List.filter_cons_of_pos (by simpa using htab),
    trim_append_cons hblank, cutAt_append]
  exact fun hmem => hnot (List.mem_of_mem_filter ((List.dropWhile_suffix _).subset hmem))

/-! ### Gluing -/

theorem joinFields_eq_intercalate (sep : Char) (fs : List (List Char)) :
    joinFields sep fs = [sep].intercalate fs := by
  induction fs with
  | nil => rfl
  | cons f fs ih =>
    cases fs with
    | nil => rw [joinFields, List.intercalate_singleton]
    | cons g fs =>
      rw [joinFields, ih, List.intercalate_cons_cons, List.append_assoc, List.singleton_append]

theorem fields_joinFields {fs : List (List Char)} (hne : fs ≠ []) (h : ∀ f ∈ fs, sep ∉ f) :
    fields sep (joinFields sep fs) = fs := by
  rw [joinFields_eq_intercalate, fields_intercalate hne h]

/-- One field stands between what the fields before and behind it are glued to. -/
theorem exists_joinFields (sep : Char) (front back : List (List Char)) :
    ∃ a b, ∀ f, joinFields sep (front ++ f :: back) = a ++ f ++ b := by
  induction front with
  | nil =>
    cases back with
    | nil => exact ⟨[], [], fun f => by simp [joinFields]⟩
    | cons g back => exact ⟨[], sep :: joinFields sep (g :: back), fun f => rfl⟩
  | cons g front ih =>
    obtain ⟨a, b, h⟩ := ih
    refine ⟨g ++ sep :: a, b, fun f => ?_⟩
    have hjoin : joinFields sep (g :: (front ++ f :: back)) =
        g ++ sep :: joinFields sep (front ++ f :: back) := by
      cases front <;> rfl
    rw [List.cons_append, hjoin, h f]
    simp

end PulseSequencer.Text
