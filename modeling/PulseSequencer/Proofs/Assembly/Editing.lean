import PulseSequencer.Proofs.Assembly.Layout
import PulseSequencer.Proofs.Assembly.Numbering

/-!
# Layout does not matter

Blank lines, comments, spaces at the ends of lines, tabs and carriage returns can be put into a text and
most of them taken out again without a change of what the text is assembled to; an error stays the same
error at the same line, whatever its number is now.

* `LineEdit`, `Edit`, `Edits`: the changes of a line, of the lines of a text, and any number of them.
* `strip_lineEdit`: no change of a line changes what it says.
* `statementsFrom_edit`, `statementsFrom_edits`: the statements stay, with new numbers.
* `assemble_edits`: all together.
-/

namespace PulseSequencer.Assembly

/-- A change of the layout of a line. -/
inductive LineEdit : List Char → List Char → Prop
  | addComment (line comment : List Char) : LineEdit line (line ++ ' ' :: '/' :: '/' :: comment)
  | addSpaceBefore (line : List Char) : LineEdit line (' ' :: line)
  | dropSpaceBefore (line : List Char) : LineEdit (' ' :: line) line
  | addSpaceBehind (line : List Char) : LineEdit line (line ++ [' '])
  | dropSpaceBehind (line : List Char) : LineEdit (line ++ [' ']) line
  /-- Two slashes side by side must not be torn apart. -/
  | addTab (front back : List Char)
      (hslashes : ¬ (front.getLast? = some '/' ∧ back.head? = some '/')) :
    LineEdit (front ++ back) (front ++ '\t' :: back)
  | addReturn (line : List Char) : LineEdit line (line ++ ['\r'])
  | dropReturn (line : List Char) : LineEdit (line ++ ['\r']) line

/-- A change of the layout of the lines of a text, and where the line of each number is found then. -/
inductive Edit : List (List Char) → List (List Char) → (Nat → Nat) → Prop
  | insert (front back : List (List Char)) {line : List Char} (hblank : strip line = []) :
    Edit (front ++ back) (front ++ line :: back) fun n => if n ≤ front.length then n else n + 1
  | remove (front back : List (List Char)) {line : List Char} (hblank : strip line = []) :
    Edit (front ++ line :: back) (front ++ back) fun n => if n ≤ front.length then n else n - 1
  | change (front back : List (List Char)) {line line' : List Char} (hline : LineEdit line line') :
    Edit (front ++ line :: back) (front ++ line' :: back) id

/-- Changes of the layout one after the other. -/
inductive Edits (lines : List (List Char)) : List (List Char) → (Nat → Nat) → Prop
  | refl : Edits lines lines id
  | step {mid lines' : List (List Char)} {move next : Nat → Nat} (hedits : Edits lines mid move)
      (hedit : Edit mid lines' next) : Edits lines lines' (next ∘ move)

/-! ### One line -/

/-- A character that is no slash, and what follows it, is either in the comment or behind the line. -/
theorem cutComment_append_cons {c : Char} (hc : c ≠ '/') (line rest : List Char) :
    cutComment (line ++ c :: rest) = cutComment line ∨
      cutComment (line ++ c :: rest) = cutComment line ++ c :: cutComment rest := by
  induction line with
  | nil => exact .inr (cutComment_cons_of_ne hc rest)
  | cons d line ih =>
    by_cases hstart : ['/', '/'] <+: d :: line
    · obtain ⟨rest', hrest'⟩ := hstart
      left
      rw [← hrest']
      rfl
    · have hstart' : ¬ ['/', '/'] <+: d :: (line ++ c :: rest) := by
        intro hstart'
        obtain ⟨rfl, hnext⟩ := List.cons_prefix_cons.mp hstart'
        cases line with
        | nil => exact hc (List.cons_prefix_cons.mp hnext).1.symm
        | cons d' line =>
          obtain ⟨rfl, -⟩ := List.cons_prefix_cons.mp hnext
          exact hstart (List.prefix_append ['/', '/'] line)
      rw [List.cons_append, cutComment_cons hstart, cutComment_cons hstart']
      rcases ih with ih | ih
      · exact .inl (by rw [ih])
      · exact .inr (by rw [ih, List.cons_append])

/-- A blank at the end of a line, with nothing or a comment behind it, is not looked at. -/
theorem strip_append_blank {c : Char} (hc : Text.isBlank c = true) {rest : List Char}
    (hrest : cutComment rest = []) (line : List Char) : strip (line ++ c :: rest) = strip line := by
  have hslash : c ≠ '/' := by
    rintro rfl
    cases hc
  unfold strip
  rcases cutComment_append_cons hslash line rest with h | h
  · rw [h]
  · rw [h, hrest, List.filter_append, Text.trim_append_blanks]
    intro d hd
    rw [List.mem_singleton.mp (List.mem_of_mem_filter hd)]
    exact hc

theorem strip_space_cons (line : List Char) : strip (' ' :: line) = strip line := by
  have hblank : ∀ c ∈ [' '], Text.isBlank c = true := by simp [Text.isBlank]
  unfold strip
  rw [cutComment_cons_of_ne (by decide), List.filter_cons_of_pos (by decide), ← List.singleton_append,
    Text.trim_blanks_append hblank]

/-- A tab that tears no two slashes apart leaves the comment where it is. -/
theorem filter_cutComment_tab {front back : List Char}
    (hslashes : ¬ (front.getLast? = some '/' ∧ back.head? = some '/')) :
    (cutComment (front ++ '\t' :: back)).filter (· != '\t') =
      (cutComment (front ++ back)).filter (· != '\t') := by
  induction front with
  | nil =>
    rw [List.nil_append, cutComment_cons_of_ne (by decide), List.filter_cons_of_neg (by decide),
      List.nil_append]
  | cons c front ih =>
    cases front with
    | nil =>
      -- the first slash of a comment would have its second one behind the tab
      have hstart : ¬ ['/', '/'] <+: c :: '\t' :: back := fun hstart =>
        absurd (List.cons_prefix_cons.mp (List.cons_prefix_cons.mp hstart).2).1 (by decide)
      have hstart' : ¬ ['/', '/'] <+: c :: back := by
        intro hstart'
        obtain ⟨rfl, hnext⟩ := List.cons_prefix_cons.mp hstart'
        obtain ⟨rest, rfl⟩ := hnext
        exact hslashes ⟨rfl, rfl⟩
      have ih := ih (by simp)
      simp only [List.cons_append, List.nil_append] at ih ⊢
      rw [cutComment_cons hstart, cutComment_cons hstart', List.filter_cons, List.filter_cons, ih]
    | cons d front =>
      have ih := ih (by simpa using hslashes)
      by_cases hcomment : c = '/' ∧ d = '/'
      · obtain ⟨rfl, rfl⟩ := hcomment
        rfl
      · have hstart : ∀ rest, ¬ ['/', '/'] <+: c :: d :: rest := by
          intro rest hstart
          obtain ⟨rfl, hnext⟩ := List.cons_prefix_cons.mp hstart
          exact hcomment ⟨rfl, (List.cons_prefix_cons.mp hnext).1.symm⟩
        simp only [List.cons_append] at ih ⊢
        rw [cutComment_cons (hstart _), cutComment_cons (hstart _), List.filter_cons,
          List.filter_cons, ih]

theorem strip_lineEdit {line line' : List Char} (h : LineEdit line line') :
    strip line' = strip line := by
  cases h with
  | addComment comment => exact strip_append_blank rfl rfl line
  | addSpaceBefore => exact strip_space_cons line
  | dropSpaceBefore => exact (strip_space_cons line').symm
  | addSpaceBehind => exact strip_append_blank rfl rfl line
  | dropSpaceBehind => exact (strip_append_blank rfl rfl line').symm
  | addTab front back hslashes => rw [strip, filter_cutComment_tab hslashes, strip]
  | addReturn => exact strip_append_blank rfl rfl line
  | dropReturn => exact (strip_append_blank rfl rfl line').symm

/-! ### The lines of a text -/

/-- The lines that say something among lines with the given number in front of them. -/
def statementsFrom (k : Nat) (lines : List (List Char)) : List Statement :=
  (lines.zipIdx k).filterMap fun (line, index) =>
    let text := strip line
    if text.isEmpty then none else some ⟨index + 1, text⟩

theorem statements_eq_statementsFrom (source : List Char) :
    statements source = statementsFrom 0 (Text.fields '\n' source) := rfl

section Statements

variable {k : Nat} {line : List Char} {lines : List (List Char)}

theorem statementsFrom_append (k : Nat) (front back : List (List Char)) :
    statementsFrom k (front ++ back) = statementsFrom k front ++ statementsFrom (k + front.length) back := by
  rw [statementsFrom, List.zipIdx_append, List.filterMap_append]
  rfl

theorem statementsFrom_blank (hblank : strip line = []) (k : Nat) (lines : List (List Char)) :
    statementsFrom k (line :: lines) = statementsFrom (k + 1) lines := by
  rw [statementsFrom, List.zipIdx_cons, List.filterMap_cons_none (by simp [hblank])]
  rfl

theorem statementsFrom_congr {line' : List Char} (h : strip line' = strip line) (k : Nat)
    (lines : List (List Char)) :
    statementsFrom k (line' :: lines) = statementsFrom k (line :: lines) := by
  simp only [statementsFrom, List.zipIdx_cons, List.filterMap_cons, h]

theorem statementsFrom_succ (k : Nat) (lines : List (List Char)) :
    statementsFrom (k + 1) lines = (statementsFrom k lines).map (Statement.renumber (· + 1)) := by
  rw [statementsFrom, statementsFrom, List.zipIdx_succ, List.filterMap_map, List.map_filterMap]
  refine List.filterMap_congr fun x _ => ?_
  simp only [Function.comp_apply]
  split <;> rfl

theorem line_of_mem_statementsFrom {st : Statement} (h : st ∈ statementsFrom k lines) :
    k < st.line ∧ st.line ≤ k + lines.length := by
  obtain ⟨⟨line, index⟩, hmem, hst⟩ := List.mem_filterMap.mp h
  have hlow : k ≤ index := List.le_snd_of_mem_zipIdx hmem
  have hhigh : index < k + lines.length := List.snd_lt_add_of_mem_zipIdx hmem
  simp only at hst
  split at hst
  · cases hst
  · cases hst
    dsimp only
    omega

/-- The lines in front keep their numbers, and those behind get others. -/
theorem map_renumber_statementsFrom {move g : Nat → Nat} {front back : List (List Char)}
    (hfront : ∀ n ≤ front.length, move n = n) (hback : ∀ n, front.length < n → move n = g n) :
    (statementsFrom 0 (front ++ back)).map (Statement.renumber move) = statementsFrom 0 front ++
      (statementsFrom front.length back).map (Statement.renumber g) := by
  rw [statementsFrom_append, List.map_append, Nat.zero_add]
  congr 1
  · refine (List.map_congr_left fun st hst => ?_).trans (List.map_id _)
    have hline := line_of_mem_statementsFrom hst
    rw [Statement.renumber, hfront st.line (by omega), id]
  · refine List.map_congr_left fun st hst => ?_
    rw [Statement.renumber, hback st.line (line_of_mem_statementsFrom hst).1, Statement.renumber]

/-- One change of the layout. -/
theorem statementsFrom_edit {lines' : List (List Char)} {move : Nat → Nat}
    (h : Edit lines lines' move) :
    statementsFrom 0 lines' = (statementsFrom 0 lines).map (Statement.renumber move) := by
  cases h with
  | insert front back hblank =>
    rw [map_renumber_statementsFrom (g := (· + 1)) (fun n hn => if_pos hn)
      (fun n hn => if_neg (by omega)), statementsFrom_append, statementsFrom_blank hblank,
      statementsFrom_succ, Nat.zero_add]
  | remove front back hblank =>
    rw [map_renumber_statementsFrom (g := (· - 1)) (fun n hn => if_pos hn)
      (fun n hn => if_neg (by omega)), statementsFrom_append, statementsFrom_blank hblank,
      statementsFrom_succ, Nat.zero_add, List.map_map]
    congr 1
    exact (List.map_id _).symm
  | change front back hline =>
    rw [statementsFrom_append, statementsFrom_append, statementsFrom_congr (strip_lineEdit hline)]
    exact (List.map_id _).symm

/-- Any number of changes: the induction is over them, and the moves are made one after the other. -/
theorem statementsFrom_edits {lines' : List (List Char)} {move : Nat → Nat}
    (h : Edits lines lines' move) :
    statementsFrom 0 lines' = (statementsFrom 0 lines).map (Statement.renumber move) := by
  induction h with
  | refl => exact (List.map_id _).symm
  | step hedits hedit ih =>
    rw [statementsFrom_edit hedit, ih, List.map_map]
    rfl

end Statements

/-- Changes of the layout of a text keep what it is assembled to.  An error stays the same error and moves
with its line: a line that says something says the same at the number that it moves to. -/
theorem assemble_edits {source source' : String} {move : Nat → Nat}
    (h : Edits (Text.fields '\n' source.toList) (Text.fields '\n' source'.toList) move)
    (channels : Nat) (limits : Limits) :
    (∀ k line, (Text.fields '\n' source.toList)[k]? = some line → strip line ≠ [] →
      ∃ k' line', (Text.fields '\n' source'.toList)[k']? = some line' ∧
        move (k + 1) = k' + 1 ∧ strip line' = strip line) ∧
    assemble source' channels limits =
      (assemble source channels limits).mapError (CompileError.relocate move) := by
  have hstatements : statements source'.toList =
      (statements source.toList).map (Statement.renumber move) := by
    rw [statements_eq_statementsFrom, statements_eq_statementsFrom, statementsFrom_edits h]
  refine ⟨?_, assemble_renumber hstatements channels limits⟩
  intro k line hline hne
  have hmem : (⟨k + 1, strip line⟩ : Statement).renumber move ∈ statements source'.toList := by
    rw [hstatements]
    exact List.mem_map_of_mem (mem_statements_iff.mpr ⟨k, line, hline, hne, rfl⟩)
  obtain ⟨k', line', hline', -, heq⟩ := mem_statements_iff.mp hmem
  obtain ⟨hmove, hstrip⟩ := Statement.mk.inj heq
  exact ⟨k', line', hline', hmove, hstrip.symm⟩

/-- A comment in front, a tab, a comment and a carriage return: the line at fault is the second now. -/
theorem assemble_edits_framed :
    Edits (Text.fields '\n' "0x1".toList) (Text.fields '\n' "// start\n0\tx1 // flags\r".toList)
        (fun n => if n ≤ 0 then n else n + 1) ∧
      assemble "0x1" 24 {} = .error (.parse 1 (.tooFewFields "0x1")) ∧
      assemble "// start\n0\tx1 // flags\r" 24 {} = .error (.parse 2 (.tooFewFields "0x1")) := by
  have hedits : Edits (Text.fields '\n' "0x1".toList)
      (Text.fields '\n' "// start\n0\tx1 // flags\r".toList)
      (fun n => if n ≤ 0 then n else n + 1) := by
    have hcommented : Edits ["0x1".toList] ["// start".toList, "0x1".toList] _ :=
      .step .refl (.insert [] ["0x1".toList] rfl)
    have htabbed : Edits ["0x1".toList] ["// start".toList, "0\tx1".toList] _ :=
      hcommented.step (.change ["// start".toList] [] (.addTab ['0'] ['x', '1'] (by decide)))
    have hexplained : Edits ["0x1".toList] ["// start".toList, "0\tx1 // flags".toList] _ :=
      htabbed.step (.change ["// start".toList] [] (.addComment "0\tx1".toList " flags".toList))
    exact hexplained.step
      (.change ["// start".toList] [] (.addReturn "0\tx1 // flags".toList))
  have hbefore : assemble "0x1" 24 {} = .error (.parse 1 (.tooFewFields "0x1")) := rfl
  refine ⟨hedits, hbefore, ?_⟩
  rw [(assemble_edits hedits 24 {}).2, hbefore]
  rfl

end PulseSequencer.Assembly
