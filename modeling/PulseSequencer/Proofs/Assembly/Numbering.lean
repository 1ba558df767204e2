import PulseSequencer.Proofs.Agreement
import PulseSequencer.Proofs.Assembly.LoopNesting
import PulseSequencer.Proofs.Assembly.Reading
import PulseSequencer.Proofs.Failures

/-!
# Line numbers are reported and nothing else

The number of a line comes back in an error at that line.  Apart from that it plays no part: a text whose
statements have other numbers is assembled to the same sequence, or fails with the same error at the
number that the line has now.

* `Alike`: what two lines must have in common for the matching of loops; `agree_matchLoops` matches two
  such lists side by side.
* `agree_parseLinesFrom`, `agree_instruction`, `locate_renumber`: the other stages.
* `assemble_renumber`: all of them together.
-/

namespace PulseSequencer

/-- The error at the line with the new number. -/
def CompileError.relocate (f : Nat → Nat) : CompileError → CompileError
  | .parse n fault => .parse (f n) fault
  | e => e

namespace Assembly

/-- The statement with a new number. -/
def Statement.renumber (f : Nat → Nat) (st : Statement) : Statement :=
  { st with line := f st.line }

/-- The line with a new number. -/
def Line.renumber (f : Nat → Nat) (line : Line) : Line :=
  { line with number := f line.number }

/-- The open loop with a new number for its line. -/
def OpenLoop.renumber (f : Nat → Nat) (o : OpenLoop) : OpenLoop :=
  { o with line := f o.line }

variable {channels : Nat} {f : Nat → Nat}

/-! ### Reading -/

theorem parseFields_renumber (n : Nat) (first duration : List Char)
    (opcode operand : Option (List Char)) :
    parseFields channels (f n) first duration opcode operand =
      (parseFields channels n first duration opcode operand).map (Line.renumber f) := by
  unfold parseFields
  cases splitLabel first with
  | error fault => rfl
  | ok found =>
    obtain ⟨label, flags⟩ := found
    simp only [bind, Except.bind]
    cases parseFlags channels flags with
    | error fault => rfl
    | ok flags =>
      cases parseDuration duration with
      | error fault => rfl
      | ok duration => cases parseOpcode opcode <;> rfl

theorem parseStatement_renumber (st : Statement) :
    parseStatement channels (st.renumber f) =
      (parseStatement channels st).map (Line.renumber f) := by
  unfold parseStatement
  simp only [Statement.renumber]
  generalize (Text.fields ',' st.text).map Text.trim = fields
  match fields with
  | [] => rfl
  | [_] => rfl
  | [_, _] => exact parseFields_renumber ..
  | [_, _, _] => exact parseFields_renumber ..
  | [_, _, _, _] => exact parseFields_renumber ..
  | _ :: _ :: _ :: _ :: _ :: _ => rfl

theorem agree_parseLinesFrom (seen : List Line) (sts : List Statement) :
    Agree (fun e e' => e' = e.relocate f) (List.Forall₂ fun line line' => line.renumber f = line')
      (parseLinesFrom channels seen sts)
      (parseLinesFrom channels (seen.map (Line.renumber f)) (sts.map (Statement.renumber f))) := by
  induction sts generalizing seen with
  | nil =>
    rw [List.map_nil, parseLinesFrom, parseLinesFrom, ← List.map_reverse]
    refine .ok ?_
    rw [← List.forall₂_map_left_iff (R := Eq), List.forall₂_eq_eq_eq]
  | cons st sts ih =>
    have hread : parseStatement channels (st.renumber f) =
        (parseStatement channels st).map (Line.renumber f) := parseStatement_renumber st
    rw [List.map_cons]
    cases hline : parseStatement channels st with
    | error fault =>
      rw [hline] at hread
      rw [parseLinesFrom_malformed hline, parseLinesFrom_malformed hread]
      exact .error rfl
    | ok line =>
      rw [hline] at hread
      by_cases hseen : ∃ label, line.label = some label ∧ ∃ before ∈ seen, before.label = some label
      · obtain ⟨label, hlabel, before, hbefore, hsame⟩ := hseen
        rw [parseLinesFrom_repeated hline hlabel ⟨before, hbefore, hsame⟩,
          parseLinesFrom_repeated hread hlabel ⟨_, List.mem_map_of_mem hbefore, hsame⟩]
        exact .error rfl
      · have hnew : ∀ label, line.label = some label → ∀ before ∈ seen, before.label ≠ some label :=
          fun label hlabel before hbefore hsame => hseen ⟨label, hlabel, before, hbefore, hsame⟩
        have hnew' : ∀ label, (line.renumber f).label = some label →
            ∀ before ∈ seen.map (Line.renumber f), before.label ≠ some label := by
          intro label hlabel before' hbefore'
          obtain ⟨before, hbefore, rfl⟩ := List.mem_map.mp hbefore'
          exact hnew label hlabel before hbefore
        rw [parseLinesFrom_new hline hnew, parseLinesFrom_new hread hnew']
        exact ih (line :: seen)

/-! ### Matching loops -/

/-- What lines must have in common to be matched side by side, with the numbers of the second list made
of those of the first. -/
structure Alike (f : Nat → Nat) (S : Line → Line → Prop) : Prop where
  number : ∀ line line', S line line' → line'.number = f line.number
  opcode : ∀ line line', S line line' → line'.opcode = line.opcode
  operand : ∀ line line' a, S line line' → line.opcode = .endLoop →
    S { line with operand := .address a } { line' with operand := .address a }

theorem agree_matchLoopsFrom {S : Line → Line → Prop} (hS : Alike f S) {lines lines' : List Line}
    (hlines : List.Forall₂ S lines lines') {done done' : List Line}
    (hdone : List.Forall₂ S done done') (opened : List OpenLoop) (a : Nat) :
    Agree (fun e e' => e' = e.relocate f) (List.Forall₂ S) (matchLoopsFrom opened done a lines)
      (matchLoopsFrom (opened.map (OpenLoop.renumber f)) done' a lines') := by
  induction hlines generalizing done done' opened a with
  | nil =>
    cases opened with
    | nil => exact .ok (List.rel_reverse hdone)
    | cons innermost outer => exact .error rfl
  | @cons line line' lines lines' hline _ ih =>
    have hop := hS.opcode line line' hline
    have hnumber := hS.number line line' hline
    by_cases hloop : line.opcode = .loop
    · rw [matchLoopsFrom_loop hloop, matchLoopsFrom_loop (hop.trans hloop), hnumber]
      exact ih (.cons hline hdone) (⟨a, line.number⟩ :: opened) (a + 1)
    · by_cases hend : line.opcode = .endLoop
      · cases opened with
        | nil =>
          rw [List.map_nil, matchLoopsFrom_stray hend, matchLoopsFrom_stray (hop.trans hend), hnumber]
          exact .error rfl
        | cons start outer =>
          rw [List.map_cons, matchLoopsFrom_endLoop hend, matchLoopsFrom_endLoop (hop.trans hend)]
          exact ih (.cons (hS.operand line line' start.address hline hend) hdone) outer (a + 1)
      · rw [matchLoopsFrom_other hloop hend, matchLoopsFrom_other (by rwa [hop]) (by rwa [hop])]
        exact ih (.cons hline hdone) opened (a + 1)

theorem agree_matchLoops {S : Line → Line → Prop} (hS : Alike f S) {lines lines' : List Line}
    (hlines : List.Forall₂ S lines lines') :
    Agree (fun e e' => e' = e.relocate f) (List.Forall₂ S) (matchLoops lines) (matchLoops lines') :=
  agree_matchLoopsFrom hS hlines .nil [] 0

theorem alike_renumber (f : Nat → Nat) : Alike f fun line line' => line.renumber f = line' where
  number := by
    rintro line _ rfl
    rfl
  opcode := by
    rintro line _ rfl
    rfl
  operand := by
    rintro line _ a rfl _
    rfl

/-! ### Resolving and running -/

theorem labelsOf_congr {lines lines' : List Line} (h : lines'.map Line.label = lines.map Line.label) :
    labelsOf lines' = labelsOf lines := by
  have hlabels : ∀ lines : List Line, labelsOf lines =
      (lines.map Line.label).zipIdx.filterMap fun (label, address) => label.map (·, address) := by
    intro lines
    rw [List.zipIdx_map, List.filterMap_map]
    rfl
  rw [hlabels, hlabels, h]

theorem labelsOf_renumber (lines : List Line) :
    labelsOf (lines.map (Line.renumber f)) = labelsOf lines :=
  labelsOf_congr (by rw [List.map_map]; rfl)

theorem agree_instruction (labels : List (String × Nat)) (line : Line) :
    Agree (fun e e' => e' = e.relocate f) Eq (line.instruction labels)
      ((line.renumber f).instruction labels) := by
  unfold Line.instruction
  rw [Line.renumber]
  cases line.operand.resolve labels with
  | error fault => exact .error rfl
  | ok operand => exact .ok rfl

/-- A fault of the run is at the line with the new number. -/
theorem locate_renumber {e : CompileError} (h : e.kind ≠ .parse) (lines : List Line) :
    locate (lines.map (Line.renumber f)) e = (locate lines e).relocate f := by
  cases e with
  | controlFlow address fault =>
    simp only [locate, List.getElem?_map]
    cases lines[address]? <;> rfl
  | parse n fault => exact absurd rfl h
  | _ => rfl

theorem agree_ofProgram (program : Program) (limits : Limits) (lines : List Line) :
    Agree (fun e e' => e' = e.relocate f) Eq
      ((Sequence.ofProgram program channels limits).mapError (locate lines))
      ((Sequence.ofProgram program channels limits).mapError
        (locate (lines.map (Line.renumber f)))) := by
  cases hresult : Sequence.ofProgram program channels limits with
  | ok s => exact .ok rfl
  | error e =>
    refine .error (locate_renumber ?_ lines)
    rcases Sequence.kind_of_ofProgram hresult with hkind | hkind | hkind <;> simp [hkind]

/-! ### All stages -/

theorem agree_assemble {source source' : String}
    (h : statements source'.toList = (statements source.toList).map (Statement.renumber f))
    (channels : Nat) (limits : Limits) :
    Agree (fun e e' => e' = e.relocate f) Eq (assemble source channels limits)
      (assemble source' channels limits) := by
  have hcount : Agree (fun e e' => e' = e.relocate f) Eq (checkChannelCount channels)
      (checkChannelCount channels) := by
    unfold checkChannelCount
    split
    · exact .error rfl
    · exact .ok rfl
  have hparse := @agree_parseLinesFrom channels f [] (statements source.toList)
  rw [List.map_nil, ← h] at hparse
  refine hcount.bind fun _ _ _ => hparse.bind fun parsed parsed' hparsed => ?_
  refine (agree_matchLoops (alike_renumber f) hparsed).bind fun lines lines' hlines => ?_
  have hmap : lines' = lines.map (Line.renumber f) := by
    rwa [← List.forall₂_map_left_iff (R := Eq), List.forall₂_eq_eq_eq, eq_comm] at hlines
  have hwords : Agree (fun e e' => e' = e.relocate f) (List.Forall₂ Eq)
      (lines.mapM (Line.instruction (labelsOf lines)))
      (lines'.mapM (Line.instruction (labelsOf lines))) := by
    refine agree_mapM_forall₂ hlines ?_
    rintro line _ rfl
    exact agree_instruction (labelsOf lines) line
  rw [hmap, labelsOf_renumber, ← hmap]
  refine hwords.bind fun program program' hprogram => ?_
  rw [List.forall₂_eq_eq_eq] at hprogram
  subst hprogram
  rw [hmap]
  exact agree_ofProgram program.toArray limits lines

/-- A text whose statements have new numbers gives the same sequence, or the same error at the line's
new number. -/
theorem assemble_renumber {source source' : String}
    (h : statements source'.toList = (statements source.toList).map (Statement.renumber f))
    (channels : Nat) (limits : Limits) :
    assemble source' channels limits =
      (assemble source channels limits).mapError (CompileError.relocate f) := by
  have hagree := agree_assemble h channels limits
  generalize assemble source channels limits = result at hagree
  generalize assemble source' channels limits = result' at hagree
  cases hagree with
  | ok heq => rw [heq]; rfl
  | error heq => rw [heq]; rfl

end Assembly

end PulseSequencer
