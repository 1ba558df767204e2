import PulseSequencer.Proofs.Assembly.LoopNesting
import PulseSequencer.Proofs.Assembly.Reports

/-!
# Matching is bracket matching

The matching goes through the lines once, with a stack, and rewrites them on the way.  Whether it
succeeds, what it writes and whom it blames are matters of the opcodes alone.

* `Stray`, `Unclosed`: the two ways in which the opcodes are not balanced, said without a stack.
* `ending_of_matchLoopsFrom`: how the matching ends, by the scan of the opcodes.
* `stray_of_scan_take`, `not_stray_of_scan_take`, `unclosed_iff_mem`: what the scan says about words
  that are out of place.
* `matchLoops_brackets`: all of it together.
-/

namespace PulseSequencer.Assembly

/-- A loop ends at `e` after all loops that began before have ended. -/
def Stray (ops : List Opcode) (e : Nat) : Prop :=
  ops[e]? = some .endLoop ∧ ∀ l < e, ops[l]? = some .loop → ∃ e' < e, Matches ops l e'

/-- A loop begins at `l` that never ends. -/
def Unclosed (ops : List Opcode) (l : Nat) : Prop :=
  ops[l]? = some .loop ∧ ∀ e, ¬ Matches ops l e

/-! ### Words that are out of place -/

section Places

variable {ops : List Opcode} {k l e : Nat} {stack : List Nat}

/-- Where a loop ends and none is open, all that began have ended. -/
theorem stray_of_scan_take (hend : ops[e]? = some .endLoop)
    (hscan : scan 0 [] (ops.take e) = some []) : Stray ops e := by
  refine ⟨hend, fun l hl hloop => ?_⟩
  by_contra hnone
  have hopen : l ∈ [] := by
    refine (mem_iff_not_ended hscan hl hloop).mpr fun e' hmatch => ?_
    by_contra hlt
    exact hnone ⟨e', Nat.lt_of_not_le hlt, hmatch⟩
  cases hopen

/-- As far as the scan comes, every end of a loop finds one that is open. -/
theorem not_stray_of_scan_take (hscan : scan 0 [] (ops.take k) = some stack) (he : e < k) :
    ¬ Stray ops e := by
  rintro ⟨hend, hclosed⟩
  obtain ⟨after, hafter, -⟩ :=
    exists_scan_take_of_le hscan he (List.getElem?_eq_some_iff.mp hend).1
  rw [scan_take_succ hend, Option.bind_eq_some_iff] at hafter
  obtain ⟨before, hbefore, hpop⟩ := hafter
  cases before with
  | nil => cases hpop
  | cons s below =>
    obtain ⟨hs, hloop, -⟩ := scan_take_suffix (show _ = some ([] ++ s :: below) from hbefore)
    obtain ⟨e', he', hmatch⟩ := hclosed s hs hloop
    have hle := (mem_iff_not_ended hbefore hs hloop).mp List.mem_cons_self e' hmatch
    omega

/-- What is open after all words never ends. -/
theorem unclosed_iff_mem (hscan : scan 0 [] ops = some stack) : Unclosed ops l ↔ l ∈ stack := by
  have hall : scan 0 [] (ops.take ops.length) = some stack := by rwa [List.take_length]
  constructor
  · rintro ⟨hloop, hnever⟩
    have hl := (List.getElem?_eq_some_iff.mp hloop).1
    exact (mem_iff_not_ended hall hl hloop).mpr fun e hmatch => absurd hmatch (hnever e)
  · intro hmem
    obtain ⟨above, below, rfl⟩ := List.append_of_mem hmem
    obtain ⟨hl, hloop, -⟩ := scan_take_suffix hall
    refine ⟨hloop, fun e hmatch => ?_⟩
    have hle := (mem_iff_not_ended hall hl hloop).mp hmem e hmatch
    have hlength := (List.getElem?_eq_some_iff.mp hmatch.opcodes.2).1
    omega

end Places

/-! ### How the matching ends -/

/-- The ways in which the matching of lines can end. -/
inductive Ending (lines : List Line) : Except CompileError (List Line) → Prop
  | matched (out : List Line) (hscan : scan 0 [] (lines.map Line.opcode) = some []) :
    Ending lines (.ok out)
  | stray {e : Nat} {line : Line} (hline : lines[e]? = some line) (hend : line.opcode = .endLoop)
      (hscan : scan 0 [] ((lines.map Line.opcode).take e) = some []) :
    Ending lines (.error (.parse line.number .endWithoutLoop))
  | unclosed {l : Nat} {stack : List Nat} {line : Line} (hline : lines[l]? = some line)
      (hscan : scan 0 [] (lines.map Line.opcode) = some (l :: stack)) :
    Ending lines (.error (.parse line.number .loopWithoutEnd))

theorem ending_of_matchLoopsFrom {front rest done : List Line} {opened : List OpenLoop}
    (hstack : scan 0 [] (front.map Line.opcode) = some (opened.map OpenLoop.address))
    (hlines : ∀ o ∈ opened, ∃ line, front[o.address]? = some line ∧ line.number = o.line) :
    Ending (front ++ rest) (matchLoopsFrom opened done front.length rest) := by
  induction rest generalizing front done opened with
  | nil =>
    rw [List.append_nil]
    cases opened with
    | nil => exact .matched _ hstack
    | cons innermost outer =>
      obtain ⟨line, hline, hnumber⟩ := hlines innermost List.mem_cons_self
      rw [matchLoopsFrom, ← hnumber]
      exact .unclosed hline hstack
  | cons line rest ih =>
    have hall : front ++ line :: rest = (front ++ [line]) ++ rest := by simp
    have hlength : (front ++ [line]).length = front.length + 1 := by simp
    have hscan : scan 0 [] ((front ++ [line]).map Line.opcode) =
        stackAfter front.length (opened.map OpenLoop.address) line.opcode := by
      rw [List.map_append, List.map_singleton, scan_concat, hstack, Option.bind_some,
        List.length_map, Nat.zero_add]
    have hkept : ∀ o ∈ opened, ∃ line', (front ++ [line])[o.address]? = some line' ∧
        line'.number = o.line := by
      intro o ho
      obtain ⟨line', hline', hnumber⟩ := hlines o ho
      refine ⟨line', ?_, hnumber⟩
      rw [List.getElem?_append_left (List.getElem?_eq_some_iff.mp hline').1, hline']
    by_cases hloop : line.opcode = .loop
    · rw [matchLoopsFrom_loop hloop, hall, ← hlength]
      refine ih (by rw [hscan, hloop]; rfl) ?_
      intro o ho
      rcases List.mem_cons.mp ho with rfl | ho
      · exact ⟨line, by simp, rfl⟩
      · exact hkept o ho
    · by_cases hend : line.opcode = .endLoop
      · cases opened with
        | nil =>
          rw [matchLoopsFrom_stray hend]
          refine .stray (e := front.length) (by simp) hend ?_
          rw [List.map_append, List.take_left' (List.length_map _)]
          exact hstack
        | cons start outer =>
          rw [matchLoopsFrom_endLoop hend, hall, ← hlength]
          exact ih (by rw [hscan, hend]; rfl) fun o ho => hkept o (List.mem_cons_of_mem _ ho)
      · rw [matchLoopsFrom_other hloop hend, hall, ← hlength]
        exact ih (by rw [hscan, stackAfter_other hloop hend]) hkept

theorem ending_of_matchLoops (lines : List Line) : Ending lines (matchLoops lines) := by
  have hstack : scan 0 [] (([] : List Line).map Line.opcode) =
      some (([] : List OpenLoop).map OpenLoop.address) := rfl
  exact ending_of_matchLoopsFrom hstack (by simp)

/-- The matching succeeds on balanced opcodes and on no others. -/
theorem exists_matchLoops_iff {lines : List Line} :
    (∃ out, matchLoops lines = .ok out) ↔ Balanced (lines.map Line.opcode) := by
  rw [balanced_iff_scan]
  have hending := ending_of_matchLoops lines
  generalize matchLoops lines = result at hending
  cases hending with
  | matched out hscan => exact ⟨fun _ => hscan, fun _ => ⟨out, rfl⟩⟩
  | @stray e line hline hend hscan =>
    -- a scan to the end would have gone past the stray one
    refine ⟨by simp, fun hall => ?_⟩
    have hop : (lines.map Line.opcode)[e]? = some .endLoop := by
      rw [List.getElem?_map, hline, Option.map_some, hend]
    rw [← List.take_length (l := lines.map Line.opcode)] at hall
    exact absurd (stray_of_scan_take hop hscan)
      (not_stray_of_scan_take hall (List.getElem?_eq_some_iff.mp hop).1)
  | unclosed hline hscan =>
    refine ⟨by simp, fun hall => ?_⟩
    rw [hscan] at hall
    cases hall

/-! ### What the matching writes -/

section Success

variable {lines out : List Line} {k e : Nat} {line : Line}

theorem exists_getElem?_of_matchLoops {α : Type} {f : Line → α}
    (hf : ∀ line operand, line.opcode = .endLoop → f { line with operand } = f line)
    (h : matchLoops lines = .ok out) (hline : lines[k]? = some line) :
    ∃ line', out[k]? = some line' ∧ f line' = f line := by
  have hget := congrArg (·[k]?) (map_of_matchLoops hf h)
  simp only [List.getElem?_map, hline, Option.map_some] at hget
  exact Option.map_eq_some_iff.mp hget

theorem getElem?_of_ne_endLoop (h : matchLoops lines = .ok out) (hline : lines[k]? = some line)
    (hop : line.opcode ≠ .endLoop) : out[k]? = some line := by
  obtain ⟨line', hline', hsame⟩ := exists_getElem?_of_matchLoops
    (f := fun line => if line.opcode = .endLoop then none else some line)
    (fun line operand hend => by simp [hend]) h hline
  rw [if_neg hop, Option.ite_none_left_eq_some] at hsame
  rw [hline', hsame.2]

theorem getElem?_of_endLoop (h : matchLoops lines = .ok out) (hline : lines[e]? = some line)
    (hop : line.opcode = .endLoop) :
    ∃ l, Matches (lines.map Line.opcode) l e ∧
      out[e]? = some { line with operand := .address l } := by
  obtain ⟨line', hline', hsame⟩ := exists_getElem?_of_matchLoops
    (f := fun line => { line with operand := .address 0 }) (fun _ _ _ => rfl) h hline
  obtain ⟨hmatched, hops⟩ := matched_of_matchLoops h
  have hscan := balanced_iff_scan.mp (exists_matchLoops_iff.mp ⟨out, h⟩)
  have hend : (lines.map Line.opcode)[e]? = some .endLoop := by
    rw [List.getElem?_map, hline, Option.map_some, hop]
  obtain ⟨l, stack, hstack, hmatch⟩ := matches_of_endLoop hscan hend
  obtain ⟨s, stack', hstack', hoperand⟩ := hmatched.operands e line'
    (by rw [List.reverse_reverse]; exact hline') ((congrArg Line.opcode hsame).trans hop)
  rw [List.reverse_reverse, hops, hstack] at hstack'
  cases hstack'
  refine ⟨l, hmatch, hline'.trans (congrArg some ?_)⟩
  calc line' = { ({ line' with operand := .address 0 } : Line) with operand := line'.operand } :=
        rfl
    _ = { line with operand := .address l } := by rw [hsame, hoperand]

/-- After the matching, the end of a loop has the address of the loop that it matches. -/
theorem exists_matches_of_endLoop (h : matchLoops lines = .ok out) (hline : out[e]? = some line)
    (hop : line.opcode = .endLoop) :
    ∃ l, line.operand = .address l ∧ Matches (lines.map Line.opcode) l e := by
  have hlength : lines.length = out.length := by
    simpa using (congrArg List.length (matched_of_matchLoops h).2).symm
  have hlt : e < lines.length := hlength ▸ (List.getElem?_eq_some_iff.mp hline).1
  have hbefore : lines[e]? = some lines[e] := List.getElem?_eq_getElem hlt
  by_cases hend : lines[e].opcode = .endLoop
  · obtain ⟨l, hmatch, hout⟩ := getElem?_of_endLoop h hbefore hend
    rw [hline] at hout
    cases hout
    exact ⟨l, rfl, hmatch⟩
  · have hout := getElem?_of_ne_endLoop h hbefore hend
    rw [hline] at hout
    cases hout
    exact absurd hop hend

theorem existsUnique_end_of_loop (h : matchLoops lines = .ok out) {l : Nat}
    (hloop : (lines.map Line.opcode)[l]? = some .loop) :
    ∃! e : Nat, ∃ line : Line, out[e]? = some line ∧ line.opcode = .endLoop ∧
      line.operand = .address l := by
  have hscan := balanced_iff_scan.mp (exists_matchLoops_iff.mp ⟨out, h⟩)
  obtain ⟨e, hmatch⟩ := exists_matches hscan hloop
  obtain ⟨line, hline, hop⟩ :=
    Option.map_eq_some_iff.mp (List.getElem?_map.symm.trans hmatch.opcodes.2)
  obtain ⟨l', hmatch', hout⟩ := getElem?_of_endLoop h hline hop
  obtain rfl := hmatch.begin_unique hmatch'
  refine ⟨e, ⟨_, hout, hop, rfl⟩, ?_⟩
  rintro e' ⟨line', hline', hop', hoperand⟩
  obtain ⟨l', hl', hmatch'⟩ := exists_matches_of_endLoop h hline' hop'
  rw [hoperand] at hl'
  cases hl'
  exact hmatch'.end_unique hmatch

end Success

/-! ### All of it together -/

/-- The lines in `out` are `lines` with every end of a loop pointing at its loop. -/
structure Points (lines out : List Line) : Prop where
  length_eq : out.length = lines.length
  /-- What does not end a loop stays as it is. -/
  other : ∀ (k : Nat) (line : Line), lines[k]? = some line → line.opcode ≠ .endLoop →
    out[k]? = some line
  /-- The end of a loop gets the address of the one loop that it can belong to, and nothing else. -/
  ends : ∀ (e : Nat) (line : Line), lines[e]? = some line → line.opcode = .endLoop →
    ∃ l, out[e]? = some { line with operand := .address l } ∧
      ∀ l', Matches (lines.map Line.opcode) l' e ↔ l' = l
  /-- Different ends point at different loops. -/
  injective : ∀ (e e' : Nat) (line line' : Line), out[e]? = some line → out[e']? = some line' →
    line.opcode = .endLoop → line'.opcode = .endLoop → line.operand = line'.operand → e = e'
  /-- Every loop has one end that points at it. -/
  targets : ∀ l : Nat, (lines.map Line.opcode)[l]? = some .loop →
    ∃! e : Nat, ∃ line : Line, out[e]? = some line ∧ line.opcode = .endLoop ∧
      line.operand = .address l

/-- The error names the first end of a loop that is stray, or else the last loop that is not
closed. -/
inductive Blames (lines : List Line) : CompileError → Prop
  | stray {e : Nat} {line : Line} (hline : lines[e]? = some line)
      (hstray : Stray (lines.map Line.opcode) e)
      (hfirst : ∀ e' < e, ¬ Stray (lines.map Line.opcode) e') :
    Blames lines (.parse line.number .endWithoutLoop)
  | unclosed {l : Nat} {line : Line} (hline : lines[l]? = some line)
      (hnone : ∀ e, ¬ Stray (lines.map Line.opcode) e)
      (hunclosed : Unclosed (lines.map Line.opcode) l)
      (hlast : ∀ l', Unclosed (lines.map Line.opcode) l' → l' ≤ l) :
    Blames lines (.parse line.number .loopWithoutEnd)

theorem points_of_matchLoops {lines out : List Line} (h : matchLoops lines = .ok out) :
    Points lines out where
  length_eq := by simpa using congrArg List.length (matched_of_matchLoops h).2
  other := fun _ _ => getElem?_of_ne_endLoop h
  ends := by
    intro e line hline hop
    obtain ⟨l, hmatch, hout⟩ := getElem?_of_endLoop h hline hop
    exact ⟨l, hout, fun l' => ⟨fun hmatch' => hmatch'.begin_unique hmatch, fun hl => hl ▸ hmatch⟩⟩
  injective := by
    intro e e' line line' hline hline' hop hop' hsame
    obtain ⟨l, hl, hmatch⟩ := exists_matches_of_endLoop h hline hop
    obtain ⟨l', hl', hmatch'⟩ := exists_matches_of_endLoop h hline' hop'
    rw [hl, hl'] at hsame
    cases hsame
    exact hmatch.end_unique hmatch'
  targets := fun _ => existsUnique_end_of_loop h

theorem blames_of_matchLoops {lines : List Line} {error : CompileError}
    (h : matchLoops lines = .error error) : Blames lines error := by
  have hending := ending_of_matchLoops lines
  rw [h] at hending
  cases hending with
  | @stray e line hline hend hscan =>
    have hop : (lines.map Line.opcode)[e]? = some .endLoop := by
      rw [List.getElem?_map, hline, Option.map_some, hend]
    exact .stray hline (stray_of_scan_take hop hscan) fun e' he' => not_stray_of_scan_take hscan he'
  | @unclosed l stack line hline hscan =>
    have hall : scan 0 [] ((lines.map Line.opcode).take (lines.map Line.opcode).length) =
        some (l :: stack) := by rwa [List.take_length]
    refine .unclosed hline (fun e hstray => ?_) ((unclosed_iff_mem hscan).mpr List.mem_cons_self) ?_
    · exact not_stray_of_scan_take hall (List.getElem?_eq_some_iff.mp hstray.1).1 hstray
    · intro l' hl'
      rcases List.mem_cons.mp ((unclosed_iff_mem hscan).mp hl') with rfl | hmem
      · exact Nat.le_refl l'
      · exact Nat.le_of_lt ((List.pairwise_cons.mp (pairwise_of_scan_take hall)).1 l' hmem)

/-- **Matching is bracket matching.**  It succeeds exactly on lines whose opcodes are balanced.
Then every end of a loop points at the one loop before it with nothing unbalanced in between,
different ends at different loops, every loop is pointed at once, and nothing else has changed.
Otherwise the error names the line of the first end whose preceding loops have all ended, or,
where there is none, of the last loop that never ends. -/
theorem matchLoops_brackets (lines : List Line) :
    ((∃ out, matchLoops lines = .ok out) ↔ Balanced (lines.map Line.opcode)) ∧
    (∀ out, matchLoops lines = .ok out → Points lines out) ∧
    ∀ error, matchLoops lines = .error error → Blames lines error :=
  ⟨exists_matchLoops_iff, fun _ => points_of_matchLoops, fun _ => blames_of_matchLoops⟩

/-- Lines of 10 ns that differ in their opcodes only. -/
def linesOf (ops : List Opcode) : List Line :=
  ops.mapIdx fun k op => ⟨k + 1, none, 0, 10, op, .written "2"⟩

-- a loop with a loop in it; an end too many before a loop too many; and two loops with one end
theorem matchLoops_brackets_nested :
    (∃ out, matchLoops (linesOf [.loop, .cont, .loop, .endLoop, .endLoop]) = .ok out ∧
      Points (linesOf [.loop, .cont, .loop, .endLoop, .endLoop]) out) ∧
    matchLoops (linesOf [.loop, .endLoop, .endLoop, .endLoop, .loop]) =
      .error (.parse 3 .endWithoutLoop) ∧
    Blames (linesOf [.loop, .endLoop, .endLoop, .endLoop, .loop]) (.parse 3 .endWithoutLoop) ∧
    matchLoops (linesOf [.loop, .loop, .endLoop]) = .error (.parse 1 .loopWithoutEnd) ∧
    Blames (linesOf [.loop, .loop, .endLoop]) (.parse 1 .loopWithoutEnd) := by
  obtain ⟨out, hout⟩ := (matchLoops_brackets
    (linesOf [.loop, .cont, .loop, .endLoop, .endLoop])).1.mpr (by decide)
  exact ⟨⟨out, hout, (matchLoops_brackets _).2.1 out hout⟩,
    rfl, (matchLoops_brackets _).2.2 _ rfl, rfl, (matchLoops_brackets _).2.2 _ rfl⟩

end PulseSequencer.Assembly
