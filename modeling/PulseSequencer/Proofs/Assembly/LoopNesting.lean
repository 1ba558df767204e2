import PulseSequencer.Assembly.Program
import PulseSequencer.Proofs.Assembly.Brackets
import PulseSequencer.Proofs.Machine.Moves
import PulseSequencer.Proofs.Machine.Path
import PulseSequencer.Proofs.Stages

/-!
# Loops in the text and loops in the run

The assembler matches loops by their places in the text and writes the address of the first word into
the last one.  The machine never looks at that operand: it keeps a stack of frames.  In a program
without calls the two agree.

* `matched_of_matchLoops`: matching is a scan of the opcodes that ends with no open loop, and writes
  the innermost open loop into the end of a loop.
* `Nested`: in front of a word, the frames of the machine are the loops that are open there.
  `Nested.move` is one word, `nested_of_path` a whole path.
* `loops_agree`: the frames are the loops that enclose the word, no loop ends without a frame, and a
  run goes back to where the operand points.
-/

namespace PulseSequencer.Assembly

/-! ### What the matching leaves behind -/

section Matching

variable {opened outer : List OpenLoop} {start : OpenLoop} {done rest : List Line} {line : Line}

theorem matchLoopsFrom_loop (h : line.opcode = .loop) (a : Nat) :
    matchLoopsFrom opened done a (line :: rest) =
      matchLoopsFrom (⟨a, line.number⟩ :: opened) (line :: done) (a + 1) rest := by
  simp only [matchLoopsFrom, h]

theorem matchLoopsFrom_stray (h : line.opcode = .endLoop) (a : Nat) :
    matchLoopsFrom [] done a (line :: rest) = .error (.parse line.number .endWithoutLoop) := by
  simp only [matchLoopsFrom, h]

theorem matchLoopsFrom_endLoop (h : line.opcode = .endLoop) (a : Nat) :
    matchLoopsFrom (start :: outer) done a (line :: rest) =
      matchLoopsFrom outer ({ line with operand := .address start.address } :: done) (a + 1)
        rest := by
  simp only [matchLoopsFrom, h]

theorem matchLoopsFrom_other (hloop : line.opcode ≠ .loop) (hend : line.opcode ≠ .endLoop) (a : Nat) :
    matchLoopsFrom opened done a (line :: rest) =
      matchLoopsFrom opened (line :: done) (a + 1) rest := by
  rw [matchLoopsFrom.eq_def]
  simp only
  split
  · next h => exact absurd h hloop
  · next h => exact absurd h hend
  · next h => exact absurd h hend
  · rfl

end Matching

/-- The lines in `done`, the last one first, have the given loops open, and the ends of loops among
them point at the loop that was innermost. -/
structure Matched (opened : List OpenLoop) (done : List Line) : Prop where
  stack : scan 0 [] (done.reverse.map Line.opcode) = some (opened.map OpenLoop.address)
  operands : ∀ (e : Nat) (line : Line), done.reverse[e]? = some line → line.opcode = .endLoop →
    ∃ s stack, scan 0 [] ((done.reverse.map Line.opcode).take e) = some (s :: stack) ∧
      line.operand = .address s

theorem Matched.push {opened opened' : List OpenLoop} {done : List Line} (h : Matched opened done)
    (line : Line)
    (hstack : stackAfter done.length (opened.map OpenLoop.address) line.opcode =
      some (opened'.map OpenLoop.address))
    (hoperand : line.opcode = .endLoop →
      ∃ s stack, opened.map OpenLoop.address = s :: stack ∧ line.operand = .address s) :
    Matched opened' (line :: done) := by
  have hreverse : (line :: done).reverse = done.reverse ++ [line] := List.reverse_cons
  have hlength : (done.reverse.map Line.opcode).length = done.length := by simp
  constructor
  · rw [hreverse, List.map_append, List.map_singleton, scan_concat, h.stack, Option.bind_some,
      hlength, Nat.zero_add, hstack]
  · intro e line' hline hend
    rw [hreverse, List.map_append]
    rw [hreverse] at hline
    by_cases he : e < done.length
    · rw [List.getElem?_append_left (by simpa using he)] at hline
      rw [List.take_append_of_le_length (by omega)]
      exact h.operands e line' hline hend
    · rw [List.getElem?_append_right (by simpa using he), List.getElem?_singleton,
        List.length_reverse] at hline
      split at hline
      · next he' =>
        cases hline
        have hlast : e = (done.reverse.map Line.opcode).length := by omega
        obtain ⟨s, stack, hopened, hs⟩ := hoperand hend
        rw [hlast, List.take_left, h.stack, hopened]
        exact ⟨s, stack, rfl, hs⟩
      · cases hline

theorem matched_of_matchLoopsFrom {lines out : List Line} {opened : List OpenLoop}
    {done : List Line} (h : matchLoopsFrom opened done done.length lines = .ok out)
    (hdone : Matched opened done) :
    Matched [] out.reverse ∧ out.map Line.opcode = (done.reverse ++ lines).map Line.opcode := by
  induction lines generalizing opened done with
  | nil =>
    unfold matchLoopsFrom at h
    split at h
    · cases h
      simpa using hdone
    · cases h
  | cons line lines ih =>
    unfold matchLoopsFrom at h
    split at h
    · next hop =>
      obtain ⟨hm, hops⟩ := ih h (hdone.push line (by rw [hop]; rfl) (by rw [hop]; simp))
      exact ⟨hm, by simpa using hops⟩
    · cases h
    · next start outer hop =>
      -- only the operand changes, so the opcodes read the same
      obtain ⟨hm, hops⟩ := ih h (hdone.push { line with operand := .address start.address }
        (by rw [hop]; rfl) fun _ => ⟨_, _, rfl, rfl⟩)
      exact ⟨hm, by simpa using hops⟩
    · next hloop hnil hcons =>
      have hother : line.opcode ≠ .endLoop := fun hop =>
        hcons _ _ hop (List.cons_head_tail (hnil hop)).symm
      obtain ⟨hm, hops⟩ := ih h (hdone.push line (stackAfter_other hloop hother _ _)
        fun hop => absurd hop hother)
      exact ⟨hm, by simpa using hops⟩

theorem matched_of_matchLoops {lines out : List Line} (h : matchLoops lines = .ok out) :
    Matched [] out.reverse ∧ out.map Line.opcode = lines.map Line.opcode := by
  have hstart : Matched [] [] := ⟨rfl, by simp⟩
  simpa using matched_of_matchLoopsFrom h hstart

/-- The words close all loops, and the end of a loop has the address of its first word. -/
structure Closed (program : List Instruction) : Prop where
  scan_eq : scan 0 [] (program.map Instruction.opcode) = some []
  operands : ∀ (e : Nat) (i : Instruction), program[e]? = some i → i.opcode = .endLoop →
    ∃ (s : Nat) (stack : List Nat),
      scan 0 [] ((program.map Instruction.opcode).take e) = some (s :: stack) ∧ i.operand = s

/-- A word has what its line has, with the operand resolved. -/
theorem instruction_eq_ok_iff {labels : List (String × Nat)} {line : Line} {i : Instruction} :
    line.instruction labels = .ok i ↔
      ∃ z, line.operand.resolve labels = .ok z ∧
        i = ⟨line.label, line.flags, line.duration, line.opcode, z⟩ := by
  unfold Line.instruction
  cases line.operand.resolve labels with
  | error fault => simp
  | ok z => simp [eq_comm]

theorem opcode_of_instruction {labels : List (String × Nat)} {line : Line} {i : Instruction}
    (h : line.instruction labels = .ok i) : i.opcode = line.opcode := by
  obtain ⟨z, -, rfl⟩ := instruction_eq_ok_iff.mp h
  rfl

theorem operand_of_instruction {labels : List (String × Nat)} {line : Line} {i : Instruction}
    {s : Nat} (h : line.instruction labels = .ok i) (hs : line.operand = .address s) :
    i.operand = s := by
  obtain ⟨z, hz, rfl⟩ := instruction_eq_ok_iff.mp h
  rw [hs] at hz
  exact (Except.ok.inj hz).symm

theorem opcodes_of_mapM {labels : List (String × Nat)} {lines : List Line}
    {program : List Instruction} (h : lines.mapM (Line.instruction labels) = .ok program) :
    program.map Instruction.opcode = lines.map Line.opcode :=
  map_eq_map_of_forall₂ (forall₂_of_mapM h) fun _ _ => opcode_of_instruction

/-- Assembling leaves a program that closes its loops. -/
theorem closed_of_matchLoops {parsed lines : List Line} {program : List Instruction}
    (hloops : matchLoops parsed = .ok lines)
    (hwords : lines.mapM (Line.instruction (labelsOf lines)) = .ok program) : Closed program := by
  obtain ⟨hmatched, -⟩ := matched_of_matchLoops hloops
  have hforall := forall₂_of_mapM hwords
  have hopcodes := opcodes_of_mapM hwords
  have hstack := hmatched.stack
  rw [List.reverse_reverse] at hstack
  refine ⟨by rw [hopcodes]; exact hstack, ?_⟩
  intro e i hi hend
  obtain ⟨hlt, rfl⟩ := List.getElem?_eq_some_iff.mp hi
  have hline : e < lines.length := by rw [hforall.length_eq]; exact hlt
  have hinstruction := hforall.get hline hlt
  have hop := opcode_of_instruction hinstruction
  obtain ⟨s, stack, hscan, hs⟩ := hmatched.operands e lines[e]
    (by rw [List.reverse_reverse]; exact List.getElem?_eq_getElem hline) (hop.symm.trans hend)
  rw [List.reverse_reverse] at hscan
  exact ⟨s, stack, by rw [hopcodes]; exact hscan, operand_of_instruction hinstruction hs⟩

/-- A balanced program whose ends of loops name the loops they match closes its loops. -/
theorem closed_of_balanced {program : List Instruction}
    (hbalanced : Balanced (program.map Instruction.opcode))
    (hends : ∀ l e i, Matches (program.map Instruction.opcode) l e → program[e]? = some i →
      i.operand = l) : Closed program := by
  have hscan := scan_of_balanced hbalanced 0 []
  refine ⟨hscan, fun e i hi hend => ?_⟩
  have hop : (program.map Instruction.opcode)[e]? = some .endLoop := by
    rw [List.getElem?_map, hi, Option.map_some, hend]
  obtain ⟨s, stack, hstack, hmatch⟩ := matches_of_endLoop hscan hop
  exact ⟨s, stack, hstack, hends s e i hmatch hi⟩

/-- The innermost open loop is all that is needed to check the end of a loop. -/
theorem closed_iff {program : List Instruction} :
    Closed program ↔ scan 0 [] (program.map Instruction.opcode) = some [] ∧
      ∀ x ∈ program.zipIdx, x.1.opcode = .endLoop →
        ((scan 0 [] ((program.map Instruction.opcode).take x.2)).bind List.head?).map Int.ofNat =
          some x.1.operand := by
  constructor
  · refine fun h => ⟨h.scan_eq, fun x hx hend => ?_⟩
    obtain ⟨s, stack, hscan, hoperand⟩ := h.operands _ _ (List.mem_zipIdx_iff_getElem?.mp hx) hend
    rw [hscan, hoperand]
    rfl
  · refine fun ⟨hscan, hends⟩ => ⟨hscan, fun e i hi hend => ?_⟩
    have hhead := hends (i, e) (List.mem_zipIdx_iff_getElem?.mpr hi) hend
    obtain ⟨s, hs, hoperand⟩ := Option.map_eq_some_iff.mp hhead
    obtain ⟨opened, hopened, hfirst⟩ := Option.bind_eq_some_iff.mp hs
    obtain ⟨stack, rfl⟩ := List.head?_eq_some_iff.mp hfirst
    exact ⟨s, stack, hopened, hoperand.symm⟩

instance (program : List Instruction) : Decidable (Closed program) :=
  decidable_of_iff' _ closed_iff

theorem Closed.operand_of_matches {program : List Instruction} (h : Closed program) {l e : Nat}
    (hmatch : Matches (program.map Instruction.opcode) l e) {i : Instruction}
    (hi : program[e]? = some i) : i.operand = l := by
  obtain ⟨hbegin, hend⟩ := hmatch.opcodes
  obtain ⟨below, hbelow, -⟩ := exists_scan_take h.scan_eq
    (Nat.le_of_lt (List.getElem?_eq_some_iff.mp hbegin).1)
  rw [List.getElem?_map, hi, Option.map_some, Option.some_inj] at hend
  obtain ⟨s, stack, hscan, hoperand⟩ := h.operands e i hi hend
  rw [scan_take_end hmatch hbelow] at hscan
  cases hscan
  exact hoperand

/-! ### The frames of the machine -/

/-- The last step was the end of a loop that points at the address. -/
def Reenters (program : List Instruction) (last : Option Step) (a : Nat) : Prop :=
  ∃ (s : Step) (i : Instruction), last = some s ∧ program[s.address]? = some i ∧
    i.opcode = .endLoop ∧ i.operand = a

/-- In front of a word, after the given last step, the frames of the machine are the loops that are open
there; if the word begins a loop and was reached from the end of it, that loop is open too. -/
structure Nested (program : List Instruction) (last : Option Step) (m : Machine) : Prop where
  calls : m.calls = []
  bound : m.address ≤ program.length
  loops : ∃ stack, scan 0 [] ((program.map Instruction.opcode).take m.address) = some stack ∧
    (¬ Reenters program last m.address ∧ m.loops.map LoopFrame.start = stack ∨
      Reenters program last m.address ∧
        (program.map Instruction.opcode)[m.address]? = some .loop ∧
        m.loops.map LoopFrame.start = m.address :: stack)

section Frames

variable {program : List Instruction} {last : Option Step} {m next : Machine} {i : Instruction}
  {size maxDepth : Nat}

theorem not_reenters_of_opcode (hword : program[m.address]? = some i) (hop : i.opcode ≠ .endLoop)
    (a : Nat) : ¬ Reenters program (some (Timeline.stepOf m.address i)) a := by
  rintro ⟨s, i', hs, hi', hend, -⟩
  cases hs
  change program[m.address]? = some i' at hi'
  rw [hword] at hi'
  cases hi'
  exact hop hend

theorem getElem?_opcode (hword : program[m.address]? = some i) :
    (program.map Instruction.opcode)[m.address]? = some i.opcode := by
  rw [List.getElem?_map, hword]
  rfl

/-- In front of a word that does not begin a loop, the frames are the open loops. -/
theorem Nested.loops_of_opcode (h : Nested program last m) (hword : program[m.address]? = some i)
    (hop : i.opcode ≠ .loop) :
    scan 0 [] ((program.map Instruction.opcode).take m.address) =
      some (m.loops.map LoopFrame.start) := by
  obtain ⟨stack, hstack, hfresh | ⟨-, hloop, -⟩⟩ := h.loops
  · rw [hstack, hfresh.2]
  · rw [getElem?_opcode hword, Option.some_inj] at hloop
    exact absurd hloop hop

theorem scan_take_next (hword : program[m.address]? = some i) {stack stack' : List Nat}
    (h : scan 0 [] ((program.map Instruction.opcode).take m.address) = some stack)
    (hop : stackAfter m.address stack i.opcode = some stack') :
    scan 0 [] ((program.map Instruction.opcode).take (m.address + 1)) = some stack' := by
  rw [scan_take_succ (getElem?_opcode hword), h, Option.bind_some, hop]

/-- The end of a loop finds the frame of the loop that its operand points at. -/
theorem Nested.frame (hclosed : Closed program) (h : Nested program last m)
    (hword : program[m.address]? = some i) (hop : i.opcode = .endLoop) :
    ∃ s stack, m.loops.map LoopFrame.start = s :: stack ∧ i.operand = (s : Nat) ∧
      scan 0 [] ((program.map Instruction.opcode).take m.address) = some (s :: stack) := by
  obtain ⟨s, stack, hscan, hs⟩ := hclosed.operands m.address i hword hop
  have hloops := h.loops_of_opcode hword (by rw [hop]; decide)
  rw [hscan, Option.some_inj] at hloops
  exact ⟨s, stack, hloops.symm, hs, hscan⟩

/-- At a loop, a frame of the same address on top means that the loop is being re-entered. -/
theorem Nested.starts_of_reenters (h : Nested program last m) (htop : m.reenters = true) :
    ∃ stack, scan 0 [] ((program.map Instruction.opcode).take m.address) = some stack ∧
      m.loops.map LoopFrame.start = m.address :: stack := by
  obtain ⟨stack, hstack, ⟨-, hloops⟩ | ⟨-, -, hloops⟩⟩ := h.loops
  · -- open loops begin before the word, so none of them has its address
    exfalso
    unfold Machine.reenters at htop
    split at htop
    · cases htop
    · next frame frames hframes =>
      rw [hframes, List.map_cons, beq_iff_eq.mp htop] at hloops
      rw [← hloops] at hstack
      exact Nat.lt_irrefl _ (scan_take_suffix (show _ = some ([] ++ _ :: _) from hstack)).1
  · exact ⟨stack, hstack, hloops⟩

theorem Nested.starts_of_fresh (h : Nested program last m) (htop : m.reenters = false) :
    scan 0 [] ((program.map Instruction.opcode).take m.address) =
      some (m.loops.map LoopFrame.start) := by
  obtain ⟨stack, hstack, ⟨-, hloops⟩ | ⟨-, -, hloops⟩⟩ := h.loops
  · rw [hstack, hloops]
  · exfalso
    unfold Machine.reenters at htop
    split at htop
    · next hframes =>
      rw [hframes] at hloops
      cases hloops
    · next frame frames hframes =>
      rw [hframes, List.map_cons] at hloops
      exact beq_eq_false_iff_ne.mp htop (List.cons_eq_cons.mp hloops).1

/-- One word keeps frames and open loops together. -/
theorem Nested.move (hclosed : Closed program) (hjsr : ∀ i ∈ program, i.opcode ≠ .jsr)
    (h : Nested program last m) (hword : program[m.address]? = some i)
    (hmove : Moves size maxDepth m i next) :
    Nested program (some (Timeline.stepOf m.address i)) next := by
  obtain ⟨hlt, hget⟩ := List.getElem?_eq_some_iff.mp hword
  cases hmove with
  | plain hop =>
    have hloop : i.opcode ≠ .loop := by rcases hop with hop | hop | hop <;> rw [hop] <;> decide
    have hend : i.opcode ≠ .endLoop := by rcases hop with hop | hop | hop <;> rw [hop] <;> decide
    refine ⟨h.calls, hlt, _, scan_take_next hword (h.loops_of_opcode hword hloop)
      (stackAfter_other hloop hend _ _), .inl ⟨not_reenters_of_opcode hword hend _, rfl⟩⟩
  | call hop => exact absurd hop (hjsr i (hget ▸ List.getElem_mem hlt))
  | ret _ hcalls =>
    rw [h.calls] at hcalls
    cases hcalls
  | enter hop _ hfresh _ =>
    have hend : i.opcode ≠ .endLoop := by rw [hop]; decide
    refine ⟨h.calls, hlt, _, scan_take_next hword (h.starts_of_fresh hfresh)
      (by rw [hop]; rfl), .inl ⟨not_reenters_of_opcode hword hend _, rfl⟩⟩
  | again hop _ hreenter =>
    have hend : i.opcode ≠ .endLoop := by rw [hop]; decide
    obtain ⟨stack, hstack, hloops⟩ := h.starts_of_reenters hreenter
    refine ⟨h.calls, hlt, _, scan_take_next hword hstack (by rw [hop]; rfl),
      .inl ⟨not_reenters_of_opcode hword hend _, hloops⟩⟩
  | @leave frame frames hop hframes _ =>
    obtain ⟨s, stack, hloops, hs, hstack⟩ := h.frame hclosed hword hop
    rw [hframes, List.map_cons] at hloops
    obtain ⟨-, hrest⟩ := List.cons_eq_cons.mp hloops
    obtain ⟨hlt', -⟩ := scan_take_suffix (show _ = some ([] ++ s :: stack) from hstack)
    refine ⟨h.calls, hlt, stack, scan_take_next hword hstack (by rw [hop]; rfl), .inl ⟨?_, hrest⟩⟩
    -- the operand points back, never to the word that follows
    rintro ⟨step, i', hstep, hi', -, hoperand⟩
    cases hstep
    change program[m.address]? = some i' at hi'
    rw [hword] at hi'
    cases hi'
    rw [hs] at hoperand
    simp only [Machine.next] at hoperand
    omega
  | @back frame frames hop hframes _ =>
    obtain ⟨s, stack, hloops, hs, hstack⟩ := h.frame hclosed hword hop
    rw [hframes, List.map_cons] at hloops
    obtain ⟨rfl, hrest⟩ := List.cons_eq_cons.mp hloops
    obtain ⟨hlt', hloop, hbelow⟩ :=
      scan_take_suffix (show _ = some ([] ++ frame.start :: stack) from hstack)
    refine ⟨h.calls, Nat.le_of_lt (Nat.lt_trans hlt' hlt), stack, hbelow, .inr ⟨?_, hloop, ?_⟩⟩
    · exact ⟨_, i, rfl, hword, hop, hs⟩
    · rw [List.map_cons, hrest]

theorem nested_of_path (hclosed : Closed program) (hjsr : ∀ i ∈ program, i.opcode ≠ .jsr)
    {steps : List Step} (hpath : Path program.toArray maxDepth m steps next)
    (h : Nested program last m) : Nested program (steps.getLast?.or last) next := by
  induction hpath generalizing last with
  | refl => exact h
  | @step m next m' i steps hword hnext _ ih =>
    rw [List.getElem?_toArray] at hword
    have hrest := ih (h.move hclosed hjsr hword (advance_eq_goto_iff.mp hnext))
    rw [List.getLast?_cons]
    cases hlast : steps.getLast? <;> simpa [hlast] using hrest

end Frames

/-! ### Both together -/

/-- What an accepted text went through. -/
theorem assemble_eq_ok {source : String} {channels : Nat} {limits : Limits} {s : Sequence}
    (h : assemble source channels limits = .ok s) :
    ∃ parsed lines program, parseLines channels source.toList = .ok parsed ∧
      matchLoops parsed = .ok lines ∧
      lines.mapM (Line.instruction (labelsOf lines)) = .ok program ∧
      Sequence.ofProgram program.toArray channels limits = .ok s := by
  unfold assemble at h
  obtain ⟨-, -, h⟩ := bind_eq_ok_iff.mp h
  obtain ⟨parsed, hparse, h⟩ := bind_eq_ok_iff.mp h
  obtain ⟨lines, hloops, h⟩ := bind_eq_ok_iff.mp h
  obtain ⟨program, hwords, h⟩ := bind_eq_ok_iff.mp h
  exact ⟨parsed, lines, program, hparse, hloops, hwords, mapError_eq_ok_iff.mp h⟩

section Agreement

variable {program : List Instruction} {limits : Limits}

theorem nested_start (program : List Instruction) : Nested program none {} := by
  have hfirst : ¬ Reenters program none 0 := by
    rintro ⟨_, _, h, -⟩
    cases h
  exact ⟨rfl, Nat.zero_le _, [], rfl, .inl ⟨hfirst, rfl⟩⟩

/-- In front of a word, the frames, outermost first, are the loops that enclose the word, and the loop
that the word begins if it is being re-entered. -/
theorem frames_eq_enclosing (hclosed : Closed program) (hjsr : ∀ i ∈ program, i.opcode ≠ .jsr)
    {steps : List Step} {m : Machine} (hpath : Path program.toArray limits.maxDepth {} steps m) :
    (¬ Reenters program steps.getLast? m.address →
      (m.loops.map LoopFrame.start).reverse =
        enclosing (program.map Instruction.opcode) m.address) ∧
    (Reenters program steps.getLast? m.address →
      (program.map Instruction.opcode)[m.address]? = some .loop ∧
      (m.loops.map LoopFrame.start).reverse =
        enclosing (program.map Instruction.opcode) m.address ++ [m.address]) := by
  have hnested := nested_of_path hclosed hjsr hpath (nested_start program)
  rw [Option.or_none] at hnested
  obtain ⟨stack, hstack, hloops⟩ := hnested.loops
  have henclosing := reverse_eq_enclosing hclosed.scan_eq hstack
  constructor
  · intro hfresh
    obtain ⟨-, hloops⟩ | ⟨hagain, -⟩ := hloops
    · rw [hloops, henclosing]
    · exact absurd hagain hfresh
  · intro hagain
    obtain ⟨hfresh, -⟩ | ⟨-, hloop, hloops⟩ := hloops
    · exact absurd hagain hfresh
    · exact ⟨hloop, by rw [hloops, List.reverse_cons, henclosing]⟩

/-- No loop ends without a frame. -/
theorem fault_ne_endWithoutLoop (hclosed : Closed program)
    (hjsr : ∀ i ∈ program, i.opcode ≠ .jsr) {a : Nat} {fault : FlowFault}
    (h : Timeline.unroll program.toArray limits = .error (.controlFlow a fault)) :
    fault ≠ .endWithoutLoop := by
  rintro rfl
  obtain ⟨-, -, hfault⟩ | ⟨-, -, hrun⟩ := unroll_eq_controlFlow_iff.mp h
  · cases hfault
  obtain ⟨steps, m, hpath, -, -, hending⟩ := exists_ending_of_run hrun
  cases hending with
  | fault hword _ _ hadvance =>
    have hnested := nested_of_path hclosed hjsr hpath (nested_start program)
    rw [List.getElem?_toArray] at hword
    cases fails_of_advance hadvance with
    | noLoop hop hloops =>
      obtain ⟨s, stack, hstarts, -⟩ := hnested.frame hclosed hword hop
      rw [hloops] at hstarts
      cases hstarts

/-- After the end of a loop, a run goes on to the next word or to where the operand points. -/
theorem next_of_endLoop (hclosed : Closed program) (hjsr : ∀ i ∈ program, i.opcode ≠ .jsr)
    {t : Timeline} (h : Timeline.unroll program.toArray limits = .ok t) {k : Nat} {a b : Step}
    {i : Instruction} (ha : t.steps[k]? = some a) (hb : t.steps[k + 1]? = some b)
    (hi : program[a.address]? = some i) (hop : i.opcode = .endLoop) :
    b.address = a.address + 1 ∨ i.operand = b.address := by
  obtain ⟨m, next, i', hpath, hword, rfl, hnext, haddress⟩ := exists_next_of_unroll h ha hb
  rw [List.getElem?_toArray] at hword
  obtain rfl : i' = i := Option.some_inj.mp (hword.symm.trans hi)
  have hnested := nested_of_path hclosed hjsr hpath (nested_start program)
  obtain ⟨s, stack, hstarts, hs, -⟩ := hnested.frame hclosed hword hop
  rw [← haddress]
  cases advance_eq_goto_iff.mp hnext with
  | plain hop' => rw [hop] at hop'; simp at hop'
  | call hop' => rw [hop] at hop'; cases hop'
  | ret hop' => rw [hop] at hop'; cases hop'
  | enter hop' => rw [hop] at hop'; cases hop'
  | again hop' => rw [hop] at hop'; cases hop'
  | leave => exact .inl rfl
  | back _ hframes =>
    rw [hframes, List.map_cons] at hstarts
    exact .inr (by rw [hs, (List.cons_eq_cons.mp hstarts).1])

end Agreement

/-- **Loops in the text and loops in the run agree.**  Take a text without calls whose lines are read,
whose loops match and whose operands resolve.  In front of every word that the machine reaches, its
frames, outermost first, are the loops that enclose the word in the text, and the loop that the word
begins if that was reached from its end.  So no loop ends without a frame; and in an accepted text the
end of a loop is followed by the next word or by the one whose address the matching wrote into it. -/
theorem loops_agree (limits : Limits) {source : String} {channels : Nat} {parsed lines : List Line}
    {program : List Instruction} (hparse : parseLines channels source.toList = .ok parsed)
    (hloops : matchLoops parsed = .ok lines)
    (hwords : lines.mapM (Line.instruction (labelsOf lines)) = .ok program)
    (hjsr : ∀ line ∈ parsed, line.opcode ≠ .jsr) :
    (∀ steps m, Path program.toArray limits.maxDepth {} steps m →
      (¬ Reenters program steps.getLast? m.address →
        (m.loops.map LoopFrame.start).reverse =
          enclosing (program.map Instruction.opcode) m.address) ∧
      (Reenters program steps.getLast? m.address →
        (program.map Instruction.opcode)[m.address]? = some .loop ∧
        (m.loops.map LoopFrame.start).reverse =
          enclosing (program.map Instruction.opcode) m.address ++ [m.address])) ∧
    (∀ a fault, Timeline.unroll program.toArray limits = .error (.controlFlow a fault) →
      fault ≠ .endWithoutLoop) ∧
    ∀ s, assemble source channels limits = .ok s → ∀ (k e next : Nat) (line : Line),
      s.timeline.addresses[k]? = some e → s.timeline.addresses[k + 1]? = some next →
      lines[e]? = some line → line.opcode = .endLoop →
      ∃ target, line.operand = .address target ∧
        s.program[e]?.map Instruction.operand = some (target : Int) ∧
        (next = e + 1 ∨ next = target) := by
  obtain ⟨hmatched, hops⟩ := matched_of_matchLoops hloops
  have hclosed := closed_of_matchLoops hloops hwords
  have hjsr' : ∀ i ∈ program, i.opcode ≠ .jsr := by
    intro i hi
    have hmem := List.mem_map_of_mem (f := Instruction.opcode) hi
    rw [opcodes_of_mapM hwords, hops] at hmem
    obtain ⟨line, hline, hop⟩ := List.mem_map.mp hmem
    exact hop ▸ hjsr line hline
  refine ⟨fun steps m hpath => frames_eq_enclosing hclosed hjsr' hpath,
    fun a fault h => fault_ne_endWithoutLoop hclosed hjsr' h, ?_⟩
  intro s hs k e next line he hnext hline hend
  obtain ⟨parsed', lines', program', hparse', hloops', hwords', hs⟩ := assemble_eq_ok hs
  obtain rfl : parsed = parsed' := Except.ok.inj (hparse.symm.trans hparse')
  obtain rfl : lines = lines' := Except.ok.inj (hloops.symm.trans hloops')
  obtain rfl : program = program' := Except.ok.inj (hwords.symm.trans hwords')
  obtain ⟨-, -, t, ht, rfl⟩ := ofProgram_eq_ok_iff.mp hs
  obtain ⟨a, ha, rfl⟩ := Option.map_eq_some_iff.mp (List.getElem?_map.symm.trans he)
  obtain ⟨b, hb, rfl⟩ := Option.map_eq_some_iff.mp (List.getElem?_map.symm.trans hnext)
  obtain ⟨target, -, -, htarget⟩ := hmatched.operands a.address line
    (by rw [List.reverse_reverse]; exact hline) hend
  -- the word of the line has the operand that the matching wrote
  obtain ⟨hlt, rfl⟩ := List.getElem?_eq_some_iff.mp hline
  have hforall := forall₂_of_mapM hwords
  have hlt' : a.address < program.length := hforall.length_eq ▸ hlt
  have hinstruction := hforall.get hlt hlt'
  have hword : program[a.address]? = some program[a.address] := List.getElem?_eq_getElem hlt'
  have hoperand := operand_of_instruction hinstruction htarget
  refine ⟨target, htarget, ?_, ?_⟩
  · rw [List.getElem?_toArray, hword, Option.map_some]
    exact congrArg some hoperand
  · rcases next_of_endLoop hclosed hjsr' ht ha hb hword
      ((opcode_of_instruction hinstruction).trans hend) with h | h
    · exact .inl h
    · exact .inr (Int.ofNat_inj.mp (h.symm.trans hoperand))

/-- A loop in a loop. -/
def twoLoops : String :=
  "0x1, 10ns, LOOP, 2\n0x0, 20ns, LOOP, 3\n0x1, 30ns, END_LOOP\n0x0, 40ns, END_LOOP\n0x0, 50ns, STOP"

def twoLoopsParsed : List Line :=
  [⟨1, none, 1, 10, .loop, .written "2"⟩, ⟨2, none, 0, 20, .loop, .written "3"⟩,
    ⟨3, none, 1, 30, .endLoop, .written "0"⟩, ⟨4, none, 0, 40, .endLoop, .written "0"⟩,
    ⟨5, none, 0, 50, .stop, .written "0"⟩]

def twoLoopsMatched : List Line :=
  [⟨1, none, 1, 10, .loop, .written "2"⟩, ⟨2, none, 0, 20, .loop, .written "3"⟩,
    ⟨3, none, 1, 30, .endLoop, .address 1⟩, ⟨4, none, 0, 40, .endLoop, .address 0⟩,
    ⟨5, none, 0, 50, .stop, .written "0"⟩]

def twoLoopsProgram : List Instruction :=
  [⟨none, 1, 10, .loop, 2⟩, ⟨none, 0, 20, .loop, 3⟩, ⟨none, 1, 30, .endLoop, 1⟩,
    ⟨none, 0, 40, .endLoop, 0⟩, ⟨none, 0, 50, .stop, 0⟩]

-- the third step ends a pass of the inner loop, and the fourth begins the next one
theorem loops_agree_twoLoops :
    parseLines 4 twoLoops.toList = .ok twoLoopsParsed ∧
      matchLoops twoLoopsParsed = .ok twoLoopsMatched ∧
      twoLoopsMatched.mapM (Line.instruction (labelsOf twoLoopsMatched)) = .ok twoLoopsProgram ∧
      (∀ line ∈ twoLoopsParsed, line.opcode ≠ .jsr) ∧
      ∃ s target, assemble twoLoops 4 = .ok s ∧ s.timeline.addresses[2]? = some 2 ∧
        s.timeline.addresses[3]? = some 1 ∧
        s.program[2]?.map Instruction.operand = some ((target : Nat) : Int) ∧
        (1 = 2 + 1 ∨ 1 = target) := by
  have hparse : parseLines 4 twoLoops.toList = .ok twoLoopsParsed := rfl
  have hloops : matchLoops twoLoopsParsed = .ok twoLoopsMatched := rfl
  have hwords : twoLoopsMatched.mapM (Line.instruction (labelsOf twoLoopsMatched)) =
      .ok twoLoopsProgram := rfl
  have hjsr : ∀ line ∈ twoLoopsParsed, line.opcode ≠ .jsr := by decide
  have hassemble : assemble twoLoops 4 = Sequence.ofProgram twoLoopsProgram.toArray 4 := by
    unfold assemble
    rw [hparse]
    rfl
  obtain ⟨s, hs, h2, h3⟩ : ∃ s, assemble twoLoops 4 = .ok s ∧
      s.timeline.addresses[2]? = some 2 ∧ s.timeline.addresses[3]? = some 1 :=
    ⟨_, hassemble.trans rfl, rfl, rfl⟩
  obtain ⟨-, -, hnext⟩ := loops_agree {} hparse hloops hwords hjsr
  obtain ⟨target, -, hoperand, hgoto⟩ := hnext s hs 2 2 1
    ⟨3, none, 1, 30, .endLoop, .address 1⟩ h2 h3 rfl rfl
  exact ⟨hparse, hloops, hwords, hjsr, s, target, hs, h2, h3, hoperand, hgoto⟩

end PulseSequencer.Assembly
