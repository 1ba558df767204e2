import PulseSequencer.Opcode
import Mathlib.Data.List.Sort

/-!
# Loops as brackets

The first and the last word of a loop belong together like brackets.  `Balanced`, `Matches` and
`Encloses` say so about the opcodes of a program by themselves; `scan` reads the opcodes from left to
right with a stack of the loops that are open.

* `scan_of_balanced`, `scan_take_of_balanced`: a balanced part leaves the stack as it is, and on the
  way only puts loops on top of it.
* `kept_or_closed_of_scan`: a scan leaves an open loop where it is, or closes it after a balanced part.
* `balanced_iff_scan`: what is balanced, the scan decides.
* `scan_take_suffix`: below an open loop is the stack as it was in front of that loop.
* `mem_iff_not_ended`: the open loops in front of a word have begun and not ended; `Matches.end_unique`
  and `Matches.begin_unique` say that a loop has one end and an end one loop.
* `reverse_eq_enclosing`: if all loops end, the open ones in front of a word are those that enclose it.
-/

namespace PulseSequencer.Assembly

/-- Every loop is closed, and no other one. -/
inductive Balanced : List Opcode → Prop
  | nil : Balanced []
  | other {op : Opcode} {ops : List Opcode} (hloop : op ≠ .loop) (hend : op ≠ .endLoop)
      (rest : Balanced ops) : Balanced (op :: ops)
  | loop {body ops : List Opcode} (inner : Balanced body) (rest : Balanced ops) :
    Balanced (.loop :: (body ++ .endLoop :: ops))

/-- The loop that begins at `l` ends at `e`: what is between is balanced. -/
def Matches (ops : List Opcode) (l e : Nat) : Prop :=
  ∃ front body back, ops = front ++ .loop :: (body ++ .endLoop :: back) ∧ Balanced body ∧
    front.length = l ∧ e = l + 1 + body.length

/-- The word at `k` is in the loop that begins at `l`; the last word of a loop is in it, the first word
is not. -/
def Encloses (ops : List Opcode) (l k : Nat) : Prop :=
  l < k ∧ ∃ e, Matches ops l e ∧ k ≤ e

open Classical in
/-- The addresses of the loops that the word at `k` is in, outermost first. -/
noncomputable def enclosing (ops : List Opcode) (k : Nat) : List Nat :=
  (List.range k).filter fun l => Encloses ops l k

theorem balanced_of_no_loops {ops : List Opcode} (h : ∀ op ∈ ops, op ≠ .loop ∧ op ≠ .endLoop) :
    Balanced ops := by
  induction ops with
  | nil => exact .nil
  | cons op ops ih =>
    obtain ⟨⟨hloop, hend⟩, hrest⟩ := List.forall_mem_cons.mp h
    exact .other hloop hend (ih hrest)

/-! ### Scanning with a stack -/

/-- The open loops after a word, innermost first; there is no answer where a loop ends that has not
begun. -/
def stackAfter (address : Nat) (stack : List Nat) (op : Opcode) : Option (List Nat) :=
  match op, stack with
  | .loop, stack => some (address :: stack)
  | .endLoop, [] => none
  | .endLoop, _ :: stack => some stack
  | _, stack => some stack

/-- The open loops after words that begin at an address. -/
def scan (address : Nat) (stack : List Nat) : List Opcode → Option (List Nat)
  | [] => some stack
  | op :: ops => (stackAfter address stack op).bind fun stack => scan (address + 1) stack ops

theorem stackAfter_loop (a : Nat) (stack : List Nat) :
    stackAfter a stack .loop = some (a :: stack) := rfl

theorem stackAfter_endLoop (a s : Nat) (stack : List Nat) :
    stackAfter a (s :: stack) .endLoop = some stack := rfl

theorem stackAfter_other {op : Opcode} (hloop : op ≠ .loop) (hend : op ≠ .endLoop) (a : Nat)
    (stack : List Nat) : stackAfter a stack op = some stack := by
  cases op <;> simp_all [stackAfter]

theorem scan_append (a : Nat) (stack : List Nat) (xs ys : List Opcode) :
    scan a stack (xs ++ ys) = (scan a stack xs).bind fun stack => scan (a + xs.length) stack ys := by
  induction xs generalizing a stack with
  | nil => rfl
  | cons x xs ih =>
    simp only [List.cons_append, scan, Option.bind_assoc]
    refine Option.bind_congr fun stack' _ => ?_
    rw [ih, List.length_cons, Nat.add_assoc, Nat.add_comm 1]

theorem scan_concat (a : Nat) (stack : List Nat) (xs : List Opcode) (op : Opcode) :
    scan a stack (xs ++ [op]) =
      (scan a stack xs).bind fun stack => stackAfter (a + xs.length) stack op := by
  rw [scan_append]
  refine Option.bind_congr fun stack' _ => ?_
  rw [scan]
  cases stackAfter (a + xs.length) stack' op <;> rfl

theorem scan_of_balanced {ops : List Opcode} (h : Balanced ops) (a : Nat) (stack : List Nat) :
    scan a stack ops = some stack := by
  induction h generalizing a stack with
  | nil => rfl
  | other hloop hend _ ih => rw [scan, stackAfter_other hloop hend, Option.bind_some, ih]
  | loop _ _ ihb ihr =>
    rw [scan, stackAfter_loop, Option.bind_some, scan_append, ihb, Option.bind_some, scan,
      stackAfter_endLoop, Option.bind_some, ihr]

/-- On the way through a balanced part, loops are only put on top of the stack. -/
theorem scan_take_of_balanced {ops : List Opcode} (h : Balanced ops) (j a : Nat)
    (stack : List Nat) : ∃ top, scan a stack (ops.take j) = some (top ++ stack) := by
  induction h generalizing j a stack with
  | nil => exact ⟨[], by simp [scan]⟩
  | other hloop hend _ ih =>
    cases j with
    | zero => exact ⟨[], rfl⟩
    | succ j =>
      obtain ⟨top, htop⟩ := ih j (a + 1) stack
      exact ⟨top, by rw [List.take_succ_cons, scan, stackAfter_other hloop hend, Option.bind_some, htop]⟩
  | @loop body ops inner _ ihb ihr =>
    cases j with
    | zero => exact ⟨[], rfl⟩
    | succ j =>
      rw [List.take_succ_cons, scan, stackAfter_loop, Option.bind_some]
      by_cases hj : j ≤ body.length
      · -- inside the loop its own address is below what is put on top
        obtain ⟨top, htop⟩ := ihb j (a + 1) (a :: stack)
        rw [List.take_append_of_le_length hj, htop]
        exact ⟨top ++ [a], by simp⟩
      · obtain ⟨k, rfl⟩ : ∃ k, j = body.length + (k + 1) := ⟨j - body.length - 1, by omega⟩
        obtain ⟨top, htop⟩ := ihr k (a + 1 + body.length + 1) stack
        rw [List.take_length_add_append, List.take_succ_cons, scan_append, scan_of_balanced inner,
          Option.bind_some, scan, stackAfter_endLoop, Option.bind_some, htop]
        exact ⟨top, rfl⟩

/-- A scan leaves the innermost open loop where it is, or closes it after a balanced part. -/
theorem kept_or_closed_of_scan {ops : List Opcode} {a s : Nat} {stack stack' : List Nat}
    (h : scan a (s :: stack) ops = some stack') :
    (∃ top, stack' = top ++ s :: stack) ∨
      ∃ body back, ops = body ++ .endLoop :: back ∧ Balanced body ∧
        scan (a + body.length + 1) stack back = some stack' := by
  -- after an inner loop the rest is shorter, but not by one word
  induction hn : ops.length using Nat.strong_induction_on generalizing ops a s stack with
  | _ n ih =>
    cases ops with
    | nil =>
      cases h
      exact .inl ⟨[], rfl⟩
    | cons op ops =>
      rw [List.length_cons] at hn
      by_cases hend : op = .endLoop
      · subst hend
        exact .inr ⟨[], ops, rfl, .nil, h⟩
      · by_cases hloop : op = .loop
        · subst hloop
          rw [scan, stackAfter_loop, Option.bind_some] at h
          obtain ⟨top, rfl⟩ | ⟨inner, back, rfl, hinner, hback⟩ := ih ops.length (by omega) h rfl
          · exact .inl ⟨top ++ [a], by simp⟩
          simp only [List.length_append, List.length_cons] at hn
          obtain htop | ⟨body, rest, rfl, hbody, hrest⟩ := ih back.length (by omega) hback rfl
          · exact .inl htop
          refine .inr ⟨.loop :: (inner ++ .endLoop :: body), rest, by simp, .loop hinner hbody, ?_⟩
          rw [← hrest]
          congr 1
          simp only [List.length_cons, List.length_append]
          omega
        · rw [scan, stackAfter_other hloop hend, Option.bind_some] at h
          obtain htop | ⟨body, back, rfl, hbody, hback⟩ := ih ops.length (by omega) h rfl
          · exact .inl htop
          refine .inr ⟨op :: body, back, rfl, .other hloop hend hbody, ?_⟩
          rw [← hback]
          congr 1
          simp only [List.length_cons]
          omega

/-- A scan that ends with no open loop closes the innermost one after a balanced part. -/
theorem exists_close_of_scan {ops : List Opcode} {a s : Nat} {stack : List Nat}
    (h : scan a (s :: stack) ops = some []) :
    ∃ body back, ops = body ++ .endLoop :: back ∧ Balanced body ∧
      scan (a + body.length + 1) stack back = some [] := by
  obtain ⟨top, htop⟩ | hclosed := kept_or_closed_of_scan h
  · simp at htop
  · exact hclosed

/-- Words that a scan goes through with no loop open before and after are balanced. -/
theorem balanced_of_scan {ops : List Opcode} {a : Nat} (h : scan a [] ops = some []) :
    Balanced ops := by
  induction hn : ops.length using Nat.strong_induction_on generalizing ops a with
  | _ n ih =>
    cases ops with
    | nil => exact .nil
    | cons op ops =>
      rw [List.length_cons] at hn
      by_cases hloop : op = .loop
      · subst hloop
        obtain ⟨body, back, rfl, hbody, hback⟩ := exists_close_of_scan h
        simp only [List.length_append, List.length_cons] at hn
        exact .loop hbody (ih back.length (by omega) hback rfl)
      · by_cases hend : op = .endLoop
        · subst hend
          cases h
        · rw [scan, stackAfter_other hloop hend, Option.bind_some] at h
          exact .other hloop hend (ih ops.length (by omega) h rfl)

theorem balanced_iff_scan {ops : List Opcode} : Balanced ops ↔ scan 0 [] ops = some [] :=
  ⟨fun h => scan_of_balanced h 0 [], balanced_of_scan⟩

instance (ops : List Opcode) : Decidable (Balanced ops) :=
  decidable_of_iff' _ balanced_iff_scan

/-! ### The stack in front of a word -/

section Stack

variable {ops : List Opcode} {k s : Nat} {stack top : List Nat} {op : Opcode}

theorem scan_take_succ (hop : ops[k]? = some op) :
    scan 0 [] (ops.take (k + 1)) =
      (scan 0 [] (ops.take k)).bind fun stack => stackAfter k stack op := by
  have hk : k < ops.length := (List.getElem?_eq_some_iff.mp hop).1
  have htake : ops.take (k + 1) = ops.take k ++ [op] := by
    rw [List.take_add_one, hop]
    rfl
  have hlength : 0 + (ops.take k).length = k := by
    rw [List.length_take]
    omega
  rw [htake, scan_concat, hlength]

/-- If the scan of all words succeeds, so does that of the words in front of any one. -/
theorem exists_scan_take {final : List Nat} (h : scan 0 [] ops = some final)
    (hk : k ≤ ops.length) :
    ∃ stack, scan 0 [] (ops.take k) = some stack ∧ scan k stack (ops.drop k) = some final := by
  rw [← List.take_append_drop k ops, scan_append, Option.bind_eq_some_iff] at h
  obtain ⟨stack, htake, hdrop⟩ := h
  rw [List.length_take, Nat.zero_add, Nat.min_eq_left hk] at hdrop
  exact ⟨stack, htake, hdrop⟩

theorem exists_scan_take_of_le (h : scan 0 [] (ops.take k) = some stack) {l : Nat} (hlk : l ≤ k)
    (hl : l ≤ ops.length) :
    ∃ below, scan 0 [] (ops.take l) = some below ∧
      scan l below ((ops.take k).drop l) = some stack := by
  obtain ⟨below, hbelow, hrest⟩ := exists_scan_take h (k := l) (by
    rw [List.length_take]
    omega)
  rw [List.take_take, Nat.min_eq_left hlk] at hbelow
  exact ⟨below, hbelow, hrest⟩

/-- An open loop begins before, and below it is the stack as it was in front of it. -/
theorem scan_take_suffix (h : scan 0 [] (ops.take k) = some (top ++ s :: stack)) :
    s < k ∧ ops[s]? = some .loop ∧ scan 0 [] (ops.take s) = some stack := by
  induction k generalizing top with
  | zero => simp [scan] at h
  | succ k ih =>
    cases hop : ops[k]? with
    | none =>
      have hlength := List.getElem?_eq_none_iff.mp hop
      rw [List.take_of_length_le (by omega), ← List.take_of_length_le hlength] at h
      obtain ⟨hs, hrest⟩ := ih h
      exact ⟨by omega, hrest⟩
    | some op =>
      rw [scan_take_succ hop, Option.bind_eq_some_iff] at h
      obtain ⟨before, hbefore, hafter⟩ := h
      by_cases hloop : op = .loop
      · subst hloop
        rw [stackAfter_loop, Option.some_inj] at hafter
        cases top with
        | nil =>
          obtain ⟨rfl, rfl⟩ := List.cons_eq_cons.mp hafter
          exact ⟨Nat.lt_succ_self k, hop, hbefore⟩
        | cons x top =>
          obtain ⟨-, rfl⟩ := List.cons_eq_cons.mp hafter
          obtain ⟨hs, hrest⟩ := ih hbefore
          exact ⟨by omega, hrest⟩
      · by_cases hend : op = .endLoop
        · subst hend
          cases before with
          | nil => cases hafter
          | cons x before =>
            rw [stackAfter_endLoop, Option.some_inj] at hafter
            subst hafter
            obtain ⟨hs, hrest⟩ := ih (show _ = some ((x :: top) ++ s :: stack) from hbefore)
            exact ⟨by omega, hrest⟩
        · rw [stackAfter_other hloop hend, Option.some_inj] at hafter
          subst hafter
          obtain ⟨hs, hrest⟩ := ih hbefore
          exact ⟨by omega, hrest⟩

/-- Inner loops begin after outer ones. -/
theorem pairwise_of_scan_take (h : scan 0 [] (ops.take k) = some stack) :
    stack.Pairwise (· > ·) := by
  induction stack generalizing k with
  | nil => exact .nil
  | cons s stack ih =>
    obtain ⟨-, -, hbelow⟩ := scan_take_suffix (show _ = some ([] ++ s :: stack) from h)
    refine List.pairwise_cons.mpr ⟨fun l hl => ?_, ih hbelow⟩
    obtain ⟨above, below, rfl⟩ := List.append_of_mem hl
    exact (scan_take_suffix hbelow).1

/-! ### Open loops enclose -/

/-- What is open later was open before or begins later. -/
theorem mem_or_le_of_scan {a l : Nat} {stack stack' : List Nat} {xs : List Opcode}
    (h : scan a stack xs = some stack') (hl : l ∈ stack') : l ∈ stack ∨ a ≤ l := by
  induction xs generalizing a stack with
  | nil =>
    cases h
    exact .inl hl
  | cons x xs ih =>
    rw [scan, Option.bind_eq_some_iff] at h
    obtain ⟨mid, hmid, h⟩ := h
    rcases ih h with hl | hl
    · unfold stackAfter at hmid
      split at hmid
      · cases hmid
        rcases List.mem_cons.mp hl with rfl | hl
        · exact .inr (Nat.le_refl l)
        · exact .inl hl
      · cases hmid
      · cases hmid
        exact .inl (List.mem_cons_of_mem _ hl)
      · cases hmid
        exact .inl hl
    · exact .inr (by omega)

section Matches

variable {l l' e e' : Nat} {below : List Nat}

theorem Balanced.not_append_endLoop {body back : List Opcode} (h : Balanced body) :
    ¬ Balanced (body ++ .endLoop :: back) := by
  intro hlonger
  have hscan := scan_of_balanced hlonger 0 []
  rw [scan_append, scan_of_balanced h, Option.bind_some] at hscan
  cases hscan

theorem Balanced.not_append_loop {front body : List Opcode} (h : Balanced body) :
    ¬ Balanced (front ++ .loop :: body) := by
  intro hlonger
  have hscan := scan_of_balanced hlonger 0 []
  rw [scan_append, Option.bind_eq_some_iff] at hscan
  obtain ⟨stack, -, hscan⟩ := hscan
  rw [scan, stackAfter_loop, Option.bind_some, scan_of_balanced h] at hscan
  cases hscan

theorem Matches.end_le (h : Matches ops l e) (h' : Matches ops l e') : e ≤ e' := by
  obtain ⟨front, body, back, rfl, hbody, rfl, rfl⟩ := h
  obtain ⟨front', body', back', hops, hbody', hlength, rfl⟩ := h'
  obtain ⟨-, hrest⟩ := List.append_inj hops hlength.symm
  rcases List.append_eq_append_iff.mp (List.cons_eq_cons.mp hrest).2 with
    ⟨more, rfl, -⟩ | ⟨more, rfl, hmore⟩
  · simp
  · cases more with
    | nil => simp
    | cons op more =>
      -- the longer body would hold the end of the shorter one
      obtain ⟨rfl, -⟩ := List.cons_eq_cons.mp hmore
      exact absurd hbody hbody'.not_append_endLoop

/-- A loop has one end. -/
theorem Matches.end_unique (h : Matches ops l e) (h' : Matches ops l e') : e = e' :=
  Nat.le_antisymm (h.end_le h') (h'.end_le h)

theorem Matches.begin_le (h : Matches ops l e) (h' : Matches ops l' e) : l ≤ l' := by
  obtain ⟨front, body, back, rfl, hbody, rfl, rfl⟩ := h
  obtain ⟨front', body', back', hops, hbody', rfl, hlength⟩ := h'
  have hops : (front ++ .loop :: body) ++ .endLoop :: back =
      (front' ++ .loop :: body') ++ .endLoop :: back' := by simpa using hops
  have hlength : (front ++ .loop :: body).length = (front' ++ .loop :: body').length := by
    simp only [List.length_append, List.length_cons]
    omega
  obtain ⟨hfront, -⟩ := List.append_inj hops hlength
  rcases List.append_eq_append_iff.mp hfront with ⟨more, rfl, -⟩ | ⟨more, rfl, hmore⟩
  · simp
  · cases more with
    | nil => simp
    | cons op more =>
      -- the longer body would hold the beginning of the shorter one
      obtain ⟨rfl, rfl⟩ := List.cons_eq_cons.mp hmore
      exact absurd hbody' hbody.not_append_loop

/-- An end has one loop. -/
theorem Matches.begin_unique (h : Matches ops l e) (h' : Matches ops l' e) : l = l' :=
  Nat.le_antisymm (h.begin_le h') (h'.begin_le h)

/-- From its first word to its last, a loop is open. -/
theorem scan_take_inside (h : Matches ops l e) (hbelow : scan 0 [] (ops.take l) = some below)
    (hl : l < k) (hk : k ≤ e) : ∃ top, scan 0 [] (ops.take k) = some (top ++ l :: below) := by
  obtain ⟨front, body, back, rfl, hbody, rfl, rfl⟩ := h
  obtain ⟨j, rfl⟩ : ∃ j, k = front.length + (j + 1) := ⟨k - front.length - 1, by omega⟩
  rw [List.take_left] at hbelow
  obtain ⟨top, htop⟩ := scan_take_of_balanced hbody j (front.length + 1) (front.length :: below)
  refine ⟨top, ?_⟩
  rw [List.take_length_add_append, List.take_succ_cons, List.take_append_of_le_length (by omega),
    scan_append, hbelow, Option.bind_some, scan, stackAfter_loop, Option.bind_some, Nat.zero_add,
    htop]

theorem Matches.opcodes (h : Matches ops l e) : ops[l]? = some .loop ∧ ops[e]? = some .endLoop := by
  obtain ⟨front, body, back, rfl, -, rfl, rfl⟩ := h
  constructor
  · simp
  · rw [Nat.add_assoc, List.getElem?_append_right (Nat.le_add_right _ _), Nat.add_sub_cancel_left,
      Nat.add_comm, List.getElem?_cons_succ, List.getElem?_append_right (Nat.le_refl _)]
    simp

/-- In front of its last word, a loop is the innermost one. -/
theorem scan_take_end (h : Matches ops l e) (hbelow : scan 0 [] (ops.take l) = some below) :
    scan 0 [] (ops.take e) = some (l :: below) := by
  obtain ⟨front, body, back, rfl, hbody, rfl, rfl⟩ := h
  rw [List.take_left] at hbelow
  have htake : (front ++ .loop :: (body ++ .endLoop :: back)).take
      (front.length + 1 + body.length) = front ++ .loop :: body := by
    rw [Nat.add_assoc, List.take_length_add_append, Nat.add_comm, List.take_succ_cons, List.take_left]
  rw [htake, scan_append, hbelow, Option.bind_some, scan, stackAfter_loop, Option.bind_some,
    scan_of_balanced hbody, Nat.zero_add]

/-- After its last word, the stack is as it was in front of the loop. -/
theorem scan_take_behind (h : Matches ops l e) (hbelow : scan 0 [] (ops.take l) = some below) :
    scan 0 [] (ops.take (e + 1)) = some below := by
  rw [scan_take_succ h.opcodes.2, scan_take_end h hbelow, Option.bind_some, stackAfter_endLoop]

/-- In a program that closes all its loops, every loop ends. -/
theorem exists_matches (h : scan 0 [] ops = some []) (hl : ops[l]? = some .loop) :
    ∃ e, Matches ops l e := by
  obtain ⟨hlt, hget⟩ := List.getElem?_eq_some_iff.mp hl
  obtain ⟨below, -, hdrop⟩ := exists_scan_take h (Nat.le_of_lt hlt)
  rw [List.drop_eq_getElem_cons hlt, hget, scan, stackAfter_loop, Option.bind_some] at hdrop
  obtain ⟨body, back, hops, hbody, -⟩ := exists_close_of_scan hdrop
  refine ⟨l + 1 + body.length, ops.take l, body, back, ?_, hbody, ?_, rfl⟩
  · rw [← hops, ← hget, ← List.drop_eq_getElem_cons hlt, List.take_append_drop]
  · rw [List.length_take]
    omega

/-- The loops that are open in front of a word are those that have begun and not ended yet. -/
theorem mem_iff_not_ended (hstack : scan 0 [] (ops.take k) = some stack) (hlk : l < k)
    (hloop : ops[l]? = some .loop) : l ∈ stack ↔ ∀ e, Matches ops l e → k ≤ e := by
  obtain ⟨hlt, hget⟩ := List.getElem?_eq_some_iff.mp hloop
  obtain ⟨below, hbelow, hrest⟩ :=
    exists_scan_take_of_le hstack (Nat.le_of_lt hlk) (Nat.le_of_lt hlt)
  constructor
  · intro hl e hmatch
    by_contra hek
    -- the loop was closed before, and what is open since then begins later
    have hle : l < e := by
      obtain ⟨_, _, _, _, _, _, he⟩ := hmatch
      omega
    have hsplit : ops.take k = ops.take (e + 1) ++ (ops.drop (e + 1)).take (k - (e + 1)) := by
      rw [← List.take_add]
      congr 1
      omega
    rw [hsplit, scan_append, scan_take_behind hmatch hbelow, Option.bind_some] at hstack
    rcases mem_or_le_of_scan hstack hl with hmem | hge
    · obtain ⟨above', below', rfl⟩ := List.append_of_mem hmem
      exact Nat.lt_irrefl l (scan_take_suffix hbelow).1
    · rw [List.length_take] at hge
      have hlength := (List.getElem?_eq_some_iff.mp hmatch.opcodes.2).1
      omega
  · intro hopen
    have hcons : (ops.take k).drop l = .loop :: (ops.take k).drop (l + 1) := by
      rw [List.drop_eq_getElem_cons (by simp; omega), List.getElem_take, hget]
    rw [hcons, scan, stackAfter_loop, Option.bind_some] at hrest
    obtain ⟨top, rfl⟩ | ⟨body, back, hbody, hbalanced, -⟩ := kept_or_closed_of_scan hrest
    · simp
    · -- it would end among the words in front
      exfalso
      have hops : ops = ops.take l ++ .loop :: (body ++ .endLoop :: (back ++ ops.drop k)) := by
        have hfront := List.take_append_drop l (ops.take k)
        rw [List.take_take, Nat.min_eq_left (Nat.le_of_lt hlk), hcons, hbody] at hfront
        nth_rewrite 1 [← List.take_append_drop k ops]
        rw [← hfront]
        simp
      have hlength := congrArg List.length hbody
      simp only [List.length_drop, List.length_take, List.length_append, List.length_cons] at hlength
      have hend := hopen (l + 1 + body.length) ⟨_, body, _, hops, hbalanced, by simp; omega, rfl⟩
      omega

end Matches

/-- In a program that closes all its loops, those that are open in front of a word enclose it. -/
theorem mem_iff_encloses (h : scan 0 [] ops = some [])
    (hstack : scan 0 [] (ops.take k) = some stack) {l : Nat} : l ∈ stack ↔ Encloses ops l k := by
  constructor
  · intro hl
    obtain ⟨above, below, rfl⟩ := List.append_of_mem hl
    obtain ⟨hlk, hloop, -⟩ := scan_take_suffix hstack
    obtain ⟨e, hmatch⟩ := exists_matches h hloop
    exact ⟨hlk, e, hmatch, (mem_iff_not_ended hstack hlk hloop).mp hl e hmatch⟩
  · rintro ⟨hlk, e, hmatch, hke⟩
    refine (mem_iff_not_ended hstack hlk hmatch.opcodes.1).mpr fun e' hmatch' => ?_
    rwa [hmatch'.end_unique hmatch]

/-- The end of a loop belongs to the innermost open one. -/
theorem matches_of_endLoop (h : scan 0 [] ops = some []) (hend : ops[k]? = some .endLoop) :
    ∃ s stack, scan 0 [] (ops.take k) = some (s :: stack) ∧ Matches ops s k := by
  obtain ⟨hlt, hget⟩ := List.getElem?_eq_some_iff.mp hend
  obtain ⟨stack, hstack, hdrop⟩ := exists_scan_take h (Nat.le_of_lt hlt)
  rw [List.drop_eq_getElem_cons hlt, hget, scan] at hdrop
  cases stack with
  | nil => cases hdrop
  | cons s stack =>
    obtain ⟨-, -, hbelow⟩ := scan_take_suffix (show _ = some ([] ++ s :: stack) from hstack)
    obtain ⟨hs, e, hmatch, hle⟩ :=
      (mem_iff_encloses h hstack).mp List.mem_cons_self
    refine ⟨s, stack, hstack, ?_⟩
    rcases Nat.lt_or_eq_of_le hle with hke | rfl
    · -- a loop that ended later would still be open after this word
      exfalso
      obtain ⟨top, htop⟩ := scan_take_inside hmatch hbelow (Nat.lt_succ_of_lt hs) hke
      rw [scan_take_succ hend, hstack, Option.bind_some, stackAfter_endLoop, Option.some_inj] at htop
      have hlength := congrArg List.length htop
      simp only [List.length_append, List.length_cons] at hlength
      omega
    · exact hmatch

/-- The open loops in front of a word, outermost first, are the loops that enclose it. -/
theorem reverse_eq_enclosing (h : scan 0 [] ops = some [])
    (hstack : scan 0 [] (ops.take k) = some stack) : stack.reverse = enclosing ops k := by
  have hsorted : stack.reverse.Pairwise (· < ·) :=
    List.pairwise_reverse.mpr (pairwise_of_scan_take hstack)
  have henclosing : (enclosing ops k).Pairwise (· < ·) :=
    List.Pairwise.filter _ List.pairwise_lt_range
  refine hsorted.eq_of_mem_iff henclosing fun l => ?_
  rw [List.mem_reverse, mem_iff_encloses h hstack]
  simp only [enclosing, List.mem_filter, List.mem_range, decide_eq_true_eq]
  exact ⟨fun hl => ⟨hl.1, hl⟩, fun hl => hl.2⟩

end Stack

end PulseSequencer.Assembly
