import PulseSequencer.Proofs.Machine.Path
import Mathlib.Data.Fintype.Card
import Mathlib.Data.Fintype.EquivFin
import Mathlib.Data.List.FinRange
import Mathlib.Data.PNat.Notation
import Mathlib.Logic.Relation

/-!
# Structured programs

A structured program is a main block with any number of subroutines.  A block is a sequence of plain
words, loops around blocks, and calls of subroutines; no subroutine calls itself, directly or through
others.

* `StructuredProgram.program`: the words, with the main block first, then the word that ends the
  program, then the subroutines one after the other.
* `StructuredProgram.expansion`: the steps by recursion over the blocks, with no machine involved.
* `StructuredProgram.nesting`: how deep loops or calls are nested, counted through calls.
* `located_main`, `located_subroutine`: where the parts are in the program.
-/

namespace PulseSequencer

/-- What a word shows and for how long; all but its opcode and operand. -/
structure Hold where
  label : Option String := none
  flags : FlagWord
  duration : Nat
  deriving DecidableEq

namespace Hold

def word (h : Hold) (opcode : Opcode) (operand : Int) : Instruction :=
  { label := h.label, flags := h.flags, duration := h.duration, opcode, operand }

def step (h : Hold) (address : Nat) : Step :=
  { address, duration := h.duration, flags := h.flags }

end Hold

/-- The opcodes that only go on to the next word. -/
inductive PlainOpcode where
  | cont
  | longDelay
  | wait
  deriving DecidableEq

def PlainOpcode.opcode : PlainOpcode → Opcode
  | cont => .cont
  | longDelay => .longDelay
  | wait => .wait

/-- A block of a program with `n` subroutines. -/
inductive Block (n : Nat) where
  | done
  | plain (hold : Hold) (op : PlainOpcode) (operand : Int) (rest : Block n)
  /-- A loop of `count` passes through `body`; the operand of its last word may be any. -/
  | loop (first : Hold) (count : ℕ+) (body : Block n) (last : Hold) (operand : Int) (rest : Block n)
  | call (hold : Hold) (sub : Fin n) (rest : Block n)

namespace Block

variable {n : Nat}

def size : Block n → Nat
  | done => 0
  | plain _ _ _ rest => rest.size + 1
  | loop _ _ body _ _ rest => body.size + rest.size + 2
  | call _ _ rest => rest.size + 1

def words (entry : Fin n → Nat) : Block n → List Instruction
  | done => []
  | plain h op operand rest => h.word op.opcode operand :: rest.words entry
  | loop first count body last operand rest =>
    first.word .loop (count : Nat) ::
      (body.words entry ++ last.word .endLoop operand :: rest.words entry)
  | call h s rest => h.word .jsr (entry s) :: rest.words entry

def callees : Block n → List (Fin n)
  | done => []
  | plain _ _ _ rest => rest.callees
  | loop _ _ body _ _ rest => body.callees ++ rest.callees
  | call _ s rest => s :: rest.callees

/-- The steps of a block at an address: a plain word is one step, a loop is as many copies of its
first word, its body and its last word as it has passes, and a call is followed by the steps of the
subroutine. -/
def steps (sub : Fin n → List Step) : Nat → Block n → List Step
  | _, done => []
  | a, plain h _ _ rest => h.step a :: rest.steps sub (a + 1)
  | a, loop first count body last _ rest =>
    (List.replicate count
      (first.step a :: (body.steps sub (a + 1) ++ [last.step (a + 1 + body.size)]))).flatten ++
      rest.steps sub (a + body.size + 2)
  | a, call h s rest => h.step a :: (sub s ++ rest.steps sub (a + 1))

/-- The deepest nesting, where a loop counts `perLoop` and a call `perCall`. -/
def nesting (perLoop perCall : Nat) (sub : Fin n → Nat) : Block n → Nat
  | done => 0
  | plain _ _ _ rest => rest.nesting perLoop perCall sub
  | loop _ _ body _ _ rest =>
    max (body.nesting perLoop perCall sub + perLoop) (rest.nesting perLoop perCall sub)
  | call _ s rest => max (sub s + perCall) (rest.nesting perLoop perCall sub)

@[simp] theorem length_words (entry : Fin n → Nat) (b : Block n) :
    (b.words entry).length = b.size := by
  induction b with
  | done => rfl
  | plain h op operand rest ih => simp [words, size, ih]
  | loop first count body last operand rest ihb ihr => simp [words, size, ihb, ihr]; omega
  | call h s rest ih => simp [words, size, ih]

theorem steps_congr {f g : Fin n → List Step} {b : Block n} (h : ∀ t ∈ b.callees, f t = g t)
    (a : Nat) : b.steps f a = b.steps g a := by
  induction b generalizing a with
  | done => rfl
  | plain hold op operand rest ih => rw [steps, steps, ih h]
  | loop first count body last operand rest ihb ihr =>
    obtain ⟨hb, hr⟩ := List.forall_mem_append.mp h
    rw [steps, steps, ihb hb, ihr hr]
  | call hold s rest ih =>
    obtain ⟨hs, hr⟩ := List.forall_mem_cons.mp h
    rw [steps, steps, hs, ih hr]

theorem nesting_congr {perLoop perCall : Nat} {f g : Fin n → Nat} {b : Block n}
    (h : ∀ t ∈ b.callees, f t = g t) : b.nesting perLoop perCall f = b.nesting perLoop perCall g := by
  induction b with
  | done => rfl
  | plain hold op operand rest ih => rw [nesting, nesting, ih h]
  | loop first count body last operand rest ihb ihr =>
    obtain ⟨hb, hr⟩ := List.forall_mem_append.mp h
    rw [nesting, nesting, ihb hb, ihr hr]
  | call hold s rest ih =>
    obtain ⟨hs, hr⟩ := List.forall_mem_cons.mp h
    rw [nesting, nesting, hs, ih hr]

end Block

/-- A block and the word that returns from it. -/
structure Subroutine (n : Nat) where
  body : Block n
  ret : Hold
  operand : Int

namespace Subroutine

variable {n : Nat}

def size (s : Subroutine n) : Nat :=
  s.body.size + 1

/-- The words, for subroutines that begin at the addresses in `entry`. -/
def words (entry : Fin n → Nat) (s : Subroutine n) : List Instruction :=
  s.body.words entry ++ [s.ret.word .rts s.operand]

@[simp] theorem length_words (entry : Fin n → Nat) (s : Subroutine n) :
    (s.words entry).length = s.size := by
  simp [words, size]

end Subroutine

/-- The word that ends a program. -/
inductive Terminator where
  | stop (hold : Hold) (operand : Int)
  | branch (hold : Hold) (target : Nat)

namespace Terminator

def hold : Terminator → Hold
  | stop h _ => h
  | branch h _ => h

def word : Terminator → Instruction
  | stop h operand => h.word .stop operand
  | branch h target => h.word .branch target

def target? : Terminator → Option Nat
  | stop _ _ => none
  | branch _ target => some target

end Terminator

/-- The number of words of the first `k` subroutines. -/
def subroutinesSize {n : Nat} (subs : Fin n → Subroutine n) (k : Nat) : Nat :=
  Timeline.sum (((List.finRange n).take k).map fun s => (subs s).size)

/-- A main block, the word that ends it, and the subroutines. -/
structure StructuredProgram where
  n : Nat
  main : Block n
  terminator : Terminator
  subs : Fin n → Subroutine n
  /-- No chain of calls leads from a subroutine back to itself. -/
  acyclic : ∀ s, ¬ Relation.TransGen (fun s t => t ∈ (subs s).body.callees) s s
  /-- A final branch goes to a word of the program. -/
  inRange : ∀ target ∈ terminator.target?, target < main.size + 1 + subroutinesSize subs n

/-- Subroutines that call only earlier ones never call themselves. -/
theorem acyclic_of_lt {n : Nat} {subs : Fin n → Subroutine n}
    (h : ∀ s, ∀ t ∈ (subs s).body.callees, t < s) (s : Fin n) :
    ¬ Relation.TransGen (fun s t => t ∈ (subs s).body.callees) s s := by
  have key : ∀ t, Relation.TransGen (fun s t => t ∈ (subs s).body.callees) s t → t < s := by
    intro t ht
    induction ht with
    | single ht => exact h s _ ht
    | tail _ ht ih => exact lt_trans (h _ _ ht) ih
  exact fun hs => lt_irrefl s (key s hs)

/-! ### The words of a structured program -/

namespace StructuredProgram

variable (P : StructuredProgram)

def entry (s : Fin P.n) : Nat :=
  P.main.size + 1 + subroutinesSize P.subs s

/-- The words of all subroutines, one after the other. -/
def subroutineWords : List Instruction :=
  (List.finRange P.n).flatMap fun s => (P.subs s).words P.entry

def program : Program :=
  (P.main.words P.entry ++ P.terminator.word :: P.subroutineWords).toArray

/-! ### Recursion along the calls -/

def Calls (s t : Fin P.n) : Prop :=
  t ∈ (P.subs s).body.callees

instance (s t : Fin P.n) : Decidable (P.Calls s t) :=
  inferInstanceAs (Decidable (t ∈ (P.subs s).body.callees))

theorem wellFounded_calls : WellFounded fun t s => P.Calls s t := by
  have htrans : IsTrans (Fin P.n) fun t s => Relation.TransGen P.Calls s t :=
    ⟨fun _ _ _ h₁ h₂ => h₂.trans h₁⟩
  have hirrefl : Std.Irrefl fun t s => Relation.TransGen P.Calls s t := ⟨P.acyclic⟩
  have hwf := Finite.wellFounded_of_trans_of_irrefl fun t s => Relation.TransGen P.Calls s t
  exact Subrelation.wf Relation.TransGen.single hwf

/-- What `F` makes of a subroutine, given what it makes of those that are called; `default` stands for
all others. -/
noncomputable def alongCalls {α : Type} (default : α) (F : Fin P.n → (Fin P.n → α) → α) :
    Fin P.n → α :=
  P.wellFounded_calls.fix fun s ih => F s fun t => if h : P.Calls s t then ih t h else default

/-- The recursion is the one that it stands for, if `F` looks at called subroutines only. -/
theorem alongCalls_eq {α : Type} {default : α} {F : Fin P.n → (Fin P.n → α) → α}
    (hF : ∀ s f g, (∀ t, P.Calls s t → f t = g t) → F s f = F s g) (s : Fin P.n) :
    P.alongCalls default F s = F s (P.alongCalls default F) := by
  unfold alongCalls
  rw [WellFounded.fix_eq]
  refine hF s _ _ fun t ht => ?_
  rw [dif_pos ht]

/-- The steps of a subroutine: those of its body and the return. -/
noncomputable def subroutineSteps : Fin P.n → List Step :=
  P.alongCalls [] fun s sub =>
    (P.subs s).body.steps sub (P.entry s) ++ [(P.subs s).ret.step (P.entry s + (P.subs s).body.size)]

theorem subroutineSteps_eq (s : Fin P.n) :
    P.subroutineSteps s = (P.subs s).body.steps P.subroutineSteps (P.entry s) ++
      [(P.subs s).ret.step (P.entry s + (P.subs s).body.size)] :=
  P.alongCalls_eq (fun s _ _ h => by rw [Block.steps_congr h]) s

noncomputable def subroutineNesting (perLoop perCall : Nat) : Fin P.n → Nat :=
  P.alongCalls 0 fun s sub => (P.subs s).body.nesting perLoop perCall sub

theorem subroutineNesting_eq (perLoop perCall : Nat) (s : Fin P.n) :
    P.subroutineNesting perLoop perCall s =
      (P.subs s).body.nesting perLoop perCall (P.subroutineNesting perLoop perCall) :=
  P.alongCalls_eq (fun s _ _ h => by rw [Block.nesting_congr h]) s

/-- The steps of the whole program: those of the main block and the word that ends it. -/
noncomputable def expansion : List Step :=
  P.main.steps P.subroutineSteps 0 ++ [P.terminator.hold.step P.main.size]

noncomputable def nesting (perLoop perCall : Nat) : Nat :=
  P.main.nesting perLoop perCall (P.subroutineNesting perLoop perCall)

noncomputable def loopNesting : Nat :=
  P.nesting 1 0

noncomputable def callNesting : Nat :=
  P.nesting 0 1

end StructuredProgram

/-! ### Words in their places -/

theorem subroutinesSize_succ {n : Nat} (subs : Fin n → Subroutine n) (s : Fin n) :
    subroutinesSize subs (s + 1) = subroutinesSize subs s + (subs s).size := by
  have htake : (List.finRange n).take (s + 1) = (List.finRange n).take s ++ [s] := by
    rw [List.take_add_one]
    simp
  unfold subroutinesSize
  rw [htake, List.map_append, Timeline.sum_append]
  simp

theorem subroutinesSize_mono {n : Nat} (subs : Fin n → Subroutine n) {j k : Nat} (h : j ≤ k) :
    subroutinesSize subs j ≤ subroutinesSize subs k := by
  obtain ⟨c, rfl⟩ := Nat.exists_eq_add_of_le h
  unfold subroutinesSize
  rw [List.take_add, List.map_append, Timeline.sum_append]
  exact Nat.le_add_right _ _

namespace StructuredProgram

variable (P : StructuredProgram)

theorem located_main :
    Located P.program 0 (P.main.words P.entry ++ P.terminator.word :: P.subroutineWords) :=
  ⟨[], [], by simp [program], rfl⟩

theorem length_flatMap_words (k : Nat) :
    (((List.finRange P.n).take k).flatMap fun s => (P.subs s).words P.entry).length =
      subroutinesSize P.subs k := by
  unfold subroutinesSize
  induction (List.finRange P.n).take k with
  | nil => rfl
  | cons t ts ih =>
    rw [List.flatMap_cons, List.length_append, ih, Subroutine.length_words]
    rfl

theorem located_subroutine (s : Fin P.n) :
    Located P.program (P.entry s) ((P.subs s).words P.entry) := by
  have hwords : P.subroutineWords =
      ((List.finRange P.n).take s).flatMap (fun t => (P.subs t).words P.entry) ++
        ((P.subs s).words P.entry ++
          ((List.finRange P.n).drop (s + 1)).flatMap fun t => (P.subs t).words P.entry) := by
    unfold subroutineWords
    conv_lhs => rw [← List.take_append_drop s (List.finRange P.n)]
    rw [List.flatMap_append, List.drop_eq_getElem_cons (by simp), List.flatMap_cons]
    simp
  have h := P.located_main.right.tail
  rw [hwords] at h
  have hsub := h.right.left
  rw [length_flatMap_words, Block.length_words, Nat.zero_add] at hsub
  exact hsub

def Within (s : Fin P.n) (a : Nat) : Prop :=
  P.entry s ≤ a ∧ a < P.entry s + (P.subs s).size

theorem not_within_main {s : Fin P.n} {a : Nat} (h : a < P.main.size) : ¬ P.Within s a := by
  rintro ⟨h1, -⟩
  unfold entry at h1
  omega

theorem within_unique {s t : Fin P.n} {a : Nat} (hs : P.Within s a) (ht : P.Within t a) : s = t := by
  have key : ∀ s t : Fin P.n, s < t → P.entry s + (P.subs s).size ≤ P.entry t := by
    intro s t hst
    have h1 := subroutinesSize_succ P.subs s
    have h2 := subroutinesSize_mono P.subs (j := s + 1) (k := t) hst
    unfold entry
    omega
  obtain ⟨hs1, hs2⟩ := hs
  obtain ⟨ht1, ht2⟩ := ht
  rcases lt_trichotomy s t with h | h | h
  · have := key s t h
    omega
  · exact h
  · have := key t s h
    omega

theorem size_program : P.program.size = P.main.size + 1 + subroutinesSize P.subs P.n := by
  have h := P.length_flatMap_words P.n
  rw [List.take_of_length_le (by simp)] at h
  simp [program, subroutineWords, h]
  omega

end StructuredProgram

end PulseSequencer
