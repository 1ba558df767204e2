import PulseSequencer.Config
import PulseSequencer.Machine

/-!
# Timelines

Running a program from its first word gives a timeline: one step for every word that is reached, in
order, with loops and subroutines written out. A run ends when it stops, branches or passes the last
word. It fails where control flow makes no sense, where it takes more steps than allowed, or where
its duration does not fit a word. It does not begin at all if its stacks, which are set aside for the
deepest nesting allowed, cannot be had.
-/

namespace PulseSequencer

/-- One word that was run. -/
structure Step where
  /-- The address of the word. -/
  address : Nat
  /-- In ns. -/
  duration : Nat
  flags : FlagWord
  deriving DecidableEq, Repr

/-- What a run of a program does to the outputs. -/
structure Timeline where
  steps : List Step
  /-- The first step of the part that a final branch repeats. -/
  branchIndex : Option Nat
  deriving DecidableEq, Repr

/-- Where a run fails, and why. -/
structure FlowError where
  address : Nat
  fault : FlowFault
  deriving DecidableEq, Repr

/-- Reports where and why a run fails as an error. -/
def FlowError.report (e : FlowError) : CompileError :=
  .controlFlow e.address e.fault

namespace Timeline

/-- The step that runs a word. -/
def stepOf (address : Nat) (i : Instruction) : Step :=
  { address, duration := i.duration, flags := i.flags }

/-- The first of the steps that ran the word at an address. -/
def firstAt (steps : List Step) (address : Nat) : Option Nat :=
  steps.findIdx? (·.address == address)

/-- Runs a program on from the machine `m` for at most `budget` more steps, after steps that took
`total` ns and are kept in `done`, the last one first. -/
def run (program : Program) (limits : Limits) :
    (budget : Nat) → (m : Machine) → (total : Nat) → (done : List Step) → Except FlowError Timeline
  | 0, m, _, done =>
    if m.address < program.size then .error ⟨m.address, .tooManySteps limits.maxSteps⟩
    else .ok ⟨done.reverse, none⟩
  | budget + 1, m, total, done =>
    if h : m.address < program.size then
      let i := program[m.address]
      let total := total + i.duration
      if wordLimit ≤ total then .error ⟨m.address, .durationOverflow⟩
      else
        let done := stepOf m.address i :: done
        match m.advance i program.size limits.maxDepth with
        | .error fault => .error ⟨m.address, fault⟩
        | .ok .halt => .ok ⟨done.reverse, none⟩
        | .ok (.restart target) => .ok ⟨done.reverse, firstAt done.reverse target⟩
        | .ok (.goto next) => run program limits budget next total done
    else .ok ⟨done.reverse, none⟩

/-- Sets the stacks aside and runs a program from its first word. -/
def unroll (program : Program) (limits : Limits) : Except CompileError Timeline := do
  if program.isEmpty then
    throw (.controlFlow 0 .emptyProgram)
  if stackLimit ≤ limits.maxDepth then
    throw (.capacity limits.maxDepth)
  (run program limits limits.maxSteps {} 0 []).mapError FlowError.report

/-- The durations of the steps, in ns. -/
def durations (t : Timeline) : List Nat :=
  t.steps.map Step.duration

/-- The outputs of the steps. -/
def flags (t : Timeline) : List FlagWord :=
  t.steps.map Step.flags

/-- The addresses of the words that were run. -/
def addresses (t : Timeline) : List Nat :=
  t.steps.map Step.address

/-- The sum of durations. -/
def sum (durations : List Nat) : Nat :=
  durations.foldr (· + ·) 0

/-- The duration of the whole run, in ns. -/
def totalDuration (t : Timeline) : Nat :=
  sum t.durations

/-- The duration of the part that a final branch repeats, in ns. -/
def repeatDuration (t : Timeline) : Option Nat :=
  t.branchIndex.map fun start => sum (t.durations.drop start)

/-- The time at which each step begins, and at the end the time at which the last one ends. -/
def times (t : Timeline) : List Nat :=
  let (total, starts) := t.durations.foldl (fun (now, acc) d => (now + d, now :: acc)) (0, [])
  (total :: starts).reverse

@[simp] theorem sum_nil : sum [] = 0 := rfl

@[simp] theorem sum_cons (d : Nat) (durations : List Nat) :
    sum (d :: durations) = d + sum durations := rfl

theorem sum_append (xs ys : List Nat) : sum (xs ++ ys) = sum xs + sum ys := by
  induction xs with
  | nil => simp
  | cons x xs ih => simp [ih, Nat.add_assoc]

theorem le_sum_of_mem {d : Nat} {durations : List Nat} (h : d ∈ durations) : d ≤ sum durations := by
  induction durations with
  | nil => simp at h
  | cons a rest ih =>
    rw [sum_cons]
    rcases List.mem_cons.mp h with rfl | h
    · omega
    · have := ih h
      omega

end Timeline

end PulseSequencer
