import PulseSequencer.Error

/-!
# The machine that runs a program

Between two words the machine knows the address of the next one, the calls it has to return from and
the loops it is in. `Machine.advance` says what one word does to it. The end of a loop goes back to
the word that began it, and that word then finds its own frame on top and opens no second one.
-/

namespace PulseSequencer

/-- A loop that is being run. -/
structure LoopFrame where
  /-- The address of the word that began it. -/
  start : Nat
  /-- The passes that have not ended yet, the current one included. -/
  left : Nat
  deriving DecidableEq, Repr

/-- The state between two words. -/
structure Machine where
  /-- The address of the next word. -/
  address : Nat := 0
  /-- The addresses of the calls to return from, innermost first. -/
  calls : List Nat := []
  /-- The loops being run, innermost first. -/
  loops : List LoopFrame := []
  deriving DecidableEq, Repr

/-- How a run continues after a word. -/
inductive Control where
  /-- With the next word. -/
  | goto (next : Machine)
  /-- Not at all. -/
  | halt
  /-- From an address, over and over. -/
  | restart (target : Nat)
  deriving DecidableEq, Repr

namespace Machine

/-- The address a word jumps to, if the program has it. -/
def target (i : Instruction) (size : Nat) : Except FlowFault Nat :=
  if 0 ≤ i.operand ∧ i.operand < size then .ok i.operand.toNat
  else .error (.targetOutOfRange i.opcode i.operand size)

/-- The machine at the following address. -/
def next (m : Machine) : Machine :=
  { m with address := m.address + 1 }

/-- Calls the subroutine at an address. -/
def call (m : Machine) (target maxDepth : Nat) : Except FlowFault Machine :=
  if m.calls.length < maxDepth then .ok { m with address := target, calls := m.address :: m.calls }
  else .error (.callsTooDeep maxDepth)

/-- Returns from the innermost subroutine to the word after its call. -/
def ret (m : Machine) : Except FlowFault Machine :=
  match m.calls with
  | [] => .error .returnWithoutCall
  | caller :: calls => .ok { m with address := caller + 1, calls }

/-- Is the innermost loop the one that begins at the current address? -/
def reenters (m : Machine) : Bool :=
  match m.loops with
  | [] => false
  | frame :: _ => frame.start == m.address

/-- Begins a loop of `count` passes, or a further pass of the innermost one. -/
def beginLoop (m : Machine) (count : Int) (maxDepth : Nat) : Except FlowFault Machine :=
  if count ≤ 0 then .error (.loopCountNotPositive count)
  else if m.reenters then .ok m.next
  else if m.loops.length < maxDepth then
    .ok { m.next with loops := ⟨m.address, count.toNat⟩ :: m.loops }
  else .error (.loopsTooDeep maxDepth)

/-- Ends a pass of the innermost loop: the last one leaves the loop, any other goes back. -/
def endLoop (m : Machine) : Except FlowFault Machine :=
  match m.loops with
  | [] => .error .endWithoutLoop
  | frame :: loops =>
    if frame.left = 1 then .ok { m.next with loops }
    else .ok { m with address := frame.start, loops := { frame with left := frame.left - 1 } :: loops }

/-- What one word of a program of the given size does. -/
def advance (m : Machine) (i : Instruction) (size maxDepth : Nat) : Except FlowFault Control :=
  match i.opcode with
  | .cont | .longDelay | .wait => .ok (.goto m.next)
  | .jsr => do return .goto (← m.call (← target i size) maxDepth)
  | .rts => do return .goto (← m.ret)
  | .loop => do return .goto (← m.beginLoop i.operand maxDepth)
  | .endLoop => do return .goto (← m.endLoop)
  | .stop => .ok .halt
  | .branch => do return .restart (← target i size)

end Machine

end PulseSequencer
