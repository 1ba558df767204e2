import PulseSequencer.Machine
import Mathlib.Data.List.Basic

/-!
# What one word does to the machine

`Moves` lists the seven ways in which a word leads to another one, each with the conditions under
which it is taken; `advance_eq_goto_iff` says that these are all, and `control_of_advance` which words
lead to no other one.  `Fails` lists the faults in the same way, for `fails_of_advance`.
-/

namespace PulseSequencer

/-- The word `i` takes the machine `m` to another word of a program of the given size. -/
inductive Moves (size maxDepth : Nat) (m : Machine) (i : Instruction) : Machine → Prop
  | plain (hop : i.opcode = .cont ∨ i.opcode = .longDelay ∨ i.opcode = .wait) :
    Moves size maxDepth m i m.next
  | call {target : Nat} (hop : i.opcode = .jsr) (htarget : i.operand = target)
      (hsize : target < size) (hdepth : m.calls.length < maxDepth) :
    Moves size maxDepth m i { m with address := target, calls := m.address :: m.calls }
  | ret {caller : Nat} {calls : List Nat} (hop : i.opcode = .rts)
      (hcalls : m.calls = caller :: calls) :
    Moves size maxDepth m i { m with address := caller + 1, calls }
  | enter (hop : i.opcode = .loop) (hcount : 0 < i.operand) (hfresh : m.reenters = false)
      (hdepth : m.loops.length < maxDepth) :
    Moves size maxDepth m i
      { m.next with loops := ⟨m.address, i.operand.toNat⟩ :: m.loops }
  | again (hop : i.opcode = .loop) (hcount : 0 < i.operand) (hreenter : m.reenters = true) :
    Moves size maxDepth m i m.next
  | leave {frame : LoopFrame} {loops : List LoopFrame} (hop : i.opcode = .endLoop)
      (hloops : m.loops = frame :: loops) (hleft : frame.left = 1) :
    Moves size maxDepth m i { m.next with loops }
  | back {frame : LoopFrame} {loops : List LoopFrame} (hop : i.opcode = .endLoop)
      (hloops : m.loops = frame :: loops) (hleft : frame.left ≠ 1) :
    Moves size maxDepth m i
      { m with address := frame.start, loops := { frame with left := frame.left - 1 } :: loops }

variable {size maxDepth : Nat} {m next : Machine} {i : Instruction}

theorem Moves.opcode_ne_branch (h : Moves size maxDepth m i next) : i.opcode ≠ .branch := by
  cases h with
  | plain hop => rcases hop with hop | hop | hop <;> simp [hop]
  | call hop => simp [hop]
  | ret hop => simp [hop]
  | enter hop => simp [hop]
  | again hop => simp [hop]
  | leave hop => simp [hop]
  | back hop => simp [hop]

theorem target_eq_ok_iff {target : Nat} :
    Machine.target i size = .ok target ↔ i.operand = target ∧ target < size := by
  unfold Machine.target
  split
  · simp only [Except.ok.injEq]
    omega
  · simp only [reduceCtorEq, false_iff]
    omega

theorem bind_goto_eq_ok_iff {x : Except FlowFault Machine} :
    (do return Control.goto (← x) : Except FlowFault Control) = .ok (.goto next) ↔ x = .ok next := by
  cases x <;> simp [bind, Except.bind, pure, Except.pure]

theorem moves_of_call {target : Nat} (hop : i.opcode = .jsr)
    (htarget : Machine.target i size = .ok target) (h : m.call target maxDepth = .ok next) :
    Moves size maxDepth m i next := by
  obtain ⟨hoperand, hsize⟩ := target_eq_ok_iff.mp htarget
  unfold Machine.call at h
  split at h
  · next hdepth => cases h; exact .call hop hoperand hsize hdepth
  · cases h

theorem moves_of_ret (hop : i.opcode = .rts) (h : m.ret = .ok next) :
    Moves size maxDepth m i next := by
  unfold Machine.ret at h
  split at h
  · cases h
  · next hcalls => cases h; exact .ret hop hcalls

theorem moves_of_beginLoop (hop : i.opcode = .loop) (h : m.beginLoop i.operand maxDepth = .ok next) :
    Moves size maxDepth m i next := by
  unfold Machine.beginLoop at h
  split at h
  · cases h
  · next hcount =>
    split at h
    · next hreenter => cases h; exact .again hop (Int.not_le.mp hcount) hreenter
    · next hfresh =>
      split at h
      · next hdepth =>
        cases h
        exact .enter hop (Int.not_le.mp hcount) (by simpa using hfresh) hdepth
      · cases h

theorem moves_of_endLoop (hop : i.opcode = .endLoop) (h : m.endLoop = .ok next) :
    Moves size maxDepth m i next := by
  unfold Machine.endLoop at h
  split at h
  · cases h
  · next hloops =>
    split at h
    · next hleft => cases h; exact .leave hop hloops hleft
    · next hleft => cases h; exact .back hop hloops hleft

/-- The words that lead to another one are those of `Moves`. -/
theorem advance_eq_goto_iff :
    m.advance i size maxDepth = .ok (.goto next) ↔ Moves size maxDepth m i next := by
  constructor
  · intro h
    unfold Machine.advance at h
    cases hop : i.opcode with simp only [hop] at h
    | cont => cases h; exact .plain (.inl hop)
    | longDelay => cases h; exact .plain (.inr (.inl hop))
    | wait => cases h; exact .plain (.inr (.inr hop))
    | jsr =>
      cases htarget : Machine.target i size with
      | error fault => rw [htarget] at h; cases h
      | ok target =>
        rw [htarget] at h
        exact moves_of_call hop htarget (bind_goto_eq_ok_iff.mp h)
    | rts => exact moves_of_ret hop (bind_goto_eq_ok_iff.mp h)
    | loop => exact moves_of_beginLoop hop (bind_goto_eq_ok_iff.mp h)
    | endLoop => exact moves_of_endLoop hop (bind_goto_eq_ok_iff.mp h)
    | stop => cases h
    | branch => cases htarget : Machine.target i size <;> rw [htarget] at h <;> cases h
  · intro h
    cases h with
    | plain hop => rcases hop with hop | hop | hop <;> simp [Machine.advance, hop]
    | call hop htarget hsize hdepth =>
      have ht := target_eq_ok_iff.mpr ⟨htarget, hsize⟩
      simp [Machine.advance, hop, ht, Machine.call, hdepth, bind, Except.bind, pure, Except.pure]
    | ret hop hcalls =>
      simp [Machine.advance, hop, Machine.ret, hcalls, bind, Except.bind, pure, Except.pure]
    | enter hop hcount hfresh hdepth =>
      simp [Machine.advance, hop, Machine.beginLoop, hfresh, hdepth, Int.not_le.mpr hcount, bind,
        Except.bind, pure, Except.pure]
    | again hop hcount hreenter =>
      simp [Machine.advance, hop, Machine.beginLoop, hreenter, Int.not_le.mpr hcount, bind,
        Except.bind, pure, Except.pure]
    | leave hop hloops hleft =>
      simp [Machine.advance, hop, Machine.endLoop, hloops, hleft, bind, Except.bind, pure,
        Except.pure]
    | back hop hloops hleft =>
      simp [Machine.advance, hop, Machine.endLoop, hloops, hleft, bind, Except.bind, pure,
        Except.pure]

/-- A branch restarts the program from an address that the program has. -/
theorem advance_branch {target : Nat} (hop : i.opcode = .branch) (htarget : i.operand = target)
    (hsize : target < size) : m.advance i size maxDepth = .ok (.restart target) := by
  have ht := target_eq_ok_iff.mpr ⟨htarget, hsize⟩
  simp [Machine.advance, hop, ht, bind, Except.bind, pure, Except.pure]

/-- How a word that can be run goes on, and which words do not lead to another one. -/
theorem control_of_advance {control : Control} (h : m.advance i size maxDepth = .ok control) :
    (∃ next, control = .goto next) ∨ (control = .halt ∧ i.opcode = .stop) ∨
      ∃ target : Nat, control = .restart target ∧ i.opcode = .branch ∧ i.operand = target := by
  have hgoto : ∀ {x : Except FlowFault Machine},
      (do return Control.goto (← x) : Except FlowFault Control) = .ok control →
      ∃ next, control = .goto next := by
    intro x hx
    cases x with
    | error fault => cases hx
    | ok next => exact ⟨next, (Except.ok.inj hx).symm⟩
  unfold Machine.advance at h
  cases hop : i.opcode with simp only [hop] at h
  | cont | longDelay | wait => exact .inl ⟨_, (Except.ok.inj h).symm⟩
  | jsr =>
    cases htarget : Machine.target i size with
    | error fault => rw [htarget] at h; cases h
    | ok target => rw [htarget] at h; exact .inl (hgoto h)
  | rts | loop | endLoop => exact .inl (hgoto h)
  | stop => exact .inr (.inl ⟨(Except.ok.inj h).symm, rfl⟩)
  | branch =>
    cases htarget : Machine.target i size with
    | error fault => rw [htarget] at h; cases h
    | ok target =>
      rw [htarget] at h
      exact .inr (.inr ⟨target, (Except.ok.inj h).symm, rfl, (target_eq_ok_iff.mp htarget).1⟩)

theorem opcode_of_halt (h : m.advance i size maxDepth = .ok .halt) : i.opcode = .stop := by
  obtain ⟨_, hc⟩ | ⟨-, hop⟩ | ⟨_, hc, -⟩ := control_of_advance h
  · cases hc
  · exact hop
  · cases hc

theorem branch_of_restart {target : Nat} (h : m.advance i size maxDepth = .ok (.restart target)) :
    i.opcode = .branch ∧ i.operand = target := by
  obtain ⟨_, hc⟩ | ⟨hc, -⟩ | ⟨_, hc, hop⟩ := control_of_advance h
  · cases hc
  · cases hc
  · cases hc
    exact hop

/-- The word `i` cannot be run on the machine `m` in a program of the given size. -/
inductive Fails (size maxDepth : Nat) (m : Machine) (i : Instruction) : FlowFault → Prop
  | target (hop : i.opcode = .jsr ∨ i.opcode = .branch)
      (htarget : ¬ (0 ≤ i.operand ∧ i.operand < size)) :
    Fails size maxDepth m i (.targetOutOfRange i.opcode i.operand size)
  | callDepth (hop : i.opcode = .jsr) (htarget : 0 ≤ i.operand ∧ i.operand < size)
      (hdepth : maxDepth ≤ m.calls.length) : Fails size maxDepth m i (.callsTooDeep maxDepth)
  | noCall (hop : i.opcode = .rts) (hcalls : m.calls = []) :
    Fails size maxDepth m i .returnWithoutCall
  | count (hop : i.opcode = .loop) (hcount : i.operand ≤ 0) :
    Fails size maxDepth m i (.loopCountNotPositive i.operand)
  | loopDepth (hop : i.opcode = .loop) (hcount : 0 < i.operand) (hfresh : m.reenters = false)
      (hdepth : maxDepth ≤ m.loops.length) : Fails size maxDepth m i (.loopsTooDeep maxDepth)
  | noLoop (hop : i.opcode = .endLoop) (hloops : m.loops = []) :
    Fails size maxDepth m i .endWithoutLoop

theorem bind_goto_eq_error_iff {x : Except FlowFault Machine} {fault : FlowFault} :
    (do return Control.goto (← x) : Except FlowFault Control) = .error fault ↔ x = .error fault := by
  cases x <;> simp [bind, Except.bind, pure, Except.pure]

theorem fails_of_target {fault : FlowFault} (hop : i.opcode = .jsr ∨ i.opcode = .branch)
    (h : Machine.target i size = .error fault) : Fails size maxDepth m i fault := by
  unfold Machine.target at h
  split at h
  · cases h
  · next htarget => cases h; exact .target hop htarget

theorem fails_of_call {target : Nat} {fault : FlowFault} (hop : i.opcode = .jsr)
    (htarget : Machine.target i size = .ok target) (h : m.call target maxDepth = .error fault) :
    Fails size maxDepth m i fault := by
  obtain ⟨hoperand, hsize⟩ := target_eq_ok_iff.mp htarget
  unfold Machine.call at h
  split at h
  · cases h
  · next hdepth => cases h; exact .callDepth hop (by omega) (Nat.not_lt.mp hdepth)

theorem fails_of_ret {fault : FlowFault} (hop : i.opcode = .rts) (h : m.ret = .error fault) :
    Fails size maxDepth m i fault := by
  unfold Machine.ret at h
  split at h
  · next hcalls => cases h; exact .noCall hop hcalls
  · cases h

theorem fails_of_beginLoop {fault : FlowFault} (hop : i.opcode = .loop)
    (h : m.beginLoop i.operand maxDepth = .error fault) : Fails size maxDepth m i fault := by
  unfold Machine.beginLoop at h
  split at h
  · next hcount => cases h; exact .count hop hcount
  · next hcount =>
    split at h
    · cases h
    · next hfresh =>
      split at h
      · cases h
      · next hdepth =>
        cases h
        exact .loopDepth hop (Int.not_le.mp hcount) (by simpa using hfresh) (Nat.not_lt.mp hdepth)

theorem fails_of_endLoop {fault : FlowFault} (hop : i.opcode = .endLoop) (h : m.endLoop = .error fault) :
    Fails size maxDepth m i fault := by
  unfold Machine.endLoop at h
  split at h
  · next hloops => cases h; exact .noLoop hop hloops
  · split at h <;> cases h

/-- The faults of words are those of `Fails`. -/
theorem fails_of_advance {fault : FlowFault} (h : m.advance i size maxDepth = .error fault) :
    Fails size maxDepth m i fault := by
  unfold Machine.advance at h
  cases hop : i.opcode with simp only [hop] at h
  | cont | longDelay | wait | stop => cases h
  | jsr =>
    cases htarget : Machine.target i size with
    | error fault' =>
      rw [htarget] at h
      cases h
      exact fails_of_target (.inl hop) htarget
    | ok target =>
      rw [htarget] at h
      exact fails_of_call hop htarget (bind_goto_eq_error_iff.mp h)
  | rts => exact fails_of_ret hop (bind_goto_eq_error_iff.mp h)
  | loop => exact fails_of_beginLoop hop (bind_goto_eq_error_iff.mp h)
  | endLoop => exact fails_of_endLoop hop (bind_goto_eq_error_iff.mp h)
  | branch =>
    cases htarget : Machine.target i size with
    | error fault' =>
      rw [htarget] at h
      cases h
      exact fails_of_target (.inr hop) htarget
    | ok target =>
      rw [htarget] at h
      cases h

end PulseSequencer
