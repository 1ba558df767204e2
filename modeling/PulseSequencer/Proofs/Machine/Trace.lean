import PulseSequencer.Proofs.Machine.Calls
import PulseSequencer.Proofs.Machine.Moves
import PulseSequencer.Proofs.Machine.Path

/-!
# Traces

A trace is the list of the addresses that a run comes to.  It says by itself where every word of it leads:
a return goes to the call that it is paired with, and the stack of the machine can be forgotten.

* `Follows`: which address may come after a step of a trace.
* `Traced.move`, `traced_of_path`: the stack of the machine holds the calls that are pending in the trace,
  and its loops began at words of the trace.
* `exists_step_of_unroll`: the machine in front of a step of an accepted run, and what its word does.
* `isTrace_of_unroll`: what all steps together obey.
-/

namespace PulseSequencer

open Timeline (stepOf)

/-! ### From step to step -/

/-- After step `k` of a trace, which is at the address `a`, comes the word at another address. -/
inductive Follows (p : Program) (visited : List Nat) (k a : Nat) : Nat → Prop
  | next (hop : opcodeAt p a = some .cont ∨ opcodeAt p a = some .longDelay ∨
      opcodeAt p a = some .wait ∨ opcodeAt p a = some .loop) : Follows p visited k a (a + 1)
  | call {i : Instruction} {target : Nat} (hword : p[a]? = some i) (hop : i.opcode = .jsr)
      (htarget : i.operand = target) : Follows p visited k a target
  | ret {j caller : Nat} (hop : opcodeAt p a = some .rts) (hcall : ReturnsFrom p visited k j)
      (hcaller : visited[j]? = some caller) : Follows p visited k a (caller + 1)
  | leave (hop : opcodeAt p a = some .endLoop) : Follows p visited k a (a + 1)
  | back {j start : Nat} (hop : opcodeAt p a = some .endLoop) (hbefore : j < k)
      (hstart : visited[j]? = some start) (hloop : opcodeAt p start = some .loop) :
    Follows p visited k a start

theorem Follows.not_ending {p : Program} {visited : List Nat} {k a b : Nat}
    (h : Follows p visited k a b) :
    ¬ (opcodeAt p a = some .stop ∨ opcodeAt p a = some .branch) := by
  cases h with
  | next hop => rcases hop with hop | hop | hop | hop <;> simp [hop]
  | call hword hop => simp [opcodeAt, hword, hop]
  | ret hop => simp [hop]
  | leave hop => simp [hop]
  | back hop => simp [hop]

theorem Follows.exists_call {p : Program} {visited : List Nat} {k a b : Nat}
    (h : Follows p visited k a b) (hret : opcodeAt p a = some .rts) :
    ∃ j, ReturnsFrom p visited k j := by
  cases h with
  | ret _ hcall => exact ⟨_, hcall⟩
  | next hop => rcases hop with hop | hop | hop | hop <;> simp [hop] at hret
  | call hword hop => simp [opcodeAt, hword, hop] at hret
  | leave hop => simp [hop] at hret
  | back hop => simp [hop] at hret

/-- The machine after the steps of a trace: the calls that it has to return from are those that are
pending, and its loops began at words of the trace. -/
structure Traced (p : Program) (maxDepth : Nat) (visited : List Nat) (m : Machine) : Prop where
  calls : ∃ steps, Pending p visited steps ∧
    List.Forall₂ (fun j caller => visited[j]? = some caller) steps m.calls
  depth : m.calls.length ≤ maxDepth
  loops : ∀ frame ∈ m.loops, frame.start ∈ visited ∧ opcodeAt p frame.start = some .loop
  bound : m.address ≤ p.size

section Steps

variable {p : Program} {maxDepth : Nat} {visited : List Nat} {m next m' : Machine} {i : Instruction}

theorem traced_start (p : Program) (maxDepth : Nat) : Traced p maxDepth [] {} where
  calls := ⟨[], .none .nil, .nil⟩
  depth := Nat.zero_le _
  loops := by simp
  bound := Nat.zero_le _

theorem opcodeAt_of_word {a : Nat} (hword : p[a]? = some i) : opcodeAt p a = some i.opcode := by
  rw [opcodeAt, hword]
  rfl

theorem lt_size_of_opcodeAt {a : Nat} {op : Opcode} (h : opcodeAt p a = some op) : a < p.size := by
  obtain ⟨i, hword, -⟩ := Option.map_eq_some_iff.mp h
  exact (Array.getElem?_eq_some_iff.mp hword).1

theorem forall₂_append {steps calls : List Nat}
    (h : List.Forall₂ (fun j caller => visited[j]? = some caller) steps calls) (rest : List Nat) :
    List.Forall₂ (fun j caller => (visited ++ rest)[j]? = some caller) steps calls := by
  refine h.imp fun j caller hj => ?_
  rw [List.getElem?_append_left (List.getElem?_eq_some_iff.mp hj).1, hj]

/-- A word that neither calls nor returns leaves the pending calls as they are. -/
theorem Traced.pending_other (h : Traced p maxDepth visited m) (hword : p[m.address]? = some i)
    (hcall : i.opcode ≠ .jsr) (hret : i.opcode ≠ .rts) :
    ∃ steps, Pending p (visited ++ [m.address]) steps ∧
      List.Forall₂ (fun j caller => (visited ++ [m.address])[j]? = some caller) steps m.calls := by
  obtain ⟨steps, hpending, hcallers⟩ := h.calls
  have hop := opcodeAt_of_word hword
  refine ⟨steps, hpending.append (returned_singleton ?_ ?_), forall₂_append hcallers _⟩
  · simpa [hop] using hcall
  · simpa [hop] using hret

theorem Traced.loops_append (h : Traced p maxDepth visited m) (rest : List Nat) :
    ∀ frame ∈ m.loops, frame.start ∈ visited ++ rest ∧ opcodeAt p frame.start = some .loop :=
  fun frame hframe =>
    ⟨List.mem_append_left _ (h.loops frame hframe).1, (h.loops frame hframe).2⟩

/-- One word more. -/
theorem Traced.move (h : Traced p maxDepth visited m) (hword : p[m.address]? = some i)
    (hmove : Moves p.size maxDepth m i next) : Traced p maxDepth (visited ++ [m.address]) next := by
  have hlt : m.address < p.size := (Array.getElem?_eq_some_iff.mp hword).1
  have hloops := h.loops_append [m.address]
  cases hmove with
  | plain hop =>
    have hother := h.pending_other hword (by rintro hop'; simp [hop'] at hop)
      (by rintro hop'; simp [hop'] at hop)
    exact ⟨hother, h.depth, hloops, hlt⟩
  | call hop htarget hsize hdepth =>
    obtain ⟨steps, hpending, hcallers⟩ := h.calls
    refine ⟨⟨visited.length :: steps, ?_, ?_⟩, hdepth, hloops, Nat.le_of_lt hsize⟩
    · exact .call hpending (by rw [opcodeAt_of_word hword, hop]) .nil
    · exact .cons (by simp) (forall₂_append hcallers _)
  | ret hop hcalls =>
    obtain ⟨steps, hpending, hcallers⟩ := h.calls
    rw [hcalls] at hcallers
    cases hcallers with
    | cons hcaller hcallers =>
      obtain ⟨hpending', ⟨a, ha, hcall⟩, -⟩ := hpending.ret (by rw [opcodeAt_of_word hword, hop])
      obtain rfl := Option.some_inj.mp (hcaller.symm.trans ha)
      have hdepth := h.depth
      rw [hcalls, List.length_cons] at hdepth
      exact ⟨⟨_, hpending', forall₂_append hcallers _⟩, by simp only; omega, hloops,
        lt_size_of_opcodeAt hcall⟩
  | enter hop hcount hfresh hdepth =>
    have hother := h.pending_other hword (by simp [hop]) (by simp [hop])
    refine ⟨hother, h.depth, ?_, hlt⟩
    intro frame hframe
    rcases List.mem_cons.mp hframe with rfl | hframe
    · exact ⟨by simp, by rw [opcodeAt_of_word hword, hop]⟩
    · exact hloops frame hframe
  | again hop =>
    exact ⟨h.pending_other hword (by simp [hop]) (by simp [hop]), h.depth, hloops, hlt⟩
  | leave hop hframes =>
    refine ⟨h.pending_other hword (by simp [hop]) (by simp [hop]), h.depth, ?_, hlt⟩
    intro frame hframe
    exact hloops frame (by rw [hframes]; exact List.mem_cons_of_mem _ hframe)
  | @back top loops hop hframes =>
    have htop := hloops top (by rw [hframes]; exact List.mem_cons_self)
    refine ⟨h.pending_other hword (by simp [hop]) (by simp [hop]), h.depth, ?_, ?_⟩
    · intro frame hframe
      rcases List.mem_cons.mp hframe with rfl | hframe
      · exact htop
      · exact hloops frame (by rw [hframes]; exact List.mem_cons_of_mem _ hframe)
    · exact Nat.le_of_lt (lt_size_of_opcodeAt htop.2)

theorem traced_of_path {steps : List Step} (hpath : Path p maxDepth m steps m')
    (h : Traced p maxDepth visited m) :
    Traced p maxDepth (visited ++ steps.map Step.address) m' := by
  induction hpath generalizing visited with
  | refl => simpa using h
  | @step m next m' i steps hword hnext _ ih =>
    simpa [stepOf] using ih (h.move hword (advance_eq_goto_iff.mp hnext))

/-- Where a word leads to can be read off the trace. -/
theorem Traced.follows (h : Traced p maxDepth visited m) (hword : p[m.address]? = some i)
    (hmove : Moves p.size maxDepth m i next) (rest : List Nat) :
    Follows p (visited ++ m.address :: rest) visited.length m.address next.address := by
  have hop' := opcodeAt_of_word hword
  cases hmove with
  | plain hop =>
    refine .next ?_
    rw [hop']
    rcases hop with hop | hop | hop <;> simp [hop]
  | call hop htarget => exact .call hword hop htarget
  | ret hop hcalls =>
    obtain ⟨steps, hpending, hcallers⟩ := h.calls
    rw [hcalls] at hcallers
    cases hcallers with
    | cons hcaller _ =>
      obtain ⟨-, -, hreturns⟩ := hpending.ret (by rw [hop', hop])
      refine .ret (by rw [hop', hop]) (hreturns rest) ?_
      rw [List.getElem?_append_left (List.getElem?_eq_some_iff.mp hcaller).1, hcaller]
  | enter hop => exact .next (by simp [hop', hop])
  | again hop => exact .next (by simp [hop', hop])
  | leave hop => exact .leave (by rw [hop', hop])
  | @back top loops hop hframes =>
    obtain ⟨hmem, hloop⟩ := h.loops top (by rw [hframes]; exact List.mem_cons_self)
    obtain ⟨j, hj, hstart⟩ := List.mem_iff_getElem.mp hmem
    refine .back (by rw [hop', hop]) hj ?_ hloop
    rw [List.getElem?_append_left hj, List.getElem?_eq_getElem hj, hstart]

end Steps

/-! ### Accepted runs -/

section Accepted

variable {p : Program} {limits : Limits} {t : Timeline} {k a : Nat}

theorem traced_of_take {m : Machine} (hpath : Path p limits.maxDepth {} (t.steps.take k) m) :
    Traced p limits.maxDepth (t.addresses.take k) m := by
  have htraced := traced_of_path hpath (traced_start p _)
  rwa [List.nil_append, List.map_take] at htraced

/-- In front of every step of an accepted run stands a machine that the trace accounts for.  Its word
leads to the next step or behind the last word of the program, or it ends the program. -/
theorem exists_step_of_unroll (h : Timeline.unroll p limits = .ok t)
    (ha : t.addresses[k]? = some a) :
    ∃ m i, Traced p limits.maxDepth (t.addresses.take k) m ∧ m.address = a ∧ p[a]? = some i ∧
      ((∃ next, Moves p.size limits.maxDepth m i next ∧
          (t.addresses[k + 1]? = some next.address ∨
            k + 1 = t.addresses.length ∧ next.address = p.size)) ∨
        k + 1 = t.addresses.length ∧ (i.opcode = .stop ∨ i.opcode = .branch)) := by
  have hlength : t.addresses.length = t.steps.length := List.length_map _
  rw [Timeline.addresses, List.getElem?_map, Option.map_eq_some_iff] at ha
  obtain ⟨step, hstep, rfl⟩ := ha
  cases hnext : t.steps[k + 1]? with
  | some after =>
    obtain ⟨m, next, i, hpath, hword, rfl, hadvance, haddress⟩ := exists_next_of_unroll h hstep hnext
    refine ⟨m, i, traced_of_take hpath, rfl, hword, .inl ⟨next, advance_eq_goto_iff.mp hadvance, ?_⟩⟩
    exact .inl (by rw [Timeline.addresses, List.getElem?_map, hnext, haddress]; rfl)
  | none =>
    obtain ⟨front, m, i, hsteps, hpath, hword, hend⟩ := exists_last_of_unroll h
    have hk : k = front.length := by
      have hlt := (List.getElem?_eq_some_iff.mp hstep).1
      have hge := List.getElem?_eq_none_iff.mp hnext
      rw [hsteps, List.length_append, List.length_singleton] at hlt hge
      omega
    have htake : t.steps.take k = front := by rw [hsteps, hk, List.take_left]
    have hlast : k + 1 = t.addresses.length := by rw [hlength, hsteps, hk]; simp
    obtain rfl : step = stepOf m.address i := by
      rw [hsteps, hk, List.getElem?_concat_length, Option.some_inj] at hstep
      exact hstep.symm
    have htraced : Traced p limits.maxDepth (t.addresses.take k) m :=
      traced_of_take (by rwa [htake])
    refine ⟨m, i, htraced, rfl, hword, ?_⟩
    obtain ⟨next, hadvance, hpast, -⟩ | ⟨hhalt, -⟩ | ⟨target, hrestart, -⟩ := hend
    · have hmove := advance_eq_goto_iff.mp hadvance
      exact .inl ⟨next, hmove, .inr ⟨hlast, Nat.le_antisymm (htraced.move hword hmove).bound hpast⟩⟩
    · exact .inr ⟨hlast, .inl (opcode_of_halt hhalt)⟩
    · exact .inr ⟨hlast, .inr (branch_of_restart hrestart).1⟩

/-- What follows a step of an accepted run, unless the step ends it. -/
theorem exists_follows_of_unroll (h : Timeline.unroll p limits = .ok t)
    (ha : t.addresses[k]? = some a) :
    (∃ b, Follows p t.addresses k a b ∧
      (t.addresses[k + 1]? = some b ∨ k + 1 = t.addresses.length ∧ b = p.size)) ∨
    k + 1 = t.addresses.length ∧
      (opcodeAt p a = some .stop ∨ opcodeAt p a = some .branch) := by
  obtain ⟨m, i, htraced, rfl, hword, ⟨next, hmove, hnext⟩ | ⟨hlast, hop⟩⟩ :=
    exists_step_of_unroll h ha
  · have hlt := (List.getElem?_eq_some_iff.mp ha).1
    have hfollows := htraced.follows hword hmove (t.addresses.drop (k + 1))
    have hsplit : t.addresses.take k ++ m.address :: t.addresses.drop (k + 1) = t.addresses := by
      rw [← (List.getElem?_eq_some_iff.mp ha).2, ← List.drop_eq_getElem_cons hlt,
        List.take_append_drop]
    rw [hsplit, List.length_take, Nat.min_eq_left (Nat.le_of_lt hlt)] at hfollows
    exact .inl ⟨_, hfollows, hnext⟩
  · refine .inr ⟨hlast, ?_⟩
    rw [opcodeAt_of_word hword]
    rcases hop with hop | hop <;> simp [hop]

/-- At every point of an accepted run there are no more calls open than allowed. -/
theorem exists_pending_of_unroll (h : Timeline.unroll p limits = .ok t) (k : Nat) :
    ∃ calls, Pending p (t.addresses.take k) calls ∧ calls.length ≤ limits.maxDepth := by
  have hbound : ∀ {visited : List Nat} {m : Machine}, Traced p limits.maxDepth visited m →
      ∃ calls, Pending p visited calls ∧ calls.length ≤ limits.maxDepth := by
    intro visited m htraced
    obtain ⟨calls, hpending, hcallers⟩ := htraced.calls
    exact ⟨calls, hpending, hcallers.length_eq ▸ htraced.depth⟩
  by_cases hk : k < t.addresses.length
  · obtain ⟨m, i, htraced, -⟩ := exists_step_of_unroll h (List.getElem?_eq_getElem hk)
    exact hbound htraced
  · -- all steps: those before the last one, and the last one
    obtain ⟨front, m, i, hsteps, hpath, hword, hend⟩ := exists_last_of_unroll h
    have htraced := traced_of_path hpath (traced_start p _)
    have hall : t.addresses.take k = front.map Step.address ++ [m.address] := by
      rw [List.take_of_length_le (Nat.not_lt.mp hk), Timeline.addresses, hsteps]
      simp [stepOf]
    rw [List.nil_append] at htraced
    rw [hall]
    have hends : i.opcode = .stop ∨ i.opcode = .branch →
        ∃ calls, Pending p (front.map Step.address ++ [m.address]) calls ∧
          calls.length ≤ limits.maxDepth := by
      intro hop
      obtain ⟨calls, hpending, hcallers⟩ := htraced.pending_other hword
        (by rintro hop'; simp [hop'] at hop) (by rintro hop'; simp [hop'] at hop)
      exact ⟨calls, hpending, hcallers.length_eq ▸ htraced.depth⟩
    obtain ⟨next, hadvance, -⟩ | ⟨hhalt, -⟩ | ⟨target, hrestart, -⟩ := hend
    · exact hbound (htraced.move hword (advance_eq_goto_iff.mp hadvance))
    · exact hends (.inl (opcode_of_halt hhalt))
    · exact hends (.inr (branch_of_restart hrestart).1)

end Accepted

/-- The addresses are a way through the program from its first word, on which calls and returns are
paired like brackets. -/
structure IsTrace (p : Program) (maxDepth : Nat) (visited : List Nat) : Prop where
  first : visited[0]? = some 0
  inRange : ∀ a ∈ visited, a < p.size
  follows : ∀ k a b, visited[k]? = some a → visited[k + 1]? = some b → Follows p visited k a b
  /-- Only the last step may end the program. -/
  ends : ∀ k a, visited[k]? = some a → opcodeAt p a = some .stop ∨ opcodeAt p a = some .branch →
    k + 1 = visited.length
  /-- A last step that does not end the program leads behind its last word. -/
  last : ∀ k a, visited[k]? = some a → k + 1 = visited.length →
    opcodeAt p a = some .stop ∨ opcodeAt p a = some .branch ∨ Follows p visited k a p.size
  /-- Every return belongs to a call, and to one only. -/
  returns : ∀ k a, visited[k]? = some a → opcodeAt p a = some .rts → ∃! j, ReturnsFrom p visited k j
  depth : ∀ k, (openCalls p (visited.take k)).length ≤ maxDepth
  passes : ∀ a ∈ visited, ∀ i, p[a]? = some i → i.opcode = .loop → 0 < i.operand

/-- **An accepted run is a well-bracketed way through the program.** -/
theorem isTrace_of_unroll {p : Program} {limits : Limits} {t : Timeline}
    (h : Timeline.unroll p limits = .ok t) : IsTrace p limits.maxDepth t.addresses where
  first := by
    obtain ⟨front, last, i, hsteps, -⟩ := exists_last_of_unroll h
    obtain ⟨step, hstep⟩ : ∃ step, t.steps[0]? = some step :=
      ⟨_, List.getElem?_eq_getElem (by rw [hsteps]; simp)⟩
    obtain ⟨m, i, hpath, -, rfl⟩ := exists_mid_of_unroll h hstep
    rw [List.take_zero] at hpath
    cases hpath
    rw [Timeline.addresses, List.getElem?_map, hstep]
    rfl
  inRange a ha := by
    obtain ⟨k, hk⟩ := List.getElem?_of_mem ha
    obtain ⟨m, i, -, -, hword, -⟩ := exists_step_of_unroll h hk
    exact (Array.getElem?_eq_some_iff.mp hword).1
  follows k a b ha hb := by
    have hnot : k + 1 ≠ t.addresses.length := Nat.ne_of_lt (List.getElem?_eq_some_iff.mp hb).1
    obtain ⟨b', hfollows, hnext | ⟨hlast, -⟩⟩ | ⟨hlast, -⟩ := exists_follows_of_unroll h ha
    · rwa [Option.some_inj.mp (hb.symm.trans hnext)]
    · exact absurd hlast hnot
    · exact absurd hlast hnot
  ends k a ha hop := by
    obtain ⟨b, hfollows, -⟩ | ⟨hlast, -⟩ := exists_follows_of_unroll h ha
    · exact absurd hop hfollows.not_ending
    · exact hlast
  last k a ha hlast := by
    obtain ⟨b, hfollows, hnext | ⟨-, rfl⟩⟩ | ⟨-, hop⟩ := exists_follows_of_unroll h ha
    · exact absurd hlast (Nat.ne_of_lt (List.getElem?_eq_some_iff.mp hnext).1)
    · exact .inr (.inr hfollows)
    · exact hop.imp_right .inl
  returns k a ha hop := by
    obtain ⟨b, hfollows, -⟩ | ⟨-, hend⟩ := exists_follows_of_unroll h ha
    · obtain ⟨j, hj⟩ := hfollows.exists_call hop
      exact ⟨j, hj, fun j' hj' => hj'.unique hj⟩
    · simp [hop] at hend
  depth k := by
    obtain ⟨calls, hpending, hdepth⟩ := exists_pending_of_unroll h k
    exact Nat.le_trans hpending.length_openCalls_le hdepth
  passes a ha i hword hop := by
    obtain ⟨k, hk⟩ := List.getElem?_of_mem ha
    obtain ⟨m, i', -, -, hword', ⟨next, hmove, -⟩ | ⟨-, hend⟩⟩ := exists_step_of_unroll h hk
    · obtain rfl := Option.some_inj.mp (hword.symm.trans hword')
      cases hmove with
      | enter _ hcount => exact hcount
      | again _ hcount => exact hcount
      | plain hop' => simp [hop] at hop'
      | call hop' => simp [hop] at hop'
      | ret hop' => simp [hop] at hop'
      | leave hop' => simp [hop] at hop'
      | back hop' => simp [hop] at hop'
    · obtain rfl := Option.some_inj.mp (hword.symm.trans hword')
      simp [hop] at hend

/-- A loop whose body calls the end of the loop, so that the second pass begins inside the first call. -/
def crossing : Program :=
  #[⟨none, 1, 10, .jsr, 2⟩, ⟨none, 0, 20, .stop, 0⟩, ⟨none, 2, 30, .loop, 2⟩, ⟨none, 3, 40, .jsr, 5⟩,
    ⟨none, 4, 50, .rts, 0⟩, ⟨none, 5, 60, .endLoop, 2⟩, ⟨none, 6, 70, .rts, 0⟩]

-- the call at address 3 is open twice when the loop is left, and both returns come to address 4
theorem isTrace_of_unroll_crossing :
    ∃ t, Timeline.unroll crossing ⟨11, 3⟩ = .ok t ∧ t.addresses = [0, 2, 3, 5, 2, 3, 5, 6, 4, 4, 1] ∧
      IsTrace crossing 3 t.addresses := by
  obtain ⟨t, ht, haddresses⟩ : ∃ t, Timeline.unroll crossing ⟨11, 3⟩ = .ok t ∧
      t.addresses = [0, 2, 3, 5, 2, 3, 5, 6, 4, 4, 1] := ⟨_, rfl, rfl⟩
  exact ⟨t, ht, haddresses, isTrace_of_unroll ht⟩

end PulseSequencer
