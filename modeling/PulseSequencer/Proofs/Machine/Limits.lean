import PulseSequencer.Proofs.Machine.Moves
import PulseSequencer.Proofs.Machine.Path

/-!
# Limits only cut runs off

The limits on steps and nesting are asked at three places of a run, and nowhere is anything computed
from them.  So two runs under different limits go side by side until one of them is refused.  Before
a run, though, its stacks are set aside for the deepest nesting allowed, needed or not.

* `advance_deeper`, `Path.deeper`: with room for deeper nesting a word does what it did, unless it was
  the nesting that was refused.
* `Ending.run_eq`: what ends a run under some limits ends it in the same way under wider ones.
* `unroll_cut_off`: an accepted run stays as it is as long as its own steps are allowed, and is cut off
  at the first step that is not; a fault of the program itself stays the same fault.  All that ends with
  `stackLimit`, as in `unroll_calledTwice_tooDeep`.
-/

namespace PulseSequencer

/-- Does the fault say that a limit was met, and nothing about the program? -/
def FlowFault.IsLimit : FlowFault → Prop
  | .tooManySteps _ | .callsTooDeep _ | .loopsTooDeep _ => True
  | _ => False

variable {p : Program} {limits limits' : Limits} {d d' size : Nat} {m m' : Machine} {i : Instruction}

/-! ### Deeper nesting -/

theorem call_deeper {target : Nat} (hd : d ≤ d') :
    m.call target d' = m.call target d ∨ m.call target d = .error (.callsTooDeep d) := by
  unfold Machine.call
  by_cases h : m.calls.length < d
  · rw [if_pos h, if_pos (by omega)]
    exact .inl rfl
  · exact .inr (if_neg h)

theorem beginLoop_deeper {count : Int} (hd : d ≤ d') :
    m.beginLoop count d' = m.beginLoop count d ∨
      m.beginLoop count d = .error (.loopsTooDeep d) := by
  unfold Machine.beginLoop
  by_cases hcount : count ≤ 0
  · rw [if_pos hcount, if_pos hcount]
    exact .inl rfl
  · rw [if_neg hcount, if_neg hcount]
    by_cases hreenter : m.reenters = true
    · rw [if_pos hreenter, if_pos hreenter]
      exact .inl rfl
    · rw [if_neg hreenter, if_neg hreenter]
      by_cases h : m.loops.length < d
      · rw [if_pos h, if_pos (by omega)]
        exact .inl rfl
      · exact .inr (if_neg h)

/-- With room for deeper nesting a word does what it did, unless it was refused for its depth. -/
theorem advance_deeper (hd : d ≤ d')
    (h : ∀ fault, m.advance i size d = .error fault → ¬ fault.IsLimit) :
    m.advance i size d' = m.advance i size d := by
  unfold Machine.advance at h ⊢
  cases hop : i.opcode with
  | jsr =>
    simp only [hop] at h ⊢
    cases htarget : Machine.target i size with
    | error fault => rfl
    | ok target =>
      rw [htarget] at h
      rcases @call_deeper d d' m target hd with hsame | hrefused
      · show (do return Control.goto (← m.call target d') : Except FlowFault Control) = _
        rw [hsame]
        rfl
      · exact absurd trivial (h _ (bind_goto_eq_error_iff.mpr hrefused))
  | loop =>
    simp only [hop] at h ⊢
    rcases @beginLoop_deeper d d' m i.operand hd with hsame | hrefused
    · rw [hsame]
    · exact absurd trivial (h _ (bind_goto_eq_error_iff.mpr hrefused))
  | _ => rfl

theorem Path.deeper {steps : List Step} (hd : d ≤ d') (h : Path p d m steps m') :
    Path p d' m steps m' := by
  induction h with
  | refl => exact .refl _
  | step hword hnext _ ih =>
    refine .step hword ?_ ih
    rw [advance_deeper hd (by simp [hnext]), hnext]

/-! ### The end of a run -/

section Ending

variable {budget budget' total : Nat} {done : List Step} {r : Except FlowError Timeline}

/-- What ends a run under some limits ends it in the same way under wider ones, if there is a step left
for the word that does it. -/
theorem Ending.run_eq (h : Ending p limits budget total done m r)
    (hdepth : limits.maxDepth ≤ limits'.maxDepth) (hbudget : m.address < p.size → 0 < budget')
    (hr : ∀ e, r = .error e → ¬ e.fault.IsLimit) :
    Timeline.run p limits' budget' m total done = r := by
  have hword_lt : ∀ {i : Instruction}, p[m.address]? = some i → m.address < p.size :=
    fun hword => (Array.getElem?_eq_some_iff.mp hword).1
  cases h with
  | past hpast => exact run_past hpast
  | exhausted => exact absurd trivial (hr _ rfl)
  | overflow hword _ htotal =>
    obtain ⟨left, rfl⟩ := Nat.exists_eq_add_of_lt (hbudget (hword_lt hword))
    exact run_overflow hword htotal
  | fault hword _ htotal hadvance =>
    obtain ⟨left, rfl⟩ := Nat.exists_eq_add_of_lt (hbudget (hword_lt hword))
    have hsame := advance_deeper hdepth fun fault hfault => by
      rw [hadvance] at hfault
      cases hfault
      exact hr _ rfl
    rw [run_word hword htotal, hsame, hadvance]
  | halt hword _ htotal hadvance =>
    obtain ⟨left, rfl⟩ := Nat.exists_eq_add_of_lt (hbudget (hword_lt hword))
    rw [run_word hword htotal, advance_deeper hdepth (by simp [hadvance]), hadvance]
  | restart hword _ htotal hadvance =>
    obtain ⟨left, rfl⟩ := Nat.exists_eq_add_of_lt (hbudget (hword_lt hword))
    rw [run_word hword htotal, advance_deeper hdepth (by simp [hadvance]), hadvance]

/-- A word that ends an accepted run is a step of it. -/
theorem Ending.length_le {t : Timeline} (h : Ending p limits budget total done m (.ok t)) :
    done.length ≤ t.steps.length ∧ (m.address < p.size → done.length < t.steps.length) := by
  cases h with
  | past hpast => exact ⟨by simp, fun hlt => absurd hlt (Nat.not_lt.mpr hpast)⟩
  | halt => simp
  | restart => simp

end Ending

/-! ### Two runs side by side -/

/-- A run under other limits comes to the end of a path of the first and ends there in the same way. -/
theorem unroll_of_ending {steps : List Step} {budget : Nat} {r : Except FlowError Timeline}
    (hsize : 0 < p.size) (hpath : Path p limits.maxDepth {} steps m)
    (htotal : stepsDuration steps < wordLimit)
    (hending : Ending p limits budget (stepsDuration steps) steps.reverse m r)
    (hdepth : limits.maxDepth ≤ limits'.maxDepth) (hstack : limits'.maxDepth < stackLimit)
    (hlength : steps.length ≤ limits'.maxSteps)
    (hleft : m.address < p.size → steps.length < limits'.maxSteps)
    (hr : ∀ e, r = .error e → ¬ e.fault.IsLimit) :
    Timeline.unroll p limits' = r.mapError FlowError.report := by
  rw [unroll_of_path hsize hstack (hpath.deeper hdepth) hlength htotal,
    hending.run_eq hdepth (fun hlt => Nat.sub_pos_of_lt (hleft hlt)) hr]

theorem unroll_of_accepted {t : Timeline} (hdepth : limits.maxDepth ≤ limits'.maxDepth)
    (hstack : limits'.maxDepth < stackLimit) (h : Timeline.unroll p limits = .ok t)
    (hsteps : t.steps.length ≤ limits'.maxSteps) : Timeline.unroll p limits' = .ok t := by
  obtain ⟨steps, m, hpath, -, htotal, hending⟩ := exists_ending_of_unroll h
  obtain ⟨hle, hlt⟩ := hending.length_le
  rw [List.length_reverse] at hle hlt
  exact unroll_of_ending (unroll_eq_ok_iff.mp h).1 hpath htotal hending hdepth hstack (by omega)
    (fun hword => Nat.lt_of_lt_of_le (hlt hword) hsteps) (by simp)

/-- With fewer steps allowed than an accepted run takes, the run is cut off in front of the first step
that is too much. -/
theorem unroll_of_too_few {t : Timeline} (hdepth : limits.maxDepth ≤ limits'.maxDepth)
    (hstack : limits'.maxDepth < stackLimit) (h : Timeline.unroll p limits = .ok t) {a : Nat}
    (ha : t.addresses[limits'.maxSteps]? = some a) :
    Timeline.unroll p limits' = .error (.controlFlow a (.tooManySteps limits'.maxSteps)) := by
  rw [Timeline.addresses, List.getElem?_map, Option.map_eq_some_iff] at ha
  obtain ⟨step, hstep, rfl⟩ := ha
  obtain ⟨m, i, hpath, hword, rfl⟩ := exists_mid_of_unroll h hstep
  have hlt := (List.getElem?_eq_some_iff.mp hstep).1
  have hlength : (t.steps.take limits'.maxSteps).length = limits'.maxSteps := by
    rw [List.length_take]
    omega
  have htotal : stepsDuration (t.steps.take limits'.maxSteps) < wordLimit := by
    have hsum := stepsDuration_append (t.steps.take limits'.maxSteps) (t.steps.drop limits'.maxSteps)
    have hall := stepsDuration_lt_of_unroll h
    rw [List.take_append_drop] at hsum
    omega
  rw [unroll_of_path (unroll_eq_ok_iff.mp h).1 hstack (hpath.deeper hdepth) (Nat.le_of_eq hlength)
    htotal, hlength, Nat.sub_self, Timeline.run, if_pos (Array.getElem?_eq_some_iff.mp hword).1]
  rfl

theorem unroll_of_fault {a : Nat} {fault : FlowFault} (hdepth : limits.maxDepth ≤ limits'.maxDepth)
    (hstack : limits'.maxDepth < stackLimit ∨ p.size = 0) (hsteps : limits.maxSteps ≤ limits'.maxSteps)
    (h : Timeline.unroll p limits = .error (.controlFlow a fault)) (hfault : ¬ fault.IsLimit) :
    Timeline.unroll p limits' = .error (.controlFlow a fault) := by
  obtain ⟨hsize, rfl, rfl⟩ | ⟨hsize, -, hrun⟩ := unroll_eq_controlFlow_iff.mp h
  · exact unroll_of_empty hsize limits'
  · obtain ⟨steps, m, hpath, hlength, htotal, hending⟩ := exists_ending_of_run hrun
    have hleft : steps.length < limits.maxSteps := by
      cases hending with
      | exhausted => exact absurd trivial hfault
      | overflow _ hbudget => omega
      | fault _ hbudget => omega
    refine unroll_of_ending hsize hpath htotal hending hdepth (by omega) (by omega)
      (fun _ => by omega) ?_
    intro e' he
    cases he
    exact hfault

/-- **Limits only cut runs off.**  Take two pairs of limits, the second with at least the depth of the
first, and with stacks that can be had.  A run that the first pair accepts is the same under the second
if all its steps are allowed, and otherwise is cut off in front of the first step that is not.  A run
that fails under the first pair, and not by a limit, fails in the same way under the second if that
allows as many steps.  Where the stacks of the second pair cannot be had, no program with words is run. -/
theorem unroll_cut_off (p : Program) (limits limits' : Limits)
    (hdepth : limits.maxDepth ≤ limits'.maxDepth) :
    (limits'.maxDepth < stackLimit → ∀ t, Timeline.unroll p limits = .ok t →
      (t.steps.length ≤ limits'.maxSteps → Timeline.unroll p limits' = .ok t) ∧
      (limits'.maxSteps < t.steps.length →
        ∃ a, t.addresses[limits'.maxSteps]? = some a ∧
          Timeline.unroll p limits' = .error (.controlFlow a (.tooManySteps limits'.maxSteps)) ∧
          FlowFault.message (.tooManySteps limits'.maxSteps) =
            "unrolling exceeded " ++ limits'.maxSteps.repr ++ " steps")) ∧
    (limits'.maxDepth < stackLimit ∨ p.size = 0 → ∀ a fault,
      Timeline.unroll p limits = .error (.controlFlow a fault) → ¬ fault.IsLimit →
      limits.maxSteps ≤ limits'.maxSteps →
      Timeline.unroll p limits' = .error (.controlFlow a fault)) ∧
    (stackLimit ≤ limits'.maxDepth → 0 < p.size →
      Timeline.unroll p limits' = .error (.capacity limits'.maxDepth)) := by
  refine ⟨fun hstack t h => ⟨unroll_of_accepted hdepth hstack h, fun hlt => ?_⟩,
    fun hstack a fault h hfault hsteps => unroll_of_fault hdepth hstack hsteps h hfault,
    fun hstack hsize => unroll_of_depth hsize hstack⟩
  obtain ⟨a, ha⟩ : ∃ a, t.addresses[limits'.maxSteps]? = some a := by
    refine ⟨_, List.getElem?_eq_getElem ?_⟩
    rwa [Timeline.addresses, List.length_map]
  exact ⟨a, ha, unroll_of_too_few hdepth hstack h ha, rfl⟩

/-- Two passes of a loop with a call in it, then the end of the program. -/
def calledTwice : Program :=
  #[⟨none, 1, 10, .loop, 2⟩, ⟨none, 2, 20, .jsr, 4⟩, ⟨none, 3, 30, .endLoop, 0⟩,
    ⟨none, 0, 40, .stop, 0⟩, ⟨none, 4, 50, .rts, 0⟩]

/-- The same without the end, so that the run falls into the subroutine. -/
def fallsThrough : Program :=
  #[⟨none, 1, 10, .loop, 2⟩, ⟨none, 2, 20, .jsr, 3⟩, ⟨none, 3, 30, .endLoop, 0⟩,
    ⟨none, 4, 50, .rts, 0⟩]

-- nine steps at depth one: exactly enough, one too few and more than enough of either
theorem unroll_cut_off_calledTwice :
    (∃ t, Timeline.unroll calledTwice ⟨9, 1⟩ = .ok t ∧ t.steps.length = 9 ∧
      Timeline.unroll calledTwice ⟨10, 3⟩ = .ok t ∧
      Timeline.unroll calledTwice ⟨8, 1⟩ = .error (.controlFlow 3 (.tooManySteps 8))) ∧
    Timeline.unroll fallsThrough ⟨9, 1⟩ = .error (.controlFlow 3 .returnWithoutCall) ∧
    Timeline.unroll fallsThrough ⟨20, 2⟩ = .error (.controlFlow 3 .returnWithoutCall) := by
  obtain ⟨t, ht, hlength, haddress⟩ : ∃ t, Timeline.unroll calledTwice ⟨9, 1⟩ = .ok t ∧
      t.steps.length = 9 ∧ t.addresses[8]? = some 3 := ⟨_, rfl, rfl, rfl⟩
  have hfault : Timeline.unroll fallsThrough ⟨9, 1⟩ = .error (.controlFlow 3 .returnWithoutCall) := rfl
  refine ⟨⟨t, ht, hlength, ?_, ?_⟩, hfault, ?_⟩
  · exact ((unroll_cut_off _ _ ⟨10, 3⟩ (by decide)).1 (by decide) t ht).1 (by simp [hlength])
  · obtain ⟨a, ha, hcut, -⟩ :=
      ((unroll_cut_off _ _ ⟨8, 1⟩ (by decide)).1 (by decide) t ht).2 (by simp [hlength])
    rw [Option.some_inj.mp (ha.symm.trans haddress)] at hcut
    exact hcut
  · exact (unroll_cut_off _ _ ⟨20, 2⟩ (by decide)).2.1 (.inl (by decide)) _ _ hfault id (by decide)

-- the same nine steps, and the largest depth that a word can say
theorem unroll_calledTwice_tooDeep :
    ∃ t, Timeline.unroll calledTwice ⟨9, 1⟩ = .ok t ∧ t.steps.length = 9 ∧ 1 ≤ maxWord ∧
      Timeline.unroll calledTwice ⟨9, maxWord⟩ = .error (.capacity maxWord) :=
  ⟨_, rfl, rfl, by decide, unroll_of_depth (by decide) (by decide)⟩

end PulseSequencer
