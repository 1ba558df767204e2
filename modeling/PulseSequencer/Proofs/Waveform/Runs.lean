import PulseSequencer.Proofs.Waveform.Coarsening

/-!
# Samplings cycle by cycle

A sampling goes through one state after the other, and its counters tick once in every cycle.

* `PulseCounter.ran`, `Waveform.stateAt`: the counters and the whole state in front of a cycle.
* `stateAt_succ`: one more cycle; `primary_stateAt`, `masking_stateAt` and `words_stateAt_succ` say what
  becomes of the parts of the state.
* `simulateWith_congr`: pulses that show the same samples make the same words, and the same reports.
* `ran_coarsenAll`: counters that tick in longer steps stay in step with those that tick in short ones.
-/

namespace PulseSequencer

namespace PulseCounter

/-- The counters of pulses in front of cycle `k`: they have ticked once in every cycle before. -/
def ran (pulses : List Pulse) : Nat → List PulseCounter
  | 0 => pulses.map .ofPulse
  | k + 1 => (ran pulses k).map (tick k)

theorem ran_eq_atCycle (pulses : List Pulse) (k : Nat) : ran pulses k = pulses.map (.atCycle k) := by
  induction k with
  | zero => exact List.map_congr_left fun p _ => (atCycle_zero p).symm
  | succ k ih => rw [ran, ih, map_tick_atCycle]

end PulseCounter

open PulseCounter (ran ran_eq_atCycle activeChannels openChannels)

namespace Waveform

variable {σ : Type}

/-! ### The states of a sampling -/

/-- The state of a sampling in front of cycle `k`. -/
def stateAt (u : Setup σ) (pulses masking : List Pulse) (start : σ) (k : Nat) : Sampler σ :=
  sampleFrom u k 0
    { primary := pulses.map .ofPulse, masking := masking.map .ofPulse, words := [], observed := start }

theorem sampleFrom_succ (u : Setup σ) (remaining cycle : Nat) (s : Sampler σ) :
    sampleFrom u (remaining + 1) cycle s =
      sample u (cycle + remaining) (sampleFrom u remaining cycle s) := by
  induction remaining generalizing cycle s with
  | zero => rfl
  | succ remaining ih =>
    have hnext := ih (cycle + 1) (sample u cycle s)
    rwa [Nat.add_right_comm] at hnext

variable (u : Setup σ) (pulses masking : List Pulse) (start : σ) (k : Nat)

theorem stateAt_succ :
    stateAt u pulses masking start (k + 1) = sample u k (stateAt u pulses masking start k) := by
  rw [stateAt, sampleFrom_succ, Nat.zero_add]
  rfl

theorem primary_stateAt : (stateAt u pulses masking start k).primary = ran pulses k := by
  induction k with
  | zero => rfl
  | succ k ih =>
    rw [stateAt_succ]
    show (stateAt u pulses masking start k).primary.map (PulseCounter.tick k) = _
    rw [ih]
    rfl

theorem masking_stateAt : (stateAt u pulses masking start k).masking = ran masking k := by
  induction k with
  | zero => rfl
  | succ k ih =>
    rw [stateAt_succ]
    show (stateAt u pulses masking start k).masking.map (PulseCounter.tick k) = _
    rw [ih]
    rfl

theorem observed_stateAt_succ :
    (stateAt u pulses masking start (k + 1)).observed =
      if reportsAt u.cycles (k + 1) then
        u.observe (k + 1) u.cycles (stateAt u pulses masking start k).observed
      else (stateAt u pulses masking start k).observed := by
  rw [stateAt_succ]
  rfl

variable {u pulses}

theorem words_stateAt_succ (hdriven : u.driven = drivenChannels pulses) :
    (stateAt u pulses masking start (k + 1)).words =
      push u.step (sampleAt u.output pulses masking k) (stateAt u pulses masking start k).words := by
  rw [stateAt_succ]
  show push u.step _ _ = _
  rw [primary_stateAt, masking_stateAt, ran_eq_atCycle, ran_eq_atCycle, hdriven, flags_atCycle]

theorem tracks_stateAt (hstep : 0 < u.step) (hdriven : u.driven = drivenChannels pulses) :
    Tracks u pulses masking k (stateAt u pulses masking start k) := by
  have hrun := (tracks_start u pulses masking start).sampleFrom hstep hdriven k
  rwa [Nat.zero_add] at hrun

/-- How pulses are sampled. -/
def Setup.ofPulses (observe : Nat → Nat → σ → σ) (o : OutputStage) (pulses : List Pulse)
    (step cycles : Nat) : Setup σ :=
  { output := o, step, driven := drivenChannels pulses, cycles, observe }

/-- Pulses that show the same samples make the same words and the same reports. -/
theorem simulateWith_congr (observe : Nat → Nat → σ → σ) (o : OutputStage)
    {pulses masking pulses' masking' : List Pulse}
    (h : ∀ k, sampleAt o pulses masking k = sampleAt o pulses' masking' k) (step cycles : Nat) :
    simulateWith observe start o pulses masking step cycles =
      simulateWith observe start o pulses' masking' step cycles := by
  let u := Setup.ofPulses observe o pulses step cycles
  let u' := Setup.ofPulses observe o pulses' step cycles
  have hrun : ∀ k,
      (stateAt u pulses masking start k).words = (stateAt u' pulses' masking' start k).words ∧
        (stateAt u pulses masking start k).observed =
          (stateAt u' pulses' masking' start k).observed := by
    intro k
    induction k with
    | zero => exact ⟨rfl, rfl⟩
    | succ k ih =>
      rw [words_stateAt_succ masking start k rfl, words_stateAt_succ masking' start k rfl,
        observed_stateAt_succ, observed_stateAt_succ, ih.1, ih.2]
      exact ⟨congrArg (push step · _) (h k), rfl⟩
  obtain ⟨hwords, hobserved⟩ := hrun cycles
  exact Prod.ext (congrArg List.reverse hwords) hobserved

end Waveform

/-! ### Counters in longer steps -/

namespace PulseCounter

variable {factor : Nat} {pulses : List Pulse}

theorem activeChannels_ran_coarsen (hfactor : 0 < factor) (h : ∀ p ∈ pulses, p.CountedBy factor)
    (k : Nat) :
    activeChannels (ran (pulses.map (Pulse.coarsen factor)) (k / factor)) (k / factor) =
      activeChannels (ran pulses k) k := by
  rw [ran_eq_atCycle, ran_eq_atCycle, Waveform.activeChannels_atCycle,
    Waveform.activeChannels_atCycle, Waveform.activeAt_coarsen hfactor h]

theorem openChannels_ran_coarsen (hfactor : 0 < factor) (h : ∀ p ∈ pulses, p.CountedBy factor)
    (k : Nat) (base : FlagWord) :
    openChannels (ran (pulses.map (Pulse.coarsen factor)) (k / factor)) (k / factor) base =
      openChannels (ran pulses k) k base := by
  rw [ran_eq_atCycle, ran_eq_atCycle, Waveform.openChannels_atCycle, Waveform.openChannels_atCycle,
    Waveform.maskedAt_coarsen hfactor h]

/-- What is the same for all short steps of a long one shows as often as the long step has short ones. -/
theorem map_range'_eq_replicate {α : Type} {f : Nat → α} {a : α} {j : Nat}
    (h : ∀ k, k / factor = j → f k = a) :
    (List.range' (j * factor) factor).map f = List.replicate factor a := by
  rw [List.eq_replicate_iff]
  refine ⟨by simp, fun b hb => ?_⟩
  obtain ⟨k, hk, rfl⟩ := List.mem_map.mp hb
  rw [List.mem_range'_1] at hk
  refine h k (Nat.div_eq_of_lt_le hk.1 ?_)
  rw [Nat.succ_mul]
  exact hk.2

/-- **Pulse states in longer steps.**  Counters that tick in steps `factor` times as long find in step
`k / factor` the channels that those of the short steps find in step `k`, both those that are high
and those that a mask leaves open.  Each long step stands for `factor` short ones that are all alike. -/
theorem ran_coarsenAll (hfactor : 0 < factor) (h : ∀ p ∈ pulses, p.CountedBy factor) :
    ∃ coarse, Pulse.coarsenAll factor pulses = .ok coarse ∧
      (∀ k, activeChannels (ran pulses k) k =
        activeChannels (ran coarse (k / factor)) (k / factor)) ∧
      (∀ k base, openChannels (ran pulses k) k base =
        openChannels (ran coarse (k / factor)) (k / factor) base) ∧
      ∀ j, (List.range' (j * factor) factor).map (fun k => activeChannels (ran pulses k) k) =
          List.replicate factor (activeChannels (ran coarse j) j) ∧
        ∀ base, (List.range' (j * factor) factor).map (fun k => openChannels (ran pulses k) k base) =
          List.replicate factor (openChannels (ran coarse j) j base) := by
  have hactive := fun k => (activeChannels_ran_coarsen hfactor h k).symm
  have hopen := fun k base => (openChannels_ran_coarsen hfactor h k base).symm
  have hok : ¬ (factor = 0 ∧ pulses ≠ []) := fun hzero => Nat.ne_of_gt hfactor hzero.1
  refine ⟨pulses.map (Pulse.coarsen factor), if_neg hok, hactive, hopen, fun j => ⟨?_, fun base => ?_⟩⟩
  · refine map_range'_eq_replicate fun k hk => ?_
    rw [hactive, hk]
  · refine map_range'_eq_replicate fun k hk => ?_
    rw [hopen, hk]

/-- A late pulse, and one on two channels that is high for half of its period. -/
def offbeat : List Pulse :=
  [{ period := 6, offset := 2, high := 4, channels := .ofList [0] },
    { period := 4, high := 2, channels := .ofList [1, 2] }]

-- steps 2 and 3: the late pulse has just begun, the other one is low
theorem ran_coarsenAll_offbeat :
    (∀ p ∈ offbeat, p.CountedBy 2) ∧ ∃ coarse, Pulse.coarsenAll 2 offbeat = .ok coarse ∧
      activeChannels (ran offbeat 3) 3 = activeChannels (ran coarse 1) 1 ∧
      [activeChannels (ran offbeat 2) 2, activeChannels (ran offbeat 3) 3] = [0b001, 0b001] := by
  have hcounts : ∀ p ∈ offbeat, p.CountedBy 2 := by
    intro p hp
    simp only [offbeat, List.mem_cons, List.not_mem_nil, or_false] at hp
    rcases hp with rfl | rfl <;> exact ⟨by decide, by decide, by decide⟩
  obtain ⟨coarse, hcoarse, hactive, -⟩ := ran_coarsenAll (by decide) hcounts
  exact ⟨hcounts, coarse, hcoarse, hactive 3, by decide +kernel⟩

end PulseCounter

end PulseSequencer
