import PulseSequencer.Proofs.Waveform.Runs

/-!
# What the observer of a sampling is told

A sampling reports its progress after every so many cycles, a hundredth of them all rounded down, and
after the last one.  The words do not depend on the observer, and the observer is told the same whatever
is sampled.

* `reports`: the reports of a sampling; `observed_stateAt`: they are what the observer gets to see.
* `words_stateAt`: the words that have been sampled so far, for any observer.
* `length_reports`: how many reports there are; `length_reports_le_iff`: when they are few.
* `simulateWith_progress`: together; `simulateWith_reports_often` has more of them than a hundred and one.
-/

namespace PulseSequencer.Waveform

variable {σ τ : Type}

/-! ### The reports -/

/-- The numbers of cycles done that are reported out of the first `k`, in order. -/
def doneUpTo (cycles k : Nat) : List Nat :=
  (List.range' 1 k).filter (reportsAt cycles)

/-- The reports of a sampling: how many cycles are done, of how many. -/
def reports (cycles : Nat) : List (Nat × Nat) :=
  (doneUpTo cycles cycles).map fun done => (done, cycles)

theorem doneUpTo_succ (cycles k : Nat) :
    doneUpTo cycles (k + 1) =
      doneUpTo cycles k ++ if reportsAt cycles (k + 1) then [k + 1] else [] := by
  unfold doneUpTo
  rw [List.range'_1_concat, List.filter_append, Nat.add_comm 1 k, List.filter_singleton]
  cases reportsAt cycles (k + 1) <;> rfl

/-- One more cycle adds a report or none, so that the observer has seen those of all cycles so far. -/
theorem observed_stateAt (u : Setup σ) (pulses masking : List Pulse) (start : σ) (k : Nat) :
    (stateAt u pulses masking start k).observed =
      (doneUpTo u.cycles k).foldl (fun seen done => u.observe done u.cycles seen) start := by
  induction k with
  | zero => rfl
  | succ k ih =>
    rw [observed_stateAt_succ, doneUpTo_succ, List.foldl_append, ih]
    cases reportsAt u.cycles (k + 1) <;> rfl

theorem observed_simulateWith (observe : Nat → Nat → σ → σ) (start : σ) (o : OutputStage)
    (pulses masking : List Pulse) (step cycles : Nat) :
    (simulateWith observe start o pulses masking step cycles).2 =
      (reports cycles).foldl (fun seen report => observe report.1 report.2 seen) start := by
  rw [reports, List.foldl_map]
  exact observed_stateAt (Setup.ofPulses observe o pulses step cycles) pulses masking start cycles

/-- The words go by the samples, and these by the pulses. -/
theorem words_stateAt (observe : Nat → Nat → σ → σ) (observe' : Nat → Nat → τ → τ) (start : σ)
    (start' : τ) (o : OutputStage) (pulses masking : List Pulse) (step cycles k : Nat) :
    (stateAt (Setup.ofPulses observe o pulses step cycles) pulses masking start k).words =
      (stateAt (Setup.ofPulses observe' o pulses step cycles) pulses masking start' k).words := by
  induction k with
  | zero => rfl
  | succ k ih =>
    rw [words_stateAt_succ masking start k rfl, words_stateAt_succ masking start' k rfl, ih]
    rfl

theorem words_simulateWith (observe : Nat → Nat → σ → σ) (start : σ) (o : OutputStage)
    (pulses masking : List Pulse) (step cycles : Nat) :
    (simulateWith observe start o pulses masking step cycles).1 =
      simulate o pulses masking step cycles :=
  congrArg List.reverse
    (words_stateAt observe (fun _ _ => id) start () o pulses masking step cycles cycles)

/-! ### Which cycles are reported -/

theorem reportsAt_iff {cycles done : Nat} :
    reportsAt cycles done = true ↔ reportInterval cycles ∣ done ∨ done = cycles := by
  rw [reportsAt, Bool.or_eq_true, beq_iff_eq, beq_iff_eq, Nat.dvd_iff_mod_eq_zero]

theorem reportInterval_pos (cycles : Nat) : 0 < reportInterval cycles :=
  Nat.le_max_right _ _

theorem mem_doneUpTo {cycles k done : Nat} :
    done ∈ doneUpTo cycles k ↔ (1 ≤ done ∧ done ≤ k) ∧ reportsAt cycles done = true := by
  rw [doneUpTo, List.mem_filter, List.mem_range'_1, Nat.add_comm 1 k, Nat.lt_succ_iff]

theorem doneUpTo_increasing (cycles k : Nat) : (doneUpTo cycles k).Pairwise (· < ·) :=
  List.Pairwise.filter _ List.pairwise_lt_range'

theorem getLast?_doneUpTo {cycles : Nat} (hpos : 0 < cycles) :
    (doneUpTo cycles cycles).getLast? = some cycles := by
  obtain ⟨k, rfl⟩ := Nat.exists_eq_succ_of_ne_zero (Nat.ne_of_gt hpos)
  rw [doneUpTo_succ, if_pos (reportsAt_iff.mpr (.inr rfl)), List.getLast?_concat]

/-! ### How many there are -/

/-- Before the last cycle, there is one report for every full interval. -/
theorem length_doneUpTo {cycles k : Nat} (hk : k < cycles) :
    (doneUpTo cycles k).length = k / reportInterval cycles := by
  induction k with
  | zero => simp [doneUpTo]
  | succ k ih =>
    have hnext : reportsAt cycles (k + 1) = true ↔ reportInterval cycles ∣ k + 1 := by
      rw [reportsAt_iff]
      exact or_iff_left (Nat.ne_of_lt hk)
    rw [doneUpTo_succ, List.length_append, ih (Nat.lt_of_succ_lt hk), Nat.succ_div]
    by_cases hdvd : reportInterval cycles ∣ k + 1
    · rw [if_pos (hnext.mpr hdvd), if_pos hdvd, List.length_singleton]
    · rw [if_neg (fun h => hdvd (hnext.mp h)), if_neg hdvd, List.length_nil]

/-- One report for every interval that is begun. -/
theorem length_reports (cycles : Nat) :
    (reports cycles).length = (cycles + reportInterval cycles - 1) / reportInterval cycles := by
  have hinterval := reportInterval_pos cycles
  rw [reports, List.length_map]
  cases cycles with
  | zero => rfl
  | succ k =>
    have hlast : reportsAt (k + 1) (k + 1) = true := reportsAt_iff.mpr (.inr rfl)
    have hbegun : k + 1 + reportInterval (k + 1) - 1 = k + reportInterval (k + 1) := by omega
    rw [doneUpTo_succ, if_pos hlast, List.length_append, length_doneUpTo (Nat.lt_succ_self k),
      List.length_singleton, hbegun, Nat.add_div_right k hinterval]

/-- From a hundred cycles on, the hundred intervals are as long as they can be, and the cycles that
remain are fewer than a hundred. -/
theorem length_reports_of_le {cycles : Nat} (hle : 100 ≤ cycles) :
    (reports cycles).length =
      100 + (cycles % 100 + cycles / 100 - 1) / (cycles / 100) := by
  have hinterval : reportInterval cycles = cycles / 100 := Nat.max_eq_left (by omega)
  have hpos : 0 < cycles / 100 := by omega
  have hsplit : cycles + cycles / 100 - 1 =
      cycles % 100 + cycles / 100 - 1 + 100 * (cycles / 100) := by omega
  rw [length_reports, hinterval, hsplit, Nat.add_mul_div_right _ _ hpos, Nat.add_comm]

theorem length_reports_of_lt {cycles : Nat} (hlt : cycles < 100) :
    (reports cycles).length = cycles := by
  have hinterval : reportInterval cycles = 1 := Nat.max_eq_right (by omega)
  rw [length_reports, hinterval, Nat.div_one, Nat.add_sub_cancel]

theorem length_reports_le_iff (cycles : Nat) :
    (reports cycles).length ≤ 101 ↔ cycles < 100 ∨ cycles % 100 ≤ cycles / 100 := by
  rcases Nat.lt_or_ge cycles 100 with hlt | hle
  · rw [length_reports_of_lt hlt]
    omega
  · -- at most one more interval is begun by the cycles that remain
    have hpos : 0 < cycles / 100 := by omega
    rw [length_reports_of_le hle, Nat.add_le_add_iff_left (n := 100) (k := 1)]
    rw [← Nat.lt_succ_iff, Nat.div_lt_iff_lt_mul hpos]
    omega

theorem length_reports_lt (cycles : Nat) : (reports cycles).length < 200 := by
  rcases Nat.lt_or_ge cycles 100 with hlt | hle
  · rw [length_reports_of_lt hlt]
    omega
  · have hmod : cycles % 100 < 100 := Nat.mod_lt _ (by decide)
    have hpos : 0 < cycles / 100 := by omega
    have hrest : (cycles % 100 + cycles / 100 - 1) / (cycles / 100) < 100 := by
      rw [Nat.div_lt_iff_lt_mul hpos]
      omega
    rw [length_reports_of_le hle]
    omega

/-! ### A whole sampling -/

/-- **Progress of a sampling.**  The words are the same with any observer and with none.  The observer is
told of `reports cycles`, one after the other and nothing else, whatever is sampled: every time the
number of cycles in all, together with a number of cycles done that lies within it and is larger than
the one before.  The last report says that all cycles are done; without cycles there is none.  There is
one report for every interval that is begun, so there are fewer than two hundred, and no more than a
hundred and one exactly if there are fewer than a hundred cycles or those beyond the last full hundred
fit one interval. -/
theorem simulateWith_progress (observe : Nat → Nat → σ → σ) (start : σ) (o : OutputStage)
    (pulses masking : List Pulse) (step cycles : Nat) :
    (simulateWith observe start o pulses masking step cycles).1 =
      simulate o pulses masking step cycles ∧
    (simulateWith observe start o pulses masking step cycles).2 =
      (reports cycles).foldl (fun seen report => observe report.1 report.2 seen) start ∧
    (∀ report ∈ reports cycles, 1 ≤ report.1 ∧ report.1 ≤ cycles ∧ report.2 = cycles) ∧
    (reports cycles).Pairwise (fun report next => report.1 < next.1) ∧
    (0 < cycles → (reports cycles).getLast? = some (cycles, cycles)) ∧
    (cycles = 0 → reports cycles = []) ∧
    (reports cycles).length = (cycles + reportInterval cycles - 1) / reportInterval cycles ∧
    (reports cycles).length < 200 ∧
    ((reports cycles).length ≤ 101 ↔ cycles < 100 ∨ cycles % 100 ≤ cycles / 100) := by
  refine ⟨words_simulateWith observe start o pulses masking step cycles,
    observed_simulateWith observe start o pulses masking step cycles, ?_, ?_, ?_, ?_,
    length_reports cycles, length_reports_lt cycles, length_reports_le_iff cycles⟩
  · intro report hreport
    obtain ⟨done, hdone, rfl⟩ := List.mem_map.mp hreport
    obtain ⟨⟨hone, hle⟩, -⟩ := mem_doneUpTo.mp hdone
    exact ⟨hone, hle, rfl⟩
  · exact List.pairwise_map.mpr (doneUpTo_increasing cycles cycles)
  · intro hpos
    rw [reports, List.getLast?_map, getLast?_doneUpTo hpos]
    rfl
  · rintro rfl
    rfl

-- with 199 cycles a hundredth is one cycle, and every cycle is reported
theorem simulateWith_reports_often :
    101 < (simulateWith (fun done total seen => (done, total) :: seen) [] (.ofWidth 24 3 0)
      [{ period := 50, offset := 1, high := 25, channels := .ofList [0] }] [] 20 199).2.length := by
  decide +kernel

end PulseSequencer.Waveform
