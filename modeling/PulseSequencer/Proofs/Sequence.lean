import PulseSequencer.Proofs.Compiler.Width
import PulseSequencer.Proofs.Machine.Moves
import PulseSequencer.Proofs.Machine.Path

/-!
# The views of a sequence agree

A sequence answers questions about its timeline in several ways: durations, rows of outputs, addresses,
times, the part that repeats, the channels that are in use.  All of them say what the words that were run
say.

* `times_eq_scanl`, `getElem?_times`: a time is the sum of the durations before it.
* `firstAt_eq_some_iff`: the first step at an address.
* `ofBits_bits`: a row of outputs has the whole flag word.
* `exists_activeChannels`, `mem_states_iff`: a channel is in use if a word that was run switches it on.
* `agrees_of_ofProgram`: all views together.
-/

namespace PulseSequencer

open Timeline (stepOf)

/-! ### Times -/

namespace Timeline

variable {t : Timeline}

theorem foldl_add_eq (now : Nat) (durations : List Nat) :
    durations.foldl (· + ·) now = now + sum durations := by
  induction durations generalizing now with
  | nil => rfl
  | cons d durations ih => rw [List.foldl_cons, ih, sum_cons, Nat.add_assoc]

/-- The loop that collects the times, last one first, in the middle of its work. -/
theorem foldl_times (now : Nat) (acc durations : List Nat) :
    ∃ starts, durations.foldl (fun (now, acc) d => (now + d, now :: acc)) (now, acc) =
        (now + sum durations, starts) ∧
      ((now + sum durations) :: starts).reverse =
        acc.reverse ++ durations.scanl (· + ·) now := by
  induction durations generalizing now acc with
  | nil => exact ⟨acc, rfl, by simp⟩
  | cons d durations ih =>
    obtain ⟨starts, hfold, hreverse⟩ := ih (now + d) (now :: acc)
    rw [Nat.add_assoc, ← sum_cons] at hfold hreverse
    exact ⟨starts, hfold, by simpa [List.scanl_cons] using hreverse⟩

theorem times_eq_scanl (t : Timeline) : t.times = t.durations.scanl (· + ·) 0 := by
  obtain ⟨starts, hfold, hreverse⟩ := foldl_times 0 [] t.durations
  rw [times, hfold]
  simpa using hreverse

theorem getElem?_times (t : Timeline) (k : Nat) :
    t.times[k]? =
      if k ≤ t.durations.length then some (sum (t.durations.take k)) else none := by
  rw [times_eq_scanl, List.getElem?_scanl, foldl_add_eq, Nat.zero_add]

theorem length_times (t : Timeline) : t.times.length = t.durations.length + 1 := by
  rw [times_eq_scanl, List.length_scanl]

/-- A step lasts from its own time to the next one. -/
theorem exists_times_of_duration {k d : Nat} (hd : t.durations[k]? = some d) :
    ∃ now, t.times[k]? = some now ∧ t.times[k + 1]? = some (now + d) := by
  have hlt := (List.getElem?_eq_some_iff.mp hd).1
  refine ⟨sum (t.durations.take k), by rw [getElem?_times, if_pos (Nat.le_of_lt hlt)], ?_⟩
  rw [getElem?_times, if_pos (Nat.succ_le_of_lt hlt), List.take_add_one, hd, sum_append]
  simp

theorem getLast?_times (t : Timeline) : t.times.getLast? = some t.totalDuration := by
  rw [times_eq_scanl, List.getLast?_scanl, foldl_add_eq, Nat.zero_add]
  rfl

theorem sum_take_add_sum_drop (durations : List Nat) (k : Nat) :
    sum (durations.take k) + sum (durations.drop k) = sum durations := by
  rw [← sum_append, List.take_append_drop]

theorem le_totalDuration_of_mem_times {now : Nat} (h : now ∈ t.times) : now ≤ t.totalDuration := by
  obtain ⟨k, hk⟩ := List.getElem?_of_mem h
  rw [getElem?_times] at hk
  split at hk
  · have hsum := sum_take_add_sum_drop t.durations k
    rw [Option.some_inj] at hk
    unfold totalDuration
    omega
  · cases hk

/-- Time does not run backwards. -/
theorem times_sorted (t : Timeline) : t.times.Pairwise (· ≤ ·) := by
  rw [List.pairwise_iff_getElem]
  intro k l hk hl hkl
  have hgetk := getElem?_times t k
  have hgetl := getElem?_times t l
  rw [List.getElem?_eq_getElem hk] at hgetk
  rw [List.getElem?_eq_getElem hl] at hgetl
  rw [length_times] at hk hl
  rw [if_pos (by omega), Option.some_inj] at hgetk hgetl
  -- the durations before the earlier step are among those before the later one
  have hsum := sum_take_add_sum_drop (t.durations.take l) k
  rw [List.take_take, Nat.min_eq_left (Nat.le_of_lt hkl)] at hsum
  omega

theorem exists_repeatDuration {b : Nat} (hbranch : t.branchIndex = some b)
    (hlt : b < t.durations.length) :
    ∃ now, t.times[b]? = some now ∧ t.repeatDuration = some (t.totalDuration - now) := by
  have hsum := sum_take_add_sum_drop t.durations b
  refine ⟨sum (t.durations.take b), by rw [getElem?_times, if_pos (Nat.le_of_lt hlt)], ?_⟩
  rw [repeatDuration, hbranch, Option.map_some, totalDuration]
  congr 1
  omega

/-! ### The step that is repeated -/

theorem firstAt_eq_some_iff {steps : List Step} {target b : Nat} :
    firstAt steps target = some b ↔ (steps.map Step.address)[b]? = some target ∧
      ∀ k < b, (steps.map Step.address)[k]? ≠ some target := by
  rw [firstAt, List.findIdx?_eq_some_iff_getElem]
  constructor
  · rintro ⟨hb, hfound, hbefore⟩
    refine ⟨by simpa [List.getElem?_map, List.getElem?_eq_getElem hb] using hfound, ?_⟩
    intro k hk
    have hlt : k < steps.length := Nat.lt_trans hk hb
    simpa [List.getElem?_map, List.getElem?_eq_getElem hlt] using hbefore k hk
  · rintro ⟨hfound, hbefore⟩
    have hb : b < steps.length := by
      simpa using (List.getElem?_eq_some_iff.mp hfound).1
    refine ⟨hb, by simpa [List.getElem?_map, List.getElem?_eq_getElem hb] using hfound, ?_⟩
    intro k hk
    have hlt : k < steps.length := Nat.lt_trans hk hb
    simpa [List.getElem?_map, List.getElem?_eq_getElem hlt] using hbefore k hk

end Timeline

/-- The branch index is the first step at the target of a branch in the last step. -/
theorem branchIndex_eq_some_iff {p : Program} {limits : Limits} {t : Timeline}
    (h : Timeline.unroll p limits = .ok t) {b : Nat} :
    t.branchIndex = some b ↔ ∃ (a : Nat) (i : Instruction) (target : Nat),
      t.addresses.getLast? = some a ∧ p[a]? = some i ∧ i.opcode = .branch ∧ i.operand = target ∧
      t.addresses[b]? = some target ∧ ∀ k < b, t.addresses[k]? ≠ some target := by
  obtain ⟨front, m, i, hsteps, -, hword, hend⟩ := exists_last_of_unroll h
  have hlast : t.addresses.getLast? = some m.address := by
    rw [Timeline.addresses, hsteps]
    simp [stepOf]
  -- the word of the last step is the only one that the right-hand side can speak of
  have hunique : ∀ {a i'}, t.addresses.getLast? = some a → p[a]? = some i' → i' = i := by
    intro a i' ha hi'
    rw [hlast, Option.some_inj] at ha
    subst ha
    exact Option.some_inj.mp (hi'.symm.trans hword)
  obtain ⟨next, hgoto, -, hnone⟩ | ⟨hhalt, hnone⟩ | ⟨target, hrestart, hindex⟩ := hend
  · rw [hnone]
    refine ⟨fun hsome => absurd hsome (by simp), ?_⟩
    rintro ⟨a, i', target, ha, hi', hop, -⟩
    rw [hunique ha hi'] at hop
    exact absurd hop (advance_eq_goto_iff.mp hgoto).opcode_ne_branch
  · rw [hnone]
    refine ⟨fun hsome => absurd hsome (by simp), ?_⟩
    rintro ⟨a, i', target, ha, hi', hop, -⟩
    rw [hunique ha hi', opcode_of_halt hhalt] at hop
    cases hop
  · obtain ⟨hop, hoperand⟩ := branch_of_restart hrestart
    rw [hindex, Timeline.firstAt_eq_some_iff]
    constructor
    · rintro ⟨hfound, hbefore⟩
      exact ⟨_, i, target, hlast, hword, hop, hoperand, hfound, hbefore⟩
    · rintro ⟨a, i', target', ha, hi', -, hoperand', hfound, hbefore⟩
      rw [hunique ha hi', hoperand] at hoperand'
      obtain rfl : target = target' := Int.ofNat_inj.mp hoperand'
      exact ⟨hfound, hbefore⟩

/-! ### Rows of outputs -/

namespace FlagWord

variable {flags : FlagWord} {width : Nat}

/-- The flag word whose lowest channels are in the given states, channel 0 first. -/
def ofBits (row : List Bool) : FlagWord :=
  (BitVec.ofBoolListLE row).setWidth 64

theorem getElem?_bits (flags : FlagWord) (width c : Nat) :
    (flags.bits width)[c]? = if c < width then some (flags.isOn c) else none := by
  unfold bits
  by_cases h : c < width
  · rw [List.getElem?_map, List.getElem?_range h, if_pos h]
    rfl
  · rw [List.getElem?_eq_none (by simpa using h), if_neg h]

/-- A flag word within its channels can be rebuilt from their states. -/
theorem ofBits_bits (h : flags.fits width = true) : ofBits (flags.bits width) = flags := by
  apply BitVec.eq_of_getLsbD_eq
  intro c hc
  rw [ofBits, BitVec.getLsbD_setWidth, BitVec.getLsbD_ofBoolListLE, List.getD_eq_getElem?_getD,
    getElem?_bits]
  by_cases hwidth : c < width
  · simp [hwidth, hc, isOn]
  · simp [hwidth, fits_iff_below.mp h c (Nat.not_lt.mp hwidth)]

end FlagWord

/-! ### Channels -/

namespace Sequence

variable {s : Sequence} {c : Nat}

theorem channelTrace_eq_ok_iff {states : List Bool} :
    s.channelTrace c = .ok states ↔
      c < s.channels ∧ states = s.timeline.flags.map fun flags => flags.isOn c := by
  unfold channelTrace
  split
  · next h => simp [h, eq_comm]
  · next h => simp [h]

/-- The state of a channel is its place in the row of the step. -/
theorem getElem?_channelTrace {states : List Bool} (h : s.channelTrace c = .ok states) {k : Nat}
    {row : List Bool} (hrow : s.flagRows[k]? = some row) : row[c]? = states[k]? := by
  obtain ⟨hc, rfl⟩ := channelTrace_eq_ok_iff.mp h
  rw [flagRows, List.getElem?_map, Option.map_eq_some_iff] at hrow
  obtain ⟨flags, hflags, rfl⟩ := hrow
  rw [FlagWord.getElem?_bits, if_pos hc, List.getElem?_map, hflags]
  rfl

theorem exists_activeChannels {exclude : List Nat} (h : ∀ c ∈ exclude, c < s.channels) :
    ∃ active, s.activeChannels exclude = .ok active ∧ active.Pairwise (· < ·) ∧
      ∀ c, c ∈ active ↔
        c ∉ exclude ∧ ∃ states, s.channelTrace c = .ok states ∧ true ∈ states := by
  have hinvalid : exclude.filter (s.channels ≤ ·) = [] := by
    rw [List.filter_eq_nil_iff]
    intro c hc
    simpa using h c hc
  refine ⟨_, by rw [activeChannels, hinvalid]; rfl, ?_, fun c => ?_⟩
  · exact List.pairwise_lt_range.filter _
  · simp only [List.mem_filter, List.mem_range, Bool.and_eq_true, Bool.not_eq_true',
      List.contains_eq_mem, decide_eq_false_iff_not, List.any_eq_true]
    constructor
    · rintro ⟨hc, hexclude, flags, hflags, hon⟩
      refine ⟨hexclude, _, channelTrace_eq_ok_iff.mpr ⟨hc, rfl⟩, ?_⟩
      exact List.mem_map.mpr ⟨flags, hflags, hon⟩
    · rintro ⟨hexclude, states, hstates, hon⟩
      obtain ⟨hc, rfl⟩ := channelTrace_eq_ok_iff.mp hstates
      obtain ⟨flags, hflags, hon⟩ := List.mem_map.mp hon
      exact ⟨hc, hexclude, flags, hflags, hon⟩

end Sequence

/-! ### All views together -/

/-- The views of a sequence say of every step what the word at its address says. -/
structure Sequence.Agrees (s : Sequence) : Prop where
  nonempty : 0 < s.timeline.durations.length
  rows : s.flagRows.length = s.timeline.durations.length
  addresses : s.timeline.addresses.length = s.timeline.durations.length
  /-- Every step has the duration and the outputs of its word, and the outputs are its whole flags. -/
  words : ∀ k a : Nat, s.timeline.addresses[k]? = some a → ∃ i : Instruction,
    s.program[a]? = some i ∧ s.timeline.durations[k]? = some i.duration ∧
    s.flagRows[k]? = some (i.flags.bits s.channels) ∧
    FlagWord.ofBits (i.flags.bits s.channels) = i.flags
  times : s.timeline.times.length = s.timeline.durations.length + 1
  start : s.timeline.times[0]? = some 0
  passes : ∀ k d : Nat, s.timeline.durations[k]? = some d →
    ∃ now, s.timeline.times[k]? = some now ∧ s.timeline.times[k + 1]? = some (now + d)
  sorted : s.timeline.times.Pairwise (· ≤ ·)
  finish : s.timeline.times.getLast? = some s.timeline.totalDuration
  fits : ∀ now ∈ s.timeline.times, now < wordLimit
  /-- A branch in the last step repeats from the first step at its target, if there is one. -/
  branch : ∀ b, s.timeline.branchIndex = some b ↔ ∃ (a : Nat) (i : Instruction) (target : Nat),
    s.timeline.addresses.getLast? = some a ∧ s.program[a]? = some i ∧ i.opcode = .branch ∧
    i.operand = target ∧ s.timeline.addresses[b]? = some target ∧
    ∀ k < b, s.timeline.addresses[k]? ≠ some target
  repeats : ∀ b, s.timeline.branchIndex = some b → ∃ now, s.timeline.times[b]? = some now ∧
    s.timeline.repeatDuration = some (s.timeline.totalDuration - now)
  once : s.timeline.branchIndex = none → s.timeline.repeatDuration = none
  /-- The states of a channel are its column of the rows. -/
  columns : ∀ c states, s.channelTrace c = .ok states →
    ∀ (k : Nat) (row : List Bool), s.flagRows[k]? = some row → row[c]? = states[k]?
  active : ∀ exclude : List Nat, (∀ c ∈ exclude, c < s.channels) →
    ∃ active, s.activeChannels exclude = .ok active ∧ active.Pairwise (· < ·) ∧
      ∀ c, c ∈ active ↔ c ∉ exclude ∧ ∃ states, s.channelTrace c = .ok states ∧ true ∈ states
  /-- A channel is on in some step if some word that was run switches it on. -/
  driven : ∀ c states, s.channelTrace c = .ok states → (true ∈ states ↔
    ∃ a ∈ s.timeline.addresses, ∃ i : Instruction, s.program[a]? = some i ∧ i.flags.isOn c = true)

section Agrees

variable {program : Program} {channels : Nat} {limits : Limits} {s : Sequence} {t : Timeline}

/-- A step is the word at its address. -/
theorem exists_word_of_step (h : Timeline.unroll program limits = .ok t) {k : Nat} {step : Step}
    (hstep : t.steps[k]? = some step) :
    ∃ i, program[step.address]? = some i ∧ step = stepOf step.address i := by
  obtain ⟨m, i, -, hword, rfl⟩ := exists_mid_of_unroll h hstep
  exact ⟨i, hword, rfl⟩

theorem mem_states_iff (h : Timeline.unroll program limits = .ok t) {c : Nat} :
    true ∈ (t.flags.map fun flags => flags.isOn c) ↔
      ∃ a ∈ t.addresses, ∃ i, program[a]? = some i ∧ i.flags.isOn c = true := by
  simp only [Timeline.flags, Timeline.addresses, List.map_map, List.mem_map, Function.comp_apply]
  constructor
  · rintro ⟨step, hmem, hon⟩
    obtain ⟨k, hstep⟩ := List.getElem?_of_mem hmem
    obtain ⟨i, hword, heq⟩ := exists_word_of_step h hstep
    refine ⟨step.address, ⟨step, hmem, rfl⟩, i, hword, ?_⟩
    rw [heq] at hon
    exact hon
  · rintro ⟨a, ⟨step, hmem, rfl⟩, i, hword, hon⟩
    obtain ⟨k, hstep⟩ := List.getElem?_of_mem hmem
    obtain ⟨i', hword', heq⟩ := exists_word_of_step h hstep
    obtain rfl := Option.some_inj.mp (hword.symm.trans hword')
    exact ⟨step, hmem, by rw [heq]; exact hon⟩

/-- Every view of a step shows its word. -/
theorem exists_word_of_address (hunroll : Timeline.unroll program limits = .ok t)
    (hfits : ∀ i ∈ program.toList, i.flags.fits channels = true) {k a : Nat}
    (ha : t.addresses[k]? = some a) :
    ∃ i, program[a]? = some i ∧ t.durations[k]? = some i.duration ∧
      (Sequence.flagRows ⟨program, channels, t⟩)[k]? = some (i.flags.bits channels) ∧
      FlagWord.ofBits (i.flags.bits channels) = i.flags := by
  rw [Timeline.addresses, List.getElem?_map, Option.map_eq_some_iff] at ha
  obtain ⟨step, hstep, rfl⟩ := ha
  obtain ⟨i, hword, heq⟩ := exists_word_of_step hunroll hstep
  refine ⟨i, hword, ?_, ?_, FlagWord.ofBits_bits (hfits i ?_)⟩
  · rw [Timeline.durations, List.getElem?_map, hstep, heq]
    rfl
  · rw [Sequence.flagRows, Timeline.flags, List.map_map, List.getElem?_map, hstep, heq]
    rfl
  · exact Array.mem_toList_iff.mpr (Array.mem_of_getElem? hword)

/-- **The views of a sequence agree with its program.** -/
theorem agrees_of_ofProgram (h : Sequence.ofProgram program channels limits = .ok s) :
    s.program = program ∧ s.channels = channels ∧ s.Agrees := by
  obtain ⟨-, hwide, t, hunroll, rfl⟩ := ofProgram_eq_ok_iff.mp h
  have hfits := firstTooWide?_eq_none_iff.mp hwide
  have haddresses : t.addresses.length = t.durations.length := by
    simp [Timeline.addresses, Timeline.durations]
  refine ⟨rfl, rfl, ?_⟩
  constructor
  case nonempty =>
    obtain ⟨front, m, i, hlast, -⟩ := exists_last_of_unroll hunroll
    simp [Timeline.durations, hlast]
  case rows => simp [Sequence.flagRows, Timeline.flags, Timeline.durations]
  case addresses => exact haddresses
  case words => exact fun k a => exists_word_of_address hunroll hfits
  case times => exact t.length_times
  case start => exact t.getElem?_times 0
  case passes => exact fun k d => Timeline.exists_times_of_duration
  case sorted => exact t.times_sorted
  case finish => exact t.getLast?_times
  case fits =>
    intro now hnow
    have htotal : t.totalDuration < wordLimit := stepsDuration_lt_of_unroll hunroll
    exact Nat.lt_of_le_of_lt (Timeline.le_totalDuration_of_mem_times hnow) htotal
  case branch => exact fun b => branchIndex_eq_some_iff hunroll
  case repeats =>
    intro b hb
    obtain ⟨a, i, target, -, -, -, -, hfound, -⟩ := (branchIndex_eq_some_iff hunroll).mp hb
    exact Timeline.exists_repeatDuration hb (haddresses ▸ (List.getElem?_eq_some_iff.mp hfound).1)
  case once =>
    intro hb
    exact congrArg (Option.map _) hb
  case columns => exact fun c states hstates k row => Sequence.getElem?_channelTrace hstates
  case active => exact fun exclude => Sequence.exists_activeChannels
  case driven =>
    intro c states hstates
    rw [(Sequence.channelTrace_eq_ok_iff.mp hstates).2]
    exact mem_states_iff hunroll

/-- A word that is run once, and two passes of a loop that a branch repeats; the topmost channel is on in
the first step only. -/
def repeated : Program :=
  #[⟨none, 0x80, 100, .cont, 0⟩, ⟨none, 0x01, 20, .loop, 2⟩, ⟨none, 0, 30, .endLoop, 1⟩,
    ⟨none, 0x03, 40, .branch, 1⟩]

theorem agrees_of_ofProgram_repeated :
    ∃ s, Sequence.ofProgram repeated 8 {} = .ok s ∧ s.timeline.branchIndex = some 1 ∧
      s.timeline.repeatDuration = some 140 ∧ s.Agrees := by
  obtain ⟨s, hs, hbranch, hrepeat⟩ : ∃ s, Sequence.ofProgram repeated 8 {} = .ok s ∧
      s.timeline.branchIndex = some 1 ∧ s.timeline.repeatDuration = some 140 := ⟨_, rfl, rfl, rfl⟩
  exact ⟨s, hs, hbranch, hrepeat, (agrees_of_ofProgram hs).2.2⟩

end Agrees

end PulseSequencer
