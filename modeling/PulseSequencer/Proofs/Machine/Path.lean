import PulseSequencer.Sequence
import PulseSequencer.Proofs.Stages
import Mathlib.Data.List.Basic

/-!
# Paths of the machine

`Path p d m steps m'` says that the machine gets from `m` to `m'` by running the words of `steps`.  It
knows nothing of budgets and durations; these come back in where a run is cut into a path and what
ends it.

* `run_of_path`: a run follows a path as long as its budget and the word limit last.
* `exists_ending`, `exists_ending_of_run`: every run is a path with one of the six endings of `Ending`.
* `unroll_eq_ok_iff`, `unroll_eq_controlFlow_iff`, `unroll_of_depth`: when a program is run at all.
* `unroll_of_halt`, `unroll_of_restart`: the timeline when the word after a path ends the program.
* `exists_mid_of_unroll`, `exists_next_of_unroll`, `exists_last_of_unroll`: the machine in front of a step
  of an accepted run, and where it goes from there.
* `ofProgram_eq_ok_iff`, `ofProgram_of_fits`: when a program is a sequence.
* `SameWords.unroll_eq`: labels play no part in a run.
-/

namespace PulseSequencer

open Timeline (stepOf)

/-- From `m`, running the words of `steps` leads to `m'`. -/
inductive Path (p : Program) (maxDepth : Nat) : Machine → List Step → Machine → Prop
  | refl (m : Machine) : Path p maxDepth m [] m
  | step {m next m' : Machine} {i : Instruction} {steps : List Step}
      (hword : p[m.address]? = some i)
      (hnext : m.advance i p.size maxDepth = .ok (.goto next))
      (rest : Path p maxDepth next steps m') :
      Path p maxDepth m (stepOf m.address i :: steps) m'

def stepsDuration (steps : List Step) : Nat :=
  Timeline.sum (steps.map Step.duration)

@[simp] theorem stepsDuration_nil : stepsDuration [] = 0 := rfl

@[simp] theorem stepsDuration_cons (s : Step) (steps : List Step) :
    stepsDuration (s :: steps) = s.duration + stepsDuration steps := rfl

theorem stepsDuration_append (xs ys : List Step) :
    stepsDuration (xs ++ ys) = stepsDuration xs + stepsDuration ys := by
  unfold stepsDuration
  rw [List.map_append, Timeline.sum_append]

variable {p : Program} {maxDepth : Nat} {limits : Limits} {m next m' : Machine} {i : Instruction}

/-! ### Joining and cutting paths -/

theorem Path.trans {xs ys : List Step} (h : Path p maxDepth m xs next)
    (h' : Path p maxDepth next ys m') : Path p maxDepth m (xs ++ ys) m' := by
  induction h with
  | refl => exact h'
  | step hword hnext _ ih => exact .step hword hnext (ih h')

theorem Path.cut {xs ys : List Step} (h : Path p maxDepth m (xs ++ ys) m') :
    ∃ mid, Path p maxDepth m xs mid ∧ Path p maxDepth mid ys m' := by
  induction xs generalizing m with
  | nil => exact ⟨m, .refl m, h⟩
  | cons x xs ih =>
    cases h with
    | step hword hnext rest =>
      obtain ⟨mid, h₁, h₂⟩ := ih rest
      exact ⟨mid, .step hword hnext h₁, h₂⟩

/-! ### Words in their places -/

/-- The given words are in the program from an address on. -/
def Located (p : Program) (a : Nat) (words : List Instruction) : Prop :=
  ∃ front back, p.toList = front ++ words ++ back ∧ front.length = a

namespace Located

variable {p : Program} {a : Nat} {w : Instruction} {xs ys : List Instruction}

theorem left (h : Located p a (xs ++ ys)) : Located p a xs := by
  obtain ⟨front, back, hp, rfl⟩ := h
  exact ⟨front, ys ++ back, by simp [hp], rfl⟩

theorem right (h : Located p a (xs ++ ys)) : Located p (a + xs.length) ys := by
  obtain ⟨front, back, hp, rfl⟩ := h
  exact ⟨front ++ xs, back, by simp [hp], by simp⟩

theorem head (h : Located p a (w :: xs)) : p[a]? = some w := by
  obtain ⟨front, back, hp, rfl⟩ := h
  rw [← Array.getElem?_toList, hp]
  simp

theorem tail (h : Located p a (w :: xs)) : Located p (a + 1) xs :=
  (show Located p a ([w] ++ xs) from h).right

theorem lt_size (h : Located p a (w :: xs)) : a < p.size :=
  (Array.getElem?_eq_some_iff.mp h.head).1

end Located

/-! ### One word of a run -/

section Run

variable {budget total : Nat} {done : List Step}

theorem run_word (hword : p[m.address]? = some i) (htotal : total + i.duration < wordLimit) :
    Timeline.run p limits (budget + 1) m total done =
      match m.advance i p.size limits.maxDepth with
      | .error fault => .error ⟨m.address, fault⟩
      | .ok .halt => .ok ⟨(stepOf m.address i :: done).reverse, none⟩
      | .ok (.restart target) =>
        .ok ⟨(stepOf m.address i :: done).reverse,
          Timeline.firstAt (stepOf m.address i :: done).reverse target⟩
      | .ok (.goto next) =>
        Timeline.run p limits budget next (total + i.duration) (stepOf m.address i :: done) := by
  obtain ⟨hlt, rfl⟩ := Array.getElem?_eq_some_iff.mp hword
  rw [Timeline.run, dif_pos hlt]
  exact if_neg (Nat.not_le.mpr htotal)

theorem run_overflow (hword : p[m.address]? = some i) (htotal : wordLimit ≤ total + i.duration) :
    Timeline.run p limits (budget + 1) m total done = .error ⟨m.address, .durationOverflow⟩ := by
  obtain ⟨hlt, rfl⟩ := Array.getElem?_eq_some_iff.mp hword
  rw [Timeline.run, dif_pos hlt]
  exact if_pos htotal

theorem run_past (h : p.size ≤ m.address) :
    Timeline.run p limits budget m total done = .ok ⟨done.reverse, none⟩ := by
  cases budget with
  | zero => rw [Timeline.run, if_neg (Nat.not_lt.mpr h)]
  | succ budget => rw [Timeline.run, dif_neg (Nat.not_lt.mpr h)]

/-- A run follows a path as long as its budget and the word limit last. -/
theorem run_of_path {steps : List Step} (h : Path p limits.maxDepth m steps m')
    (htotal : total + stepsDuration steps < wordLimit) :
    Timeline.run p limits (steps.length + budget) m total done =
      Timeline.run p limits budget m' (total + stepsDuration steps) (steps.reverse ++ done) := by
  induction h generalizing total done with
  | refl => simp
  | @step m next m' i steps hword hnext _ ih =>
    have hsum : stepsDuration (stepOf m.address i :: steps) = i.duration + stepsDuration steps := rfl
    rw [hsum, ← Nat.add_assoc] at htotal ⊢
    have hlength : (stepOf m.address i :: steps).length + budget = steps.length + budget + 1 := by
      simp only [List.length_cons]
      omega
    rw [hlength, run_word hword (by omega), hnext]
    simp only
    rw [ih htotal]
    simp

/-! ### What ends a run -/

/-- How a run ends in front of the word at `m`, after the steps in `done`, the last one first. -/
inductive Ending (p : Program) (limits : Limits) (budget total : Nat) (done : List Step)
    (m : Machine) : Except FlowError Timeline → Prop
  | past (h : p.size ≤ m.address) : Ending p limits budget total done m (.ok ⟨done.reverse, none⟩)
  | exhausted (h : m.address < p.size) (hbudget : budget = 0) :
    Ending p limits budget total done m (.error ⟨m.address, .tooManySteps limits.maxSteps⟩)
  | overflow {i : Instruction} (hword : p[m.address]? = some i) (hbudget : 0 < budget)
      (htotal : wordLimit ≤ total + i.duration) :
    Ending p limits budget total done m (.error ⟨m.address, .durationOverflow⟩)
  | fault {i : Instruction} {fault : FlowFault} (hword : p[m.address]? = some i)
      (hbudget : 0 < budget) (htotal : total + i.duration < wordLimit)
      (h : m.advance i p.size limits.maxDepth = .error fault) :
    Ending p limits budget total done m (.error ⟨m.address, fault⟩)
  | halt {i : Instruction} (hword : p[m.address]? = some i) (hbudget : 0 < budget)
      (htotal : total + i.duration < wordLimit)
      (h : m.advance i p.size limits.maxDepth = .ok .halt) :
    Ending p limits budget total done m (.ok ⟨(stepOf m.address i :: done).reverse, none⟩)
  | restart {i : Instruction} {target : Nat} (hword : p[m.address]? = some i)
      (hbudget : 0 < budget) (htotal : total + i.duration < wordLimit)
      (h : m.advance i p.size limits.maxDepth = .ok (.restart target)) :
    Ending p limits budget total done m (.ok ⟨(stepOf m.address i :: done).reverse,
      Timeline.firstAt (stepOf m.address i :: done).reverse target⟩)

/-- Every run is a path and what ends it, and the word limit lasts to the end of the path. -/
theorem exists_ending (p : Program) (limits : Limits) (budget : Nat) (m : Machine) (total : Nat)
    (done : List Step) :
    ∃ steps m', Path p limits.maxDepth m steps m' ∧ steps.length ≤ budget ∧
      (total < wordLimit → total + stepsDuration steps < wordLimit) ∧
      Ending p limits (budget - steps.length) (total + stepsDuration steps)
        (steps.reverse ++ done) m' (Timeline.run p limits budget m total done) := by
  induction budget generalizing m total done with
  | zero =>
    refine ⟨[], m, .refl m, Nat.le_refl 0, id, ?_⟩
    by_cases h : m.address < p.size
    · rw [Timeline.run, if_pos h]
      exact .exhausted h rfl
    · rw [run_past (Nat.not_lt.mp h)]
      exact .past (Nat.not_lt.mp h)
  | succ budget ih =>
    by_cases h : m.address < p.size
    · obtain ⟨i, hword⟩ : ∃ i, p[m.address]? = some i := ⟨p[m.address], Array.getElem?_eq_getElem h⟩
      by_cases htotal : total + i.duration < wordLimit
      · rw [run_word hword htotal]
        cases hstep : m.advance i p.size limits.maxDepth with
        | error fault =>
          exact ⟨[], m, .refl m, Nat.zero_le _, id, .fault hword (by simp) htotal hstep⟩
        | ok control =>
          cases control with
          | halt => exact ⟨[], m, .refl m, Nat.zero_le _, id, .halt hword (by simp) htotal hstep⟩
          | restart target =>
            exact ⟨[], m, .refl m, Nat.zero_le _, id, .restart hword (by simp) htotal hstep⟩
          | goto next =>
            obtain ⟨steps, m', hpath, hlength, hlimit, hending⟩ :=
              ih next (total + i.duration) (stepOf m.address i :: done)
            have hsum : total + stepsDuration (stepOf m.address i :: steps) =
                total + i.duration + stepsDuration steps := by
              rw [stepsDuration_cons, ← Nat.add_assoc]
              rfl
            refine ⟨stepOf m.address i :: steps, m', .step hword hstep hpath, ?_, ?_, ?_⟩
            · simpa using hlength
            · rw [hsum]
              exact fun _ => hlimit htotal
            · rw [hsum, List.length_cons, Nat.add_sub_add_right, List.reverse_cons,
                List.append_assoc]
              exact hending
      · rw [run_overflow hword (Nat.not_lt.mp htotal)]
        exact ⟨[], m, .refl m, Nat.zero_le _, id, .overflow hword (by simp) (Nat.not_lt.mp htotal)⟩
    · rw [run_past (Nat.not_lt.mp h)]
      exact ⟨[], m, .refl m, Nat.zero_le _, id, .past (Nat.not_lt.mp h)⟩

end Run

/-! ### Runs from the first word -/

theorem unroll_of_empty (h : p.size = 0) (limits : Limits) :
    Timeline.unroll p limits = .error (.controlFlow 0 .emptyProgram) := by
  rw [Timeline.unroll, if_pos (Array.isEmpty_iff_size_eq_zero.mpr h)]
  rfl

/-- A program with words is run if its stacks can be had. -/
theorem unroll_of_pos (h : 0 < p.size) (limits : Limits) :
    Timeline.unroll p limits =
      if stackLimit ≤ limits.maxDepth then .error (.capacity limits.maxDepth)
      else (Timeline.run p limits limits.maxSteps {} 0 []).mapError FlowError.report := by
  rw [Timeline.unroll, if_neg (by rw [Array.isEmpty_iff_size_eq_zero]; omega)]
  rfl

theorem unroll_of_depth (h : 0 < p.size) (hdepth : stackLimit ≤ limits.maxDepth) :
    Timeline.unroll p limits = .error (.capacity limits.maxDepth) := by
  rw [unroll_of_pos h, if_pos hdepth]

theorem unroll_eq_run (h : 0 < p.size) (hdepth : limits.maxDepth < stackLimit) :
    Timeline.unroll p limits =
      (Timeline.run p limits limits.maxSteps {} 0 []).mapError FlowError.report := by
  rw [unroll_of_pos h, if_neg (Nat.not_le.mpr hdepth)]

theorem unroll_eq_ok_iff {t : Timeline} :
    Timeline.unroll p limits = .ok t ↔ 0 < p.size ∧ limits.maxDepth < stackLimit ∧
      Timeline.run p limits limits.maxSteps {} 0 [] = .ok t := by
  unfold Timeline.unroll
  rw [guard_eq_ok_iff, guard_eq_ok_iff, mapError_eq_ok_iff, Array.isEmpty_iff_size_eq_zero,
    Nat.pos_iff_ne_zero, Nat.not_le]

theorem unroll_eq_controlFlow_iff {a : Nat} {fault : FlowFault} :
    Timeline.unroll p limits = .error (.controlFlow a fault) ↔
      p.size = 0 ∧ a = 0 ∧ fault = .emptyProgram ∨
      0 < p.size ∧ limits.maxDepth < stackLimit ∧
        Timeline.run p limits limits.maxSteps {} 0 [] = .error ⟨a, fault⟩ := by
  rcases Nat.eq_zero_or_pos p.size with hsize | hsize
  · rw [unroll_of_empty hsize]
    simp [hsize, eq_comm]
  · rw [unroll_of_pos hsize]
    by_cases hdepth : stackLimit ≤ limits.maxDepth
    · simp [hdepth, Nat.ne_of_gt hsize, Nat.not_lt.mpr hdepth]
    · rw [if_neg hdepth, mapError_eq_error_iff]
      simp only [Nat.ne_of_gt hsize, hsize, Nat.not_le.mp hdepth, false_and, false_or, true_and]
      constructor
      · rintro ⟨e, hrun, he⟩
        cases he
        exact hrun
      · intro hrun
        exact ⟨_, hrun, rfl⟩

/-- With stacks to be had, a run fails in the flow of control only. -/
theorem exists_controlFlow_of_unroll (hdepth : limits.maxDepth < stackLimit) {e : CompileError}
    (h : Timeline.unroll p limits = .error e) : ∃ a fault, e = .controlFlow a fault := by
  rcases Nat.eq_zero_or_pos p.size with hsize | hsize
  · rw [unroll_of_empty hsize] at h
    cases h
    exact ⟨_, _, rfl⟩
  · rw [unroll_eq_run hsize hdepth] at h
    obtain ⟨fault, -, rfl⟩ := mapError_eq_error_iff.mp h
    exact ⟨_, _, rfl⟩

/-- A path from the start leads the run to where the path ends. -/
theorem unroll_of_path {steps : List Step} (hsize : 0 < p.size) (hdepth : limits.maxDepth < stackLimit)
    (hpath : Path p limits.maxDepth {} steps m) (hlength : steps.length ≤ limits.maxSteps)
    (htotal : stepsDuration steps < wordLimit) :
    Timeline.unroll p limits = (Timeline.run p limits (limits.maxSteps - steps.length) m
      (stepsDuration steps) steps.reverse).mapError FlowError.report := by
  obtain ⟨budget, hbudget⟩ := Nat.exists_eq_add_of_le hlength
  rw [unroll_eq_run hsize hdepth, hbudget, run_of_path hpath (by omega)]
  simp

/-- The run from the first word is a path within the limits and what ends it. -/
theorem exists_ending_of_run {r : Except FlowError Timeline}
    (h : Timeline.run p limits limits.maxSteps {} 0 [] = r) :
    ∃ steps m', Path p limits.maxDepth {} steps m' ∧ steps.length ≤ limits.maxSteps ∧
      stepsDuration steps < wordLimit ∧
      Ending p limits (limits.maxSteps - steps.length) (stepsDuration steps) steps.reverse m' r := by
  obtain ⟨steps, m', hpath, hlength, hlimit, hending⟩ :=
    exists_ending p limits limits.maxSteps {} 0 []
  rw [Nat.zero_add] at hlimit hending
  rw [List.append_nil, h] at hending
  exact ⟨steps, m', hpath, hlength, hlimit (by decide), hending⟩

section Last

variable {steps : List Step} (hdepth : limits.maxDepth < stackLimit)
  (hpath : Path p limits.maxDepth {} steps m) (hword : p[m.address]? = some i)
  (hlength : steps.length < limits.maxSteps) (htotal : stepsDuration steps + i.duration < wordLimit)

include hdepth hpath hword hlength htotal

/-- A path from the start leads the run to the word that comes next. -/
theorem exists_run_of_path :
    ∃ budget, Timeline.unroll p limits = (Timeline.run p limits (budget + 1) m
      (stepsDuration steps) steps.reverse).mapError FlowError.report := by
  have hsize : 0 < p.size := Nat.zero_lt_of_lt (Array.getElem?_eq_some_iff.mp hword).1
  refine ⟨limits.maxSteps - steps.length - 1, ?_⟩
  rw [unroll_of_path hsize hdepth hpath (Nat.le_of_lt hlength) (by omega),
    Nat.sub_add_cancel (by omega)]

theorem unroll_of_halt (h : m.advance i p.size limits.maxDepth = .ok .halt) :
    Timeline.unroll p limits = .ok ⟨steps ++ [stepOf m.address i], none⟩ := by
  obtain ⟨budget, hrun⟩ := exists_run_of_path hdepth hpath hword hlength htotal
  rw [hrun, run_word hword htotal, h]
  simp [Except.mapError]

theorem unroll_of_restart {target : Nat}
    (h : m.advance i p.size limits.maxDepth = .ok (.restart target)) :
    Timeline.unroll p limits = .ok ⟨steps ++ [stepOf m.address i],
      Timeline.firstAt (steps ++ [stepOf m.address i]) target⟩ := by
  obtain ⟨budget, hrun⟩ := exists_run_of_path hdepth hpath hword hlength htotal
  rw [hrun, run_word hword htotal, h]
  simp [Except.mapError]

end Last

/-! ### Accepted runs -/

variable {t : Timeline}

/-- An accepted run is a path within the limits and what ends it. -/
theorem exists_ending_of_unroll (h : Timeline.unroll p limits = .ok t) :
    ∃ steps m', Path p limits.maxDepth {} steps m' ∧ steps.length ≤ limits.maxSteps ∧
      stepsDuration steps < wordLimit ∧
      Ending p limits (limits.maxSteps - steps.length) (stepsDuration steps) steps.reverse m'
        (.ok t) :=
  exists_ending_of_run (unroll_eq_ok_iff.mp h).2.2

/-- The steps of an accepted run are a path, and perhaps one word more that ends it. -/
theorem exists_path_of_unroll (h : Timeline.unroll p limits = .ok t) :
    ∃ steps m', Path p limits.maxDepth {} steps m' ∧
      (t.steps = steps ∨
        ∃ i, p[m'.address]? = some i ∧ t.steps = steps ++ [stepOf m'.address i]) := by
  obtain ⟨steps, m', hpath, -, -, hending⟩ := exists_ending_of_unroll h
  refine ⟨steps, m', hpath, ?_⟩
  cases hending with
  | past => exact .inl (by simp)
  | halt hword => exact .inr ⟨_, hword, by simp⟩
  | restart hword => exact .inr ⟨_, hword, by simp⟩

/-- The last step of an accepted run: its word leads behind the last one, stops or starts over. -/
theorem exists_last_of_unroll (h : Timeline.unroll p limits = .ok t) :
    ∃ front m i, t.steps = front ++ [stepOf m.address i] ∧ Path p limits.maxDepth {} front m ∧
      p[m.address]? = some i ∧
      ((∃ next, m.advance i p.size limits.maxDepth = .ok (.goto next) ∧ p.size ≤ next.address ∧
          t.branchIndex = none) ∨
        (m.advance i p.size limits.maxDepth = .ok .halt ∧ t.branchIndex = none) ∨
        ∃ target, m.advance i p.size limits.maxDepth = .ok (.restart target) ∧
          t.branchIndex = Timeline.firstAt t.steps target) := by
  have hsize := (unroll_eq_ok_iff.mp h).1
  obtain ⟨steps, m', hpath, -, -, hending⟩ := exists_ending_of_unroll h
  cases hending with
  | past hpast =>
    rcases List.eq_nil_or_concat steps with rfl | ⟨front, last, rfl⟩
    · cases hpath
      exact absurd hpast (Nat.not_le.mpr hsize)
    · rw [List.concat_eq_append] at hpath ⊢
      obtain ⟨m, hfront, hlast⟩ := hpath.cut
      cases hlast with
      | step hword hnext rest =>
        cases rest
        exact ⟨front, m, _, by simp, hfront, hword, .inl ⟨_, hnext, hpast, rfl⟩⟩
  | halt hword _ _ hhalt =>
    exact ⟨steps, m', _, by simp, hpath, hword, .inr (.inl ⟨hhalt, rfl⟩)⟩
  | restart hword _ _ hrestart =>
    exact ⟨steps, m', _, by simp, hpath, hword, .inr (.inr ⟨_, hrestart, rfl⟩)⟩

/-- The duration of an accepted run fits a word. -/
theorem stepsDuration_lt_of_unroll (h : Timeline.unroll p limits = .ok t) :
    stepsDuration t.steps < wordLimit := by
  obtain ⟨steps, m', -, -, hlimit, hending⟩ := exists_ending_of_unroll h
  cases hending with
  | past => simpa using hlimit
  | halt _ _ htotal => simpa [stepsDuration_append, stepOf] using htotal
  | restart _ _ htotal => simpa [stepsDuration_append, stepOf] using htotal

/-- In front of every step of an accepted run stands a machine that the steps before lead to. -/
theorem exists_mid_of_unroll (h : Timeline.unroll p limits = .ok t) {k : Nat} {a : Step}
    (ha : t.steps[k]? = some a) :
    ∃ m i, Path p limits.maxDepth {} (t.steps.take k) m ∧ p[m.address]? = some i ∧
      a = stepOf m.address i := by
  obtain ⟨steps, m', hpath, hsteps⟩ := exists_path_of_unroll h
  by_cases hk : k < steps.length
  · have htake : t.steps.take k = steps.take k ∧ steps[k]? = some a := by
      rcases hsteps with hsteps | ⟨i, -, hsteps⟩ <;> rw [hsteps] at ha ⊢
      · exact ⟨rfl, ha⟩
      · rw [List.getElem?_append_left hk] at ha
        exact ⟨List.take_append_of_le_length (Nat.le_of_lt hk), ha⟩
    rw [htake.1]
    have hsplit : steps.take k ++ a :: steps.drop (k + 1) = steps := by
      obtain ⟨hlt, rfl⟩ := List.getElem?_eq_some_iff.mp htake.2
      rw [← List.drop_eq_getElem_cons hlt, List.take_append_drop]
    rw [← hsplit] at hpath
    obtain ⟨m, hfront, hback⟩ := hpath.cut
    cases hback with
    | step hword hnext rest => exact ⟨m, _, hfront, hword, rfl⟩
  · -- only the word that ends the run comes after the path
    rcases hsteps with hsteps | ⟨i, hword, hsteps⟩ <;> rw [hsteps] at ha ⊢
    · rw [List.getElem?_eq_none (Nat.not_lt.mp hk)] at ha
      cases ha
    · rw [List.getElem?_append_right (Nat.not_lt.mp hk), List.getElem?_singleton] at ha
      split at ha
      · next h0 =>
        have hk' : k = steps.length := by omega
        cases ha
        refine ⟨m', i, ?_, hword, rfl⟩
        rwa [hk', List.take_left]
      · cases ha

/-- From a step of an accepted run to the next one the machine takes one word. -/
theorem exists_next_of_unroll (h : Timeline.unroll p limits = .ok t) {k : Nat} {a b : Step}
    (ha : t.steps[k]? = some a) (hb : t.steps[k + 1]? = some b) :
    ∃ m next i, Path p limits.maxDepth {} (t.steps.take k) m ∧ p[m.address]? = some i ∧
      a = stepOf m.address i ∧ m.advance i p.size limits.maxDepth = .ok (.goto next) ∧
      next.address = b.address := by
  obtain ⟨m', i', hpath, -, rfl⟩ := exists_mid_of_unroll h hb
  have htake : t.steps.take (k + 1) = t.steps.take k ++ [a] := by
    rw [List.take_add_one, ha]
    rfl
  rw [htake] at hpath
  obtain ⟨m, hfront, hback⟩ := hpath.cut
  cases hback with
  | step hword hnext rest =>
    cases rest
    exact ⟨m, m', _, hfront, hword, rfl, hnext, rfl⟩

/-- A sequence is a program that stays within its channels, with its timeline. -/
theorem ofProgram_eq_ok_iff {channels : Nat} {s : Sequence} :
    Sequence.ofProgram p channels limits = .ok s ↔
      checkChannelCount channels = .ok () ∧ Sequence.firstTooWide? p channels = none ∧
        ∃ t, Timeline.unroll p limits = .ok t ∧ s = ⟨p, channels, t⟩ := by
  unfold Sequence.ofProgram
  rw [bind_eq_ok_iff]
  constructor
  · rintro ⟨⟨⟩, hcount, h⟩
    refine ⟨hcount, ?_⟩
    cases hwide : Sequence.firstTooWide? p channels with
    | some found => simp [hwide, bind, Except.bind, throw, throwThe, MonadExceptOf.throw] at h
    | none =>
      rw [hwide] at h
      obtain ⟨t, hunroll, h⟩ := bind_eq_ok_iff.mp h
      cases h
      exact ⟨rfl, t, hunroll, rfl⟩
  · rintro ⟨hcount, hwide, t, hunroll, rfl⟩
    refine ⟨(), hcount, ?_⟩
    rw [hwide]
    exact bind_eq_ok_iff.mpr ⟨t, hunroll, rfl⟩

theorem firstTooWide?_eq_none_iff {channels : Nat} :
    Sequence.firstTooWide? p channels = none ↔ ∀ i ∈ p.toList, i.flags.fits channels = true := by
  unfold Sequence.firstTooWide?
  rw [List.find?_eq_none]
  constructor
  · intro h i hi
    obtain ⟨k, hk⟩ := List.getElem?_of_mem hi
    simpa using h (i, k) (List.mem_zipIdx_iff_getElem?.mpr hk)
  · rintro h ⟨i, address⟩ hi
    simp [h i (List.fst_mem_of_mem_zipIdx hi)]

/-- A program within its channels fails only where its run does. -/
theorem ofProgram_of_fits {channels : Nat} (hcount : checkChannelCount channels = .ok ())
    (hfits : ∀ i ∈ p.toList, i.flags.fits channels = true) :
    Sequence.ofProgram p channels limits =
      match Timeline.unroll p limits with
      | .error e => .error e
      | .ok t => .ok ⟨p, channels, t⟩ := by
  unfold Sequence.ofProgram
  rw [hcount, firstTooWide?_eq_none_iff.mpr hfits]
  cases Timeline.unroll p limits <;> rfl

/-- A run that fails does so at a word of the program. -/
theorem lt_size_of_unroll_error {a : Nat} {fault : FlowFault} (hsize : 0 < p.size)
    (h : Timeline.unroll p limits = .error (.controlFlow a fault)) : a < p.size := by
  obtain ⟨hempty, -⟩ | ⟨-, -, hrun⟩ := unroll_eq_controlFlow_iff.mp h
  · omega
  obtain ⟨steps, m', -, -, -, hending⟩ := exists_ending_of_run hrun
  rcases hending with - | hlt | hword | hword
  · exact hlt
  · exact (Array.getElem?_eq_some_iff.mp hword).1
  · exact (Array.getElem?_eq_some_iff.mp hword).1

/-! ### Labels -/

/-- The word without its label. -/
def bare (i : Instruction) : Instruction :=
  { i with label := none }

/-- The programs differ in nothing but their labels. -/
def SameWords (p q : Program) : Prop :=
  p.map bare = q.map bare

theorem SameWords.size_eq {q : Program} (h : SameWords p q) : p.size = q.size := by
  simpa using congrArg Array.size h

theorem SameWords.word {q : Program} (h : SameWords p q) {k : Nat} (hp : k < p.size)
    (hq : k < q.size) : bare p[k] = bare q[k] := by
  have hk : (p.map bare)[k]? = (q.map bare)[k]? := by rw [h]
  simpa [hp, hq] using hk

/-- A run does not look at labels. -/
theorem SameWords.run_eq {q : Program} (h : SameWords p q) (budget : Nat) (m : Machine)
    (total : Nat) (done : List Step) :
    Timeline.run p limits budget m total done = Timeline.run q limits budget m total done := by
  have hsize := h.size_eq
  induction budget generalizing m total done with
  | zero => rw [Timeline.run, Timeline.run, hsize]
  | succ budget ih =>
    rw [Timeline.run, Timeline.run]
    by_cases hp : m.address < p.size
    · have hq : m.address < q.size := hsize ▸ hp
      have hword := h.word hp hq
      have hduration : p[m.address].duration = q[m.address].duration := by
        show (bare p[m.address]).duration = (bare q[m.address]).duration
        rw [hword]
      have hstep : stepOf m.address p[m.address] = stepOf m.address q[m.address] := by
        show stepOf m.address (bare p[m.address]) = stepOf m.address (bare q[m.address])
        rw [hword]
      have hadvance : m.advance p[m.address] p.size limits.maxDepth =
          m.advance q[m.address] q.size limits.maxDepth := by
        show m.advance (bare p[m.address]) p.size limits.maxDepth =
          m.advance (bare q[m.address]) q.size limits.maxDepth
        rw [hword, hsize]
      rw [dif_pos hp, dif_pos hq]
      simp only [hduration, hstep, hadvance, ih]
    · rw [dif_neg hp, dif_neg (hsize ▸ hp)]

theorem SameWords.unroll_eq {q : Program} (h : SameWords p q) (limits : Limits) :
    Timeline.unroll p limits = Timeline.unroll q limits := by
  unfold Timeline.unroll
  rw [h.run_eq]
  simp only [Array.isEmpty_iff_size_eq_zero, h.size_eq]

end PulseSequencer
