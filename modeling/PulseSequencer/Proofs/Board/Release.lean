import PulseSequencer.Proofs.Board.Selection
import Mathlib.Data.List.Induction

/-!
# Which board a release reaches

A release selects its board, then resets and closes, and looks at none of the codes.  If selecting
fails, the two calls go to whatever board is selected still.

* `run_release`: a release is these three calls and always finishes.
* `selectedAfter_of_single`: while only one board has been selected, it is selected.
* `release_of_history`: the boards that a release can reach, after any history.
* `release_resets_another`: a history in which a release resets and closes the board of another handle.
-/

namespace PulseSequencer.Board

variable {σ : Type} {n : Int}

/-- All calls to the selected board are made while board `n` is selected; `selected` is selected in front
of the events. -/
def ReachesOnly (n : Int) (selected : Option Int) (events : List Event) : Prop :=
  ∀ front c code back, events = front ++ .call c code :: back → c.isDirected = true →
    selectedAfter selected front = some n

/-! ### The calls of a release -/

theorem run_release (v : Vendor σ) (h : Handle) (s : σ) :
    ∃ code reset close, (Operation.run v (.release h) s).1 = .ok .finished ∧
      (Operation.run v (.release h) s).2.1 =
        [.call (.selectBoard h.number) code, .call .reset reset, .call .close close] :=
  ⟨_, _, _, rfl, rfl⟩

/-- What is selected after the first of the three calls, the other two reach. -/
theorem reachesOnly_release (m : Int) (selected : Option Int) (code reset close : Int) :
    ReachesOnly m selected
        [.call (.selectBoard n) code, .call .reset reset, .call .close close] ↔
      (if code = 0 then some n else selected) = some m := by
  constructor
  · intro h
    exact h [.call (.selectBoard n) code] .reset reset [.call .close close] rfl rfl
  · intro h front c code' back hsplit hdirected
    rcases front with - | ⟨first, - | ⟨second, front⟩⟩
    · -- the call in question cannot be the selection itself
      obtain ⟨heq, -⟩ := List.cons_eq_cons.mp hsplit
      obtain ⟨rfl, -⟩ := Event.call.inj heq
      simp [Call.isDirected] at hdirected
    · obtain ⟨rfl, -⟩ := List.cons_eq_cons.mp hsplit
      exact h
    · obtain ⟨rfl, hrest⟩ := List.cons_eq_cons.mp hsplit
      obtain ⟨rfl, hrest⟩ := List.cons_eq_cons.mp hrest
      rcases front with - | ⟨third, front⟩
      · exact h
      · simp at hrest

/-! ### What is selected in front of a release -/

/-- Where board `n` has been selected, and no other one, it is selected. -/
theorem selectedAfter_of_single {log : List Event} (hmem : .call (.selectBoard n) 0 ∈ log)
    (hsingle : ∀ m, .call (.selectBoard m) 0 ∈ log → m = n) (selected : Option Int) :
    selectedAfter selected log = some n := by
  induction log using List.reverseRecOn with
  | nil => simp at hmem
  | append_singleton log e ih =>
    rw [selectedAfter_append]
    by_cases he : ∃ m, e = .call (.selectBoard m) 0
    · obtain ⟨m, rfl⟩ := he
      rw [hsingle m (by simp)]
      rfl
    · have hlog : .call (.selectBoard n) 0 ∈ log := by
        rcases List.mem_append.mp hmem with h | h
        · exact h
        · exact absurd ⟨n, (List.mem_singleton.mp h).symm⟩ he
      rw [ih hlog fun m hm => hsingle m (List.mem_append_left _ hm)]
      show e.select (some n) = some n
      unfold Event.select
      split
      · next m code =>
        have hcode : code ≠ 0 := fun h0 => he ⟨m, by rw [h0]⟩
        rw [if_neg hcode]
      · rfl

/-- **Where a release goes.**  A handle is released after any history, on a library that answers as it
likes; `selected` is selected in the beginning.  The release always finishes, and is the three calls.
The resetting and the closing reach the handle's own board if selecting it succeeds, and otherwise the
board that is selected still, whoever it belongs to.  So they reach the own board alone if, and only if,
selecting succeeds or the own board is selected already; the latter is so as long as no other board has
been selected since the handle's own was. -/
theorem release_of_history (v : Vendor σ) (operations : List Operation) (s : σ)
    (selected : Option Int) (before after : List Turn) (turn : Turn) (h : Handle)
    (hturn : history v operations s = before ++ turn :: after)
    (hrelease : turn.operation = .release h) :
    turn.result = .ok .finished ∧
    ∃ code reset close,
      turn.events = [.call (.selectBoard h.number) code, .call .reset reset, .call .close close] ∧
      (∀ m, ReachesOnly m (selectedAfter selected (before.flatMap Turn.events)) turn.events ↔
        (code = 0 ∧ m = h.number ∨
          code ≠ 0 ∧ selectedAfter selected (before.flatMap Turn.events) = some m)) ∧
      ∀ log log', before.flatMap Turn.events = log ++ log' →
        .call (.selectBoard h.number) 0 ∈ log' →
        (∀ m, .call (.selectBoard m) 0 ∈ log' → m = h.number) →
        ReachesOnly h.number (selectedAfter selected (before.flatMap Turn.events)) turn.events := by
  obtain ⟨s', hresult, hevents⟩ := exists_run_of_history hturn
  rw [hrelease] at hresult hevents
  obtain ⟨code, reset, close, hfinished, hcalls⟩ := run_release v h s'
  rw [hresult] at hfinished
  rw [hevents] at hcalls
  have hreach : ∀ m,
      ReachesOnly m (selectedAfter selected (before.flatMap Turn.events)) turn.events ↔
        (code = 0 ∧ m = h.number ∨
          code ≠ 0 ∧ selectedAfter selected (before.flatMap Turn.events) = some m) := by
    intro m
    rw [hcalls, reachesOnly_release]
    by_cases hcode : code = 0
    · simp [hcode, eq_comm]
    · simp [hcode]
  refine ⟨hfinished, code, reset, close, hcalls, hreach, ?_⟩
  intro log log' hlog hmem hsingle
  rw [hreach]
  by_cases hcode : code = 0
  · exact .inl ⟨hcode, rfl⟩
  · rw [hlog, selectedAfter_append]
    exact .inr ⟨hcode, selectedAfter_of_single hmem hsingle _⟩

/-- Boards 1 and 2 are opened, and then a handle is released while the library refuses to select. -/
theorem history_refused (h : Handle) :
    history scripted [.openBoard 1 100, .openBoard 2 100, .release h] [0, 0, 0, 0, -1] =
      [⟨.openBoard 1 100, .ok (.opened ⟨1, 100⟩), [.call (.selectBoard 1) 0, .call .init 0]⟩,
        ⟨.openBoard 2 100, .ok (.opened ⟨2, 100⟩), [.call (.selectBoard 2) 0, .call .init 0]⟩] ++
      ⟨.release h, .ok .finished,
        [.call (.selectBoard h.number) (-1), .call .reset 0, .call .close 0]⟩ :: [] := by
  rfl

/-- The board that was opened last is selected still, and its release reaches it. -/
theorem release_of_history_last :
    ∃ before turn,
      history scripted [.openBoard 1 100, .openBoard 2 100, .release ⟨2, 100⟩] [0, 0, 0, 0, -1] =
        before ++ turn :: [] ∧
      turn.operation = .release ⟨2, 100⟩ ∧
      turn.events = [.call (.selectBoard 2) (-1), .call .reset 0, .call .close 0] ∧
      ReachesOnly 2 (selectedAfter none (before.flatMap Turn.events)) turn.events := by
  have hturn := history_refused ⟨2, 100⟩
  obtain ⟨-, code, reset, close, -, -, hown⟩ :=
    release_of_history scripted _ _ none _ _ _ ⟨2, 100⟩ hturn rfl
  refine ⟨_, _, hturn, rfl, rfl, ?_⟩
  -- board 1 was selected before, but not since board 2 was
  apply hown [.call (.selectBoard 1) 0, .call .init 0] [.call (.selectBoard 2) 0, .call .init 0] rfl
  · simp
  · simp

/-- **A release can reset and close the board of another handle.**  Boards 1 and 2 are opened; the
library then refuses to select board 1, and the release of its handle resets and closes board 2. -/
theorem release_resets_another :
    ∃ first second turn,
      history scripted [.openBoard 1 100, .openBoard 2 100, .release ⟨1, 100⟩] [0, 0, 0, 0, -1] =
        [first, second] ++ turn :: [] ∧
      first.result = .ok (.opened ⟨1, 100⟩) ∧ second.result = .ok (.opened ⟨2, 100⟩) ∧
      turn.operation = .release ⟨1, 100⟩ ∧
      turn.events = [.call (.selectBoard 1) (-1), .call .reset 0, .call .close 0] ∧
      ReachesOnly 2 (selectedAfter none ([first, second].flatMap Turn.events)) turn.events ∧
      ¬ ReachesOnly 1 (selectedAfter none ([first, second].flatMap Turn.events)) turn.events := by
  refine ⟨_, _, _, history_refused ⟨1, 100⟩, rfl, rfl, rfl, rfl, ?_, ?_⟩
  · rw [reachesOnly_release]
    rfl
  · rw [reachesOnly_release]
    decide

end PulseSequencer.Board
