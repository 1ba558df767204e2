import PulseSequencer.Proofs.Board.History

/-!
# The selected board

The vendor library has one selected board.  A call that selects a board changes it if its code is 0;
no other call does.  `selectedAfter` follows it through a log.

Every operation on a board is a script that selects the board first and does not select again
(`SelectsFirst`, `Operation.selectsFirst`).  Whatever was selected before, the calls after a successful
selection reach the operation's own board, and a failed one is the end of the operation:
`selected_of_history`.
-/

namespace PulseSequencer.Board

variable {α β σ : Type} {n : Int}

/-! ### What is selected -/

/-- Does the call select a board? -/
def Call.selects : Call → Bool
  | .selectBoard _ => true
  | _ => false

/-- Does the call go to the board that is selected? -/
def Call.isDirected : Call → Bool
  | .countBoards | .selectBoard _ => false
  | _ => true

/-- The selected board after an event. -/
def Event.select (selected : Option Int) : Event → Option Int
  | .call (.selectBoard n) code => if code = 0 then some n else selected
  | _ => selected

/-- The selected board after a log. -/
def selectedAfter (selected : Option Int) (log : List Event) : Option Int :=
  log.foldl Event.select selected

theorem selectedAfter_append (selected : Option Int) (log log' : List Event) :
    selectedAfter selected (log ++ log') = selectedAfter (selectedAfter selected log) log' :=
  List.foldl_append

/-- Without calls that select, what is selected stays. -/
theorem selectedAfter_of_not_selects {log : List Event}
    (h : ∀ c code, .call c code ∈ log → c.selects = false) (selected : Option Int) :
    selectedAfter selected log = selected := by
  induction log with
  | nil => rfl
  | cons e rest ih =>
    have hselect : e.select selected = selected := by
      cases e with
      | ask q text => rfl
      | call c code =>
        cases c with
        | selectBoard m =>
          have hfalse := h (.selectBoard m) code List.mem_cons_self
          cases hfalse
        | _ => rfl
    show selectedAfter (e.select selected) rest = selected
    rw [hselect]
    exact ih fun c code hmem => h c code (List.mem_cons_of_mem e hmem)

/-! ### Scripts that select first -/

/-- Whatever is selected stays selected. -/
abbrev Script.KeepsSelection (x : Script α) : Prop :=
  x.CallsOnly fun c => c.selects = false

/-- A script that fails without a call, or selects board `n`: it goes on only if that succeeds, and
does not select again. -/
inductive SelectsFirst (n : Int) : Script (Except Error α) → Prop
  | refuses (e : Error) : SelectsFirst n (.done (.error e))
  | selects (next : Int → Script (Except Error α))
      (hfail : ∀ code, code ≠ 0 →
        next code = .ask .lastError fun report => .done (.error (.call (.select n) code report)))
      (hrest : (next 0).KeepsSelection) :
      SelectsFirst n (.call (.selectBoard n) next)

theorem SelectsFirst.bind {x : Operating α} {f : α → Operating β} (hx : SelectsFirst n x.run)
    (hf : ∀ a, (f a).run.KeepsSelection) : SelectsFirst n (x >>= f).run := by
  show SelectsFirst n (Script.bind x.run _)
  generalize x.run = script at hx
  cases hx with
  | refuses e => exact .refuses e
  | selects next hfail hrest =>
    refine .selects _ ?_ ?_
    · intro code hcode
      rw [hfail code hcode]
      rfl
    · refine hrest.bind ?_
      rintro (e | a)
      · trivial
      · exact hf a

theorem SelectsFirst.map {x : Operating α} (hx : SelectsFirst n x.run) (f : α → β) :
    SelectsFirst n (f <$> x).run := by
  rw [map_eq_pure_bind]
  exact hx.bind fun _ => trivial

theorem selectsFirst_settle_bind {r : Except Error α} {f : α → Operating β}
    (hf : ∀ a, SelectsFirst n (f a).run) : SelectsFirst n (settle r >>= f).run := by
  cases r with
  | error e => exact .refuses e
  | ok a => exact hf a

theorem selectsFirst_select (n : Int) : SelectsFirst n (select n).run := by
  have hperform : SelectsFirst n (perform (.selectBoard n) (.select n)).run := by
    rw [Operating.run_perform]
    refine .selects _ ?_ ?_
    · intro code hcode
      exact Operating.run_checkCode_of_not_accepts (by simpa [Success.accepts] using hcode) _
    · exact Operating.callsOnly_checkCode 0 _ _
  exact hperform.bind fun _ => trivial

/-! ### The operations -/

theorem keepsSelection_perform {c : Call} (hc : c.selects = false) (action : Action)
    (success : Success) : (perform c action success).run.KeepsSelection :=
  Operating.callsOnly_perform hc action success

theorem keepsSelection_writeSession (clock : Float) (words : List Word) :
    (writeSession clock words).run.KeepsSelection := by
  apply Operating.callsOnly_writeSession
  · exact fun _ _ => rfl
  · rfl

theorem selectsFirst_command (h : Handle) {c : Call} (hc : c.selects = false) (action : Action)
    (success : Success) : SelectsFirst h.number (h.command c action success).run :=
  (selectsFirst_select h.number).bind fun _ => keepsSelection_perform hc action success

theorem selectsFirst_openBoard (n : Int) (clock : Float) : SelectsFirst n (openBoard n clock).run := by
  refine selectsFirst_settle_bind fun _ => (selectsFirst_select n).bind fun _ => ?_
  exact Operating.callsOnly_bind (keepsSelection_perform rfl _ _) fun _ => trivial

theorem selectsFirst_program (h : Handle) (s : Sequence) :
    SelectsFirst h.number (h.program s).run := by
  refine selectsFirst_settle_bind fun words => (selectsFirst_command h rfl _ _).bind fun _ => ?_
  refine Operating.callsOnly_bind (keepsSelection_perform rfl _ _) fun _ => ?_
  refine Operating.callsOnly_bind (keepsSelection_perform rfl _ _) fun _ => ?_
  refine Operating.callsOnly_bind ?_ fun _ => ?_
  · exact keepsSelection_writeSession h.clock words
  · exact Operating.callsOnly_bind (keepsSelection_perform rfl _ _) fun _ => trivial

/-- The board that an operation on a board works with. -/
def Operation.board? : Operation → Option Int
  | openBoard n _ => some n
  | program h _ | start h | stop h | reset h | status h | firmwareId h => some h.number
  | release _ | countBoards | version | lastError => none

theorem Operation.selectsFirst {o : Operation} (h : o.board? = some n) :
    SelectsFirst n o.carryOut.run := by
  cases o with
  | openBoard m clock =>
    obtain rfl : m = n := Option.some.inj h
    exact (selectsFirst_openBoard m clock).map _
  | program handle s =>
    obtain rfl : handle.number = n := Option.some.inj h
    exact (selectsFirst_program handle s).bind fun _ => trivial
  | start handle | stop handle | reset handle =>
    obtain rfl : handle.number = n := Option.some.inj h
    refine SelectsFirst.bind ?_ fun _ => trivial
    exact (selectsFirst_command handle rfl _ _).bind fun _ => trivial
  | status handle =>
    obtain rfl : handle.number = n := Option.some.inj h
    refine SelectsFirst.map ?_ _
    exact (selectsFirst_command handle rfl _ _).bind fun _ => trivial
  | firmwareId handle =>
    obtain rfl : handle.number = n := Option.some.inj h
    exact (selectsFirst_command handle rfl _ _).map _
  | release | countBoards | version | lastError => cases h

/-! ### Runs of operations -/

/-- A run of a script that selects first: nothing was called, the selection failed and was the only
call, or the selection succeeded and none came after it. -/
theorem SelectsFirst.run_cases {x : Script (Except Error α)} (h : SelectsFirst n x) (v : Vendor σ)
    (s : σ) :
    ((∃ e, (Script.run v x s).1 = .error e) ∧ (Script.run v x s).2.1 = []) ∨
    (∃ code report, code ≠ 0 ∧ (Script.run v x s).1 = .error (.call (.select n) code report) ∧
      (Script.run v x s).2.1 = [.call (.selectBoard n) code, .ask .lastError report]) ∨
    (∃ rest, (Script.run v x s).2.1 = .call (.selectBoard n) 0 :: rest ∧
      ∀ c code, .call c code ∈ rest → c.selects = false) := by
  cases h with
  | refuses e => exact .inl ⟨⟨e, rfl⟩, rfl⟩
  | selects next hfail hrest =>
    rw [Script.run_call]
    by_cases hcode : (v.call (.selectBoard n) s).1 = 0
    · refine .inr (.inr ⟨(Script.run v (next 0) (v.call (.selectBoard n) s).2).2.1, ?_, ?_⟩)
      · rw [hcode]
      · exact fun c code hmem => hrest.of_mem_events v _ hmem
    · refine .inr (.inl ⟨(v.call (.selectBoard n) s).1,
        (v.ask .lastError (v.call (.selectBoard n) s).2).1, hcode, ?_, ?_⟩)
      · rw [hfail _ hcode]
        rfl
      · rw [hfail _ hcode]
        rfl

/-- Behind a successful selection that is not followed by another, board `n` is selected. -/
theorem selectedAfter_front {rest front back : List Event} {c : Call} {code : Int}
    (hrest : ∀ c code, .call c code ∈ rest → c.selects = false)
    (heq : .call (.selectBoard n) 0 :: rest = front ++ .call c code :: back)
    (hdirected : c.isDirected = true) (selected : Option Int) :
    selectedAfter selected front = some n := by
  cases front with
  | nil =>
    -- the call is the selection itself
    cases heq
    cases hdirected
  | cons first front =>
    obtain ⟨rfl, rfl⟩ := List.cons_eq_cons.mp heq
    refine selectedAfter_of_not_selects (fun c' code' hmem => ?_) (some n)
    exact hrest c' code' (List.mem_append_left _ hmem)

theorem eq_of_mem_failed {c : Call} {code code' : Int} {report : String}
    (h : .call c code' ∈ [Event.call (.selectBoard n) code, .ask .lastError report]) :
    c = .selectBoard n ∧ code' = code := by
  rcases List.mem_cons.mp h with heq | h
  · cases heq
    exact ⟨rfl, rfl⟩
  · simp at h

/-- **Every operation reaches its own board.**  Operations on any number of boards are carried out one
after the other, on a library that answers as it likes; `selected` is selected in the beginning.  An
operation on board `n` fails without a call or begins by selecting board `n`.  Every call of it that
goes to the selected board is made while `n` is selected.  If selecting fails, that call and the
question for its description are all there is, and the operation fails with them. -/
theorem selected_of_history (v : Vendor σ) (operations : List Operation) (s : σ)
    (selected : Option Int) (before after : List Turn) (turn : Turn) (n : Int)
    (hturn : history v operations s = before ++ turn :: after)
    (hboard : turn.operation.board? = some n) :
    ((turn.events = [] ∧ ∃ e, turn.result = .error e) ∨
      ∃ code rest, turn.events = .call (.selectBoard n) code :: rest) ∧
    (∀ front c code back, turn.events = front ++ .call c code :: back → c.isDirected = true →
      selectedAfter selected (before.flatMap Turn.events ++ front) = some n) ∧
    (∀ m code, .call (.selectBoard m) code ∈ turn.events → code ≠ 0 →
      m = n ∧ ∃ report, turn.events = [.call (.selectBoard n) code, .ask .lastError report] ∧
        turn.result = .error (.call (.select n) code report)) := by
  obtain ⟨s', hresult, hevents⟩ := exists_run_of_history hturn
  have hcases := (Operation.selectsFirst hboard).run_cases v s'
  rw [show Script.run v turn.operation.carryOut.run s' = turn.operation.run v s' from rfl, hresult,
    hevents] at hcases
  rcases hcases with ⟨hrefused, hnone⟩ | ⟨code, report, hcode, hfailed, hasked⟩ | ⟨rest, hok, hrest⟩
  · rw [hnone]
    refine ⟨.inl ⟨rfl, hrefused⟩, ?_, ?_⟩
    · intro front c code back heq
      simp at heq
    · intro m code hmem
      cases hmem
  · rw [hasked]
    refine ⟨.inr ⟨code, _, rfl⟩, ?_, ?_⟩
    · intro front c code' back heq hdirected
      have hmem : Event.call c code' ∈ front ++ .call c code' :: back :=
        List.mem_append_right front List.mem_cons_self
      rw [← heq] at hmem
      obtain ⟨rfl, -⟩ := eq_of_mem_failed hmem
      cases hdirected
    · intro m code' hmem _
      obtain ⟨hm, rfl⟩ := eq_of_mem_failed hmem
      exact ⟨Call.selectBoard.inj hm, report, rfl, hfailed⟩
  · rw [hok]
    refine ⟨.inr ⟨0, rest, rfl⟩, ?_, ?_⟩
    · intro front c code back heq hdirected
      rw [selectedAfter_append]
      exact selectedAfter_front hrest heq hdirected _
    · intro m code hmem hcode
      rcases List.mem_cons.mp hmem with heq | hmem
      · cases heq
        exact absurd rfl hcode
      · cases hrest (.selectBoard m) code hmem

/-- A library that answers calls with the given codes, and with 0 once they are used up. -/
def scripted : Vendor (List Int) where
  call _ codes := (codes.headD 0, codes.tail)
  ask _ codes := ("no such board", codes)

/-- Board 2 is selected in between, and a second attempt to select it fails. -/
theorem selected_of_history_twoBoards :
    ∃ before failed last,
      history scripted [.start ⟨1, 100⟩, .stop ⟨2, 100⟩, .status ⟨2, 100⟩, .reset ⟨1, 100⟩]
        [0, 0, 0, 0, -1] = before ++ failed :: [last] ∧
      (∃ report, failed.result = .error (.call (.select 2) (-1) report)) ∧
      last.events = [.call (.selectBoard 1) 0] ++ .call .reset 0 :: [] ∧
      selectedAfter none ((before ++ [failed]).flatMap Turn.events ++ [.call (.selectBoard 1) 0]) =
        some 1 := by
  have hstart : ∀ clock codes, Operation.run scripted (.start ⟨1, clock⟩) (0 :: 0 :: codes) =
      (.ok .finished, [.call (.selectBoard 1) 0, .call .start 0], codes) := fun _ _ => rfl
  have hstop : ∀ clock codes, Operation.run scripted (.stop ⟨2, clock⟩) (0 :: 0 :: codes) =
      (.ok .finished, [.call (.selectBoard 2) 0, .call .stop 0], codes) := fun _ _ => rfl
  have hstatus : ∀ clock codes, Operation.run scripted (.status ⟨2, clock⟩) (-1 :: codes) =
      (.error (.call (.select 2) (-1) "no such board"),
        [.call (.selectBoard 2) (-1), .ask .lastError "no such board"], codes) := fun _ _ => rfl
  have hreset : ∀ clock, Operation.run scripted (.reset ⟨1, clock⟩) [] =
      (.ok .finished, [.call (.selectBoard 1) 0, .call .reset 0], []) := fun _ => rfl
  let before : List Turn :=
    [⟨.start ⟨1, 100⟩, .ok .finished, [.call (.selectBoard 1) 0, .call .start 0]⟩,
      ⟨.stop ⟨2, 100⟩, .ok .finished, [.call (.selectBoard 2) 0, .call .stop 0]⟩]
  let failed : Turn :=
    ⟨.status ⟨2, 100⟩, .error (.call (.select 2) (-1) "no such board"),
      [.call (.selectBoard 2) (-1), .ask .lastError "no such board"]⟩
  let last : Turn := ⟨.reset ⟨1, 100⟩, .ok .finished, [.call (.selectBoard 1) 0, .call .reset 0]⟩
  have hturns : history scripted
      [.start ⟨1, 100⟩, .stop ⟨2, 100⟩, .status ⟨2, 100⟩, .reset ⟨1, 100⟩] [0, 0, 0, 0, -1] =
        before ++ failed :: [last] := by
    simp only [history, hstart, hstop, hstatus, hreset, before, failed, last, List.cons_append,
      List.nil_append]
  have hfailed := selected_of_history scripted _ _ none before [last] failed 2 hturns rfl
  have hlast := selected_of_history scripted _ _ none (before ++ [failed]) [] last 1 hturns rfl
  obtain ⟨-, report, -, hresult⟩ := hfailed.2.2 2 (-1) (by simp [failed]) (by decide)
  exact ⟨before, failed, last, hturns, ⟨report, hresult⟩, rfl,
    hlast.2.1 [.call (.selectBoard 1) 0] .reset 0 [] rfl rfl⟩

end PulseSequencer.Board
