import PulseSequencer.Proofs.Board.Session

/-!
# The first failure is the one that is reported

Operations are lists of calls whose codes are checked one by one.  The first call that fails is
the last one of the list to be made.  The library is asked about it before anything else, so the
report belongs to it; only then is a session that was open closed, and what comes of that is not
looked at.

* `Call.fails`: which codes say that a call failed.
* `Operation.tasks?`: all calls of an operation in their order, and what each is made for.
* `Reports`: how a list of calls can end.  `yields_reports_bind` puts two lists together,
  `yields_reports_writeSession` is the session that is closed after a failure.
* `reports_of_run`: every operation ends like that.
-/

namespace PulseSequencer.Board

variable {α β σ : Type}

/-! ### Calls and their codes -/

/-- Does the code say that the call failed?  What returns a number fails with a negative one, all
else with anything but 0. -/
def Call.fails : Call → Int → Bool
  | .writeWord _ _, code | .readStatus, code | .firmwareId, code | .countBoards, code => code < 0
  | _, code => code != 0

/-- A call and what it is made for. -/
structure Task where
  call : Call
  action : Action

/-- No call fails. -/
abbrev Succeed (tasks : List Task) (codes : List Int) : Prop :=
  List.Forall₂ (fun task code => task.call.fails code = false) tasks codes

/-- The events of calls that are made one after the other. -/
def made (tasks : List Task) (codes : List Int) : List Event :=
  List.zipWith (fun task code => .call task.call code) tasks codes

theorem made_append {tasks tasks' : List Task} {codes codes' : List Int} (h : Succeed tasks codes) :
    made (tasks ++ tasks') (codes ++ codes') = made tasks codes ++ made tasks' codes' :=
  List.zipWith_append h.length_eq

/-! ### How calls end -/

/-- What is done about a call that failed, after it has been looked up: if it was to write a word,
the session is closed, with whatever code. -/
def Call.ClosedBy : Call → List Event → Prop
  | .writeWord _ _, closing => ∃ code, closing = [.call .stopProgramming code]
  | _, closing => closing = []

/-- How a list of calls can end.  Either none fails, and there is a result; or the calls are cut
right after the first that fails, the library is asked for a report once, and the error has the
action and the code of that call and the report. -/
inductive Reports (tasks : List Task) : Except Error α → List Event → Prop
  | finished {codes : List Int} (a : α) (hcodes : Succeed tasks codes) :
    Reports tasks (.ok a) (made tasks codes)
  | failed {before after : List Task} {task : Task} {codes : List Int} {code : Int}
      {report : String} {closing : List Event} (htasks : tasks = before ++ task :: after)
      (hcodes : Succeed before codes) (hfails : task.call.fails code = true)
      (hclosing : task.call.ClosedBy closing) :
    Reports tasks (.error (.call task.action code report))
      (made before codes ++ .call task.call code :: .ask .lastError report :: closing)

/-- The first call of all fails. -/
theorem Reports.failed_first {task : Task} {rest : List Task} {code : Int} {closing : List Event}
    (hfails : task.call.fails code = true) (hclosing : task.call.ClosedBy closing)
    (report : String) :
    Reports (task :: rest) (.error (.call task.action code report) : Except Error α)
      (.call task.call code :: .ask .lastError report :: closing) :=
  .failed (List.nil_append _).symm .nil hfails hclosing

theorem Reports.ends {tasks more : List Task} {e : Error} {log : List Event}
    (h : Reports tasks (.error e : Except Error α) log) :
    Reports (tasks ++ more) (.error e : Except Error β) log := by
  cases h with
  | failed htasks hcodes hfails hclosing =>
    exact .failed (by rw [htasks, List.append_assoc, List.cons_append]) hcodes hfails hclosing

theorem Reports.after {tasks before : List Task} {codes : List Int} {r : Except Error α}
    {log : List Event} (h : Reports tasks r log) (hcodes : Succeed before codes) :
    Reports (before ++ tasks) r (made before codes ++ log) := by
  cases h with
  | finished a hrest =>
    rw [← made_append hcodes]
    exact .finished a (List.rel_append hcodes hrest)
  | failed htasks hrest hfails hclosing =>
    rw [← List.append_assoc, ← made_append hcodes]
    exact .failed (by rw [htasks, List.append_assoc]) (List.rel_append hcodes hrest) hfails hclosing

/-! ### Operations made of calls -/

theorem yields_reports_pure (a : α) : (pure a : Operating α).run.Yields (Reports []) :=
  .finished a .nil

/-- One list of calls after another. -/
theorem yields_reports_bind {x : Operating α} {f : α → Operating β} {tasks tasks' : List Task}
    (hx : x.run.Yields (Reports tasks)) (hf : ∀ a, (f a).run.Yields (Reports tasks')) :
    (x >>= f).run.Yields (Reports (tasks ++ tasks')) := by
  apply Operating.yields_bind hx
  · exact fun e log h => h.ends
  · intro a log h
    cases h with
    | finished _ hcodes => exact (hf a).mono fun r log' h' => h'.after hcodes

theorem yields_reports_perform {c : Call} {action : Action} {success : Success}
    (hcodes : ∀ code, success.accepts code = !c.fails code) (hclosed : c.ClosedBy []) :
    (perform c action success).run.Yields (Reports [⟨c, action⟩]) := by
  apply Operating.yields_perform
  · intro code hcode
    have hcode : Succeed [⟨c, action⟩] [code] := .cons (by simpa [hcodes] using hcode) .nil
    exact .finished code hcode
  · intro code report hcode
    have hcode : c.fails code = true := by simpa [hcodes] using hcode
    exact .failed_first hcode hclosed report

theorem accepts_zero (code : Int) : Success.zero.accepts code = !(code != 0) := by
  simp [Success.accepts, bne]

theorem accepts_nonNegative (code : Int) :
    Success.nonNegative.accepts code = !decide (code < 0) := by
  rw [Success.accepts, ← decide_not, decide_eq_decide]
  exact Int.not_lt.symm

/-- Every operation on a board selects it first. -/
def selecting (number : Int) : Task :=
  ⟨.selectBoard number, .select number⟩

theorem yields_reports_select (n : Int) : (select n).run.Yields (Reports [selecting n]) :=
  yields_reports_bind (yields_reports_perform (c := .selectBoard n) accepts_zero rfl)
    fun _ => yields_reports_pure ()

theorem yields_reports_command (h : Handle) {c : Call} {action : Action} {success : Success}
    (hcodes : ∀ code, success.accepts code = !c.fails code) (hclosed : c.ClosedBy []) :
    (h.command c action success).run.Yields (Reports [selecting h.number, ⟨c, action⟩]) :=
  yields_reports_bind (yields_reports_select h.number)
    fun _ => yields_reports_perform hcodes hclosed

/-- The calls that write words to consecutive addresses. -/
def writing (clock : Float) (address : Nat) (words : List Word) : List Task :=
  (words.zipIdx address).map fun (w, a) => ⟨.writeWord w (w.nanoseconds clock), .writeWord a⟩

/-- A session is closed after the failure of a word has been looked up, and not before. -/
theorem yields_reports_writeSession (clock : Float) (words : List Word) :
    (writeSession clock words).run.Yields (Reports (writing clock 0 words)) := by
  unfold writeSession
  generalize 0 = address
  induction words generalizing address with
  | nil => exact yields_reports_pure ()
  | cons w ws ih =>
    intro code
    show (Script.bind (Script.bind (checkCode code _ _).run _) _).Yields _
    by_cases hcode : Success.nonNegative.accepts code = true
    · rw [Operating.run_checkCode_of_accepts hcode]
      have hcode : Succeed [⟨.writeWord w (w.nanoseconds clock), .writeWord address⟩] [code] :=
        .cons (by simpa [Success.accepts, Call.fails] using hcode) .nil
      exact (ih (address + 1)).mono fun r log h => h.after hcode
    · have hcode := Bool.eq_false_iff.mpr hcode
      rw [Operating.run_checkCode_of_not_accepts hcode]
      have hcode : (Call.writeWord w (w.nanoseconds clock)).fails code = true := by
        simpa [Success.accepts, Call.fails] using hcode
      intro report closing
      have hclosing : (Call.writeWord w (w.nanoseconds clock)).ClosedBy
          [.call .stopProgramming closing] := ⟨closing, rfl⟩
      exact .failed_first hcode hclosing report

theorem yields_reports_openBoard (n : Int) {clock : Float} (h : Binary64.isPositive clock = true) :
    (openBoard n clock).run.Yields (Reports [selecting n, ⟨.init, .init n⟩]) := by
  have hclock : checkClock clock = .ok () := by
    unfold checkClock
    rw [if_pos h]
  unfold openBoard
  rw [hclock]
  apply yields_reports_bind (yields_reports_select n)
  intro _
  exact yields_reports_bind (yields_reports_perform (c := .init) accepts_zero rfl)
    fun _ => yields_reports_pure _

/-- The calls that write a program. -/
def Handle.programming (h : Handle) (words : List Word) : List Task :=
  [selecting h.number, ⟨.reset, .reset⟩, ⟨.coreClock h.clock, .setClock h.clock⟩,
    ⟨.startProgramming pulseProgram, .beginProgram⟩] ++
    writing h.clock 0 words ++ [⟨.stopProgramming, .endProgram⟩]

theorem yields_reports_program (h : Handle) {q : Sequence} {words : List Word}
    (hwords : wordsOf q h.clock = .ok words) :
    (h.program q).run.Yields (Reports (h.programming words)) := by
  unfold Handle.program Handle.programming
  rw [hwords, List.append_assoc]
  apply yields_reports_bind (yields_reports_command h (c := .reset) accepts_zero rfl)
  intro _
  apply yields_reports_bind
    (yields_reports_perform (c := .coreClock h.clock) accepts_zero rfl)
  intro _
  apply yields_reports_bind
    (yields_reports_perform (c := .startProgramming pulseProgram) accepts_zero rfl)
  intro _
  apply yields_reports_bind (yields_reports_writeSession h.clock words)
  intro _
  exact yields_reports_bind (yields_reports_perform (c := .stopProgramming) accepts_zero rfl)
    fun _ => yields_reports_pure _

/-! ### All operations -/

/-- All calls of an operation, in their order, if it consists of calls whose codes are checked.
Nothing is said about operations that are refused before a call is made, for their clock or a word
of their program. -/
def Operation.tasks? : Operation → Option (List Task)
  | openBoard n clock =>
    if Binary64.isPositive clock then some [selecting n, ⟨.init, .init n⟩] else none
  | program h q => (wordsOf q h.clock).toOption.map h.programming
  | start h => some [selecting h.number, ⟨.start, .start⟩]
  | stop h => some [selecting h.number, ⟨.stop, .stop⟩]
  | reset h => some [selecting h.number, ⟨.reset, .reset⟩]
  | status h => some [selecting h.number, ⟨.readStatus, .readStatus⟩]
  | firmwareId h => some [selecting h.number, ⟨.firmwareId, .readFirmware⟩]
  | countBoards => some [⟨.countBoards, .countBoards⟩]
  | release _ | version | lastError => none

/-- A result that is passed on in another form. -/
theorem yields_reports_map {x : Operating α} {tasks : List Task} (hx : x.run.Yields (Reports tasks))
    (f : α → β) : (x >>= fun a => pure (f a)).run.Yields (Reports tasks) := by
  simpa using yields_reports_bind hx fun a => yields_reports_pure (f a)

theorem Operation.yields_reports {o : Operation} {tasks : List Task} (ho : o.tasks? = some tasks) :
    o.carryOut.run.Yields (Reports tasks) := by
  cases o with
  | openBoard n clock =>
    obtain ⟨hclock, htasks⟩ := Option.ite_none_right_eq_some.mp ho
    cases htasks
    exact yields_reports_map (yields_reports_openBoard n hclock) _
  | program h q =>
    obtain ⟨words, hwords, rfl⟩ := Option.map_eq_some_iff.mp ho
    exact yields_reports_map (yields_reports_program h (toOption_eq_some_iff.mp hwords)) _
  | start h =>
    cases ho
    exact yields_reports_map
      (yields_reports_map (yields_reports_command h (c := .start) accepts_zero rfl) _) _
  | stop h =>
    cases ho
    exact yields_reports_map
      (yields_reports_map (yields_reports_command h (c := .stop) accepts_zero rfl) _) _
  | reset h =>
    cases ho
    exact yields_reports_map
      (yields_reports_map (yields_reports_command h (c := .reset) accepts_zero rfl) _) _
  | status h =>
    cases ho
    exact yields_reports_map
      (yields_reports_map (yields_reports_command h (c := .readStatus) accepts_nonNegative rfl) _) _
  | firmwareId h =>
    cases ho
    exact yields_reports_map (yields_reports_command h (c := .firmwareId) accepts_nonNegative rfl) _
  | countBoards =>
    cases ho
    exact yields_reports_map
      (yields_reports_map (yields_reports_perform (c := .countBoards) accepts_nonNegative rfl) _) _
  | release h | version | lastError => cases ho

/-- **The first failure is the one that is reported.**  An operation that is none but checked
calls is carried out on a library that answers as it likes.  The calls that are made are all calls
of the operation, or they are cut right after the first one that fails.  In the first case the
operation succeeds and asks for no report.  In the second there is one question for the report,
and then, exactly if a word was to be written, one more call that closes the session; and the
error has the action and the code of the first call that failed, and the report that was given
before anything was closed. -/
theorem reports_of_run {o : Operation} {tasks : List Task} (h : o.tasks? = some tasks)
    (v : Vendor σ) (s : σ) : Reports tasks (o.run v s).1 (o.run v s).2.1 :=
  (Operation.yields_reports h).run v s

/-- A library that answers calls with the given codes, and describes the last one that was not 0. -/
def describing : Vendor (List Int × String) where
  call _ s :=
    let code := s.1.headD 0
    (code, s.1.tail, if code < 0 then "refused" else if 0 < code then "busy" else s.2)
  ask _ s := (s.2, s)

/-- The second word is refused.  Closing the session fails too, for another reason. -/
def refusedEvents : List Event :=
  [.call (.selectBoard 0) 0, .call .reset 0, .call (.coreClock 100) 0,
    .call (.startProgramming 0) 0] ++ writtenBy 100 blinkWords [0, -7] ++
    [.ask .lastError "refused", .call .stopProgramming 3]

-- the library is left with the other reason, which nobody asks for
theorem reports_of_run_refused :
    (Operation.program ⟨0, 100⟩ blink).run describing ([0, 0, 0, 0, 0, -7, 3], "no error") =
        (.error (.call (.writeWord 1) (-7) "refused"), refusedEvents, ([], "busy")) ∧
      Reports (Handle.programming ⟨0, 100⟩ blinkWords)
        (.error (.call (.writeWord 1) (-7) "refused") : Except Error Reply) refusedEvents := by
  have hrun : (Operation.program ⟨0, 100⟩ blink).run describing
      ([0, 0, 0, 0, 0, -7, 3], "no error") =
        (.error (.call (.writeWord 1) (-7) "refused"), refusedEvents, ([], "busy")) := by
    rfl
  have htasks : (Operation.program ⟨0, 100⟩ blink).tasks? =
      some (Handle.programming ⟨0, 100⟩ blinkWords) := rfl
  have hreports := reports_of_run htasks describing ([0, 0, 0, 0, 0, -7, 3], "no error")
  rw [hrun] at hreports
  exact ⟨hrun, hreports⟩

end PulseSequencer.Board
