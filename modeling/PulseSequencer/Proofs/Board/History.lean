import PulseSequencer.Board.Operation

/-!
# Which calls a conversation can make, and histories of conversations

* `Script.CallsOnly`: every call of a script is of a given kind, whatever codes come back.  The lemmas
  after it follow the ways scripts are put together; `CallsOnly.of_mem_events` carries it over to the
  log of a run.
* `Script.Yields`: the result and the log of a script satisfy a condition, whatever comes back.  There
  is one rule for each way of putting operations together, and `Yields.run` carries the condition over
  to runs.
* `history`: operations that are carried out one after the other, on the same vendor library.  Each has
  the library to itself while it lasts, so this is every way in which the users of any number of
  handles can get in between each other.  `yields_of_history` carries what an operation yields over to
  its turns.
-/

namespace PulseSequencer.Board

variable {α β σ : Type} {P : Call → Prop}

/-! ### Kinds of calls -/

/-- Every call is of the given kind, whatever the answers to those before. -/
def Script.CallsOnly (P : Call → Prop) : Script α → Prop
  | done _ => True
  | call c next => P c ∧ ∀ code, (next code).CallsOnly P
  | ask _ next => ∀ text, (next text).CallsOnly P

theorem Script.CallsOnly.bind {x : Script α} {f : α → Script β} (hx : x.CallsOnly P)
    (hf : ∀ a, (f a).CallsOnly P) : (x.bind f).CallsOnly P := by
  induction x with
  | done a => exact hf a
  | call c next ih => exact ⟨hx.1, fun code => ih code (hx.2 code)⟩
  | ask q next ih => exact fun text => ih text (hx text)

/-- The log of a run holds calls of the given kind only. -/
theorem Script.CallsOnly.of_mem_events {x : Script α} (h : x.CallsOnly P) (v : Vendor σ) (s : σ)
    {c : Call} {code : Int} (hmem : .call c code ∈ (Script.run v x s).2.1) : P c := by
  induction x generalizing s with
  | done a => cases hmem
  | call c' next ih =>
    rw [Script.run_call] at hmem
    rcases List.mem_cons.mp hmem with heq | hmem
    · cases heq
      exact h.1
    · exact ih _ (h.2 _) _ hmem
  | ask q next ih =>
    rw [Script.run_ask] at hmem
    rcases List.mem_cons.mp hmem with heq | hmem
    · cases heq
    · exact ih _ (h _) _ hmem

namespace Operating

theorem callsOnly_bind {x : Operating α} {f : α → Operating β} (hx : x.run.CallsOnly P)
    (hf : ∀ a, (f a).run.CallsOnly P) : (x >>= f).run.CallsOnly P := by
  refine Script.CallsOnly.bind hx ?_
  rintro (e | a)
  · trivial
  · exact hf a

theorem callsOnly_tryCatch {x : Operating α} {handle : Error → Operating α} (hx : x.run.CallsOnly P)
    (hf : ∀ e, (handle e).run.CallsOnly P) : (tryCatch x handle).run.CallsOnly P := by
  refine Script.CallsOnly.bind hx ?_
  rintro (e | a)
  · exact hf e
  · trivial

theorem callsOnly_issue {c : Call} (hc : P c) : (issue c).run.CallsOnly P :=
  ⟨hc, fun _ => trivial⟩

theorem run_perform (c : Call) (action : Action) (success : Success) :
    (perform c action success).run = .call c fun code => (checkCode code action success).run := rfl

theorem run_checkCode_of_accepts {code : Int} {success : Success} (h : success.accepts code = true)
    (action : Action) : (checkCode code action success).run = .done (.ok code) := by
  unfold checkCode
  rw [if_pos h]
  rfl

theorem run_checkCode_of_not_accepts {code : Int} {success : Success}
    (h : success.accepts code = false) (action : Action) :
    (checkCode code action success).run =
      .ask .lastError fun report => .done (.error (.call action code report)) := by
  unfold checkCode
  rw [if_neg (by simp [h])]
  rfl

theorem callsOnly_checkCode (code : Int) (action : Action) (success : Success) :
    (checkCode code action success).run.CallsOnly P := by
  by_cases h : success.accepts code = true
  · rw [run_checkCode_of_accepts h]
    trivial
  · rw [run_checkCode_of_not_accepts (Bool.eq_false_iff.mpr h)]
    exact fun _ => trivial

theorem callsOnly_perform {c : Call} (hc : P c) (action : Action) (success : Success) :
    (perform c action success).run.CallsOnly P :=
  ⟨hc, fun code => callsOnly_checkCode code action success⟩

theorem callsOnly_writeWords (clock : Float) (h : ∀ w t, P (.writeWord w t)) (address : Nat)
    (words : List Word) : (writeWords clock address words).run.CallsOnly P := by
  induction words generalizing address with
  | nil => trivial
  | cons w ws ih =>
    exact callsOnly_bind (callsOnly_perform (h w _) _ _) fun _ => ih (address + 1)

theorem callsOnly_writeSession (clock : Float) (hwrite : ∀ w t, P (.writeWord w t))
    (hstop : P .stopProgramming) (words : List Word) : (writeSession clock words).run.CallsOnly P := by
  refine callsOnly_tryCatch (callsOnly_writeWords clock hwrite 0 words) fun e => ?_
  exact callsOnly_bind (callsOnly_issue hstop) fun _ => trivial

end Operating

/-! ### Results and logs -/

/-- The result and the events satisfy a condition, whatever the answers. -/
def Script.Yields : Script α → (α → List Event → Prop) → Prop
  | done a, Q => Q a []
  | call c next, Q => ∀ code, (next code).Yields fun a log => Q a (.call c code :: log)
  | ask q next, Q => ∀ text, (next text).Yields fun a log => Q a (.ask q text :: log)

theorem Script.Yields.run {x : Script α} {Q : α → List Event → Prop} (h : x.Yields Q) (v : Vendor σ)
    (s : σ) : Q (Script.run v x s).1 (Script.run v x s).2.1 := by
  induction x generalizing Q s with
  | done a => exact h
  | call c next ih =>
    rw [Script.run_call]
    exact ih _ (h _) _
  | ask q next ih =>
    rw [Script.run_ask]
    exact ih _ (h _) _

theorem Script.Yields.mono {x : Script α} {Q R : α → List Event → Prop} (h : x.Yields Q)
    (hQR : ∀ a log, Q a log → R a log) : x.Yields R := by
  induction x generalizing Q R with
  | done a => exact hQR a [] h
  | call c next ih => exact fun code => ih code (h code) fun a log => hQR a _
  | ask q next ih => exact fun text => ih text (h text) fun a log => hQR a _

theorem Script.yields_bind {x : Script α} {f : α → Script β} {Q : β → List Event → Prop} :
    (x.bind f).Yields Q ↔ x.Yields fun a log => (f a).Yields fun b log' => Q b (log ++ log') := by
  induction x generalizing Q with
  | done a => rfl
  | call c next ih => exact forall_congr' fun code => ih code
  | ask q next ih => exact forall_congr' fun text => ih text

namespace Operating

/-- An operation after another one: a failure of the first is the end of both. -/
theorem yields_bind {x : Operating α} {f : α → Operating β}
    {Q : Except Error α → List Event → Prop} {R : Except Error β → List Event → Prop}
    (hx : x.run.Yields Q) (hfail : ∀ e log, Q (.error e) log → R (.error e) log)
    (hnext : ∀ a log, Q (.ok a) log → (f a).run.Yields fun r log' => R r (log ++ log')) :
    (x >>= f).run.Yields R := by
  refine Script.yields_bind.mpr (hx.mono ?_)
  rintro (e | a) log h
  · show R (.error e) (log ++ [])
    rw [List.append_nil]
    exact hfail e log h
  · exact hnext a log h

/-- An operation whose failure is handled. -/
theorem yields_tryCatch {x : Operating α} {handle : Error → Operating α}
    {Q R : Except Error α → List Event → Prop} (hx : x.run.Yields Q)
    (hok : ∀ a log, Q (.ok a) log → R (.ok a) log)
    (hhandle : ∀ e log, Q (.error e) log →
      (handle e).run.Yields fun r log' => R r (log ++ log')) :
    (tryCatch x handle).run.Yields R := by
  refine Script.yields_bind.mpr (hx.mono ?_)
  rintro (e | a) log h
  · exact hhandle e log h
  · show R (.ok a) (log ++ [])
    rw [List.append_nil]
    exact hok a log h

theorem yields_perform {c : Call} {action : Action} {success : Success}
    {Q : Except Error Int → List Event → Prop}
    (hok : ∀ code, success.accepts code = true → Q (.ok code) [.call c code])
    (hfail : ∀ code report, success.accepts code = false →
      Q (.error (.call action code report)) [.call c code, .ask .lastError report]) :
    (perform c action success).run.Yields Q := by
  intro code
  show (checkCode code action success).run.Yields _
  by_cases h : success.accepts code = true
  · rw [run_checkCode_of_accepts h]
    exact hok code h
  · have hrefused := Bool.eq_false_iff.mpr h
    rw [run_checkCode_of_not_accepts hrefused]
    exact fun report => hfail code report hrefused

end Operating

/-! ### Histories -/

/-- An operation that was carried out. -/
structure Turn where
  operation : Operation
  result : Except Error Reply
  events : List Event

/-- Carries operations out one after the other. -/
def history (v : Vendor σ) : List Operation → σ → List Turn
  | [], _ => []
  | o :: rest, s =>
    let (result, events, s) := o.run v s
    ⟨o, result, events⟩ :: history v rest s

/-- Every turn of a history is a run of its operation, from some state of the library on. -/
theorem exists_run_of_history {v : Vendor σ} {operations : List Operation} {s : σ}
    {before after : List Turn} {turn : Turn}
    (h : history v operations s = before ++ turn :: after) :
    ∃ s', (turn.operation.run v s').1 = turn.result ∧ (turn.operation.run v s').2.1 = turn.events := by
  induction before generalizing operations s with
  | nil =>
    cases operations with
    | nil => cases h
    | cons o rest =>
      obtain ⟨rfl, -⟩ := List.cons_eq_cons.mp h
      exact ⟨s, rfl, rfl⟩
  | cons first before ih =>
    cases operations with
    | nil => cases h
    | cons o rest => exact ih (List.cons_eq_cons.mp h).2

/-- What an operation yields, whatever the answers, holds of its turns. -/
theorem yields_of_history {v : Vendor σ} {operations : List Operation} {s : σ} {turn : Turn}
    (hturn : turn ∈ history v operations s) {Q : Except Error Reply → List Event → Prop}
    (h : turn.operation.carryOut.run.Yields Q) : Q turn.result turn.events := by
  obtain ⟨before, after, hsplit⟩ := List.append_of_mem hturn
  obtain ⟨s', hresult, hevents⟩ := exists_run_of_history hsplit
  rw [← hresult, ← hevents]
  exact h.run v s'

end PulseSequencer.Board
