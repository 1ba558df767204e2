import PulseSequencer.Proofs.Board.Selection
import PulseSequencer.Proofs.Stages

/-!
# Programming sessions

A call that starts programming and returns 0 opens a session.  In it, words are written, and at most the
last failure is asked for; it ends with the call that stops programming.

* `writtenBy`: the events of words that are written, one after the other.
* `yields_writeSession`: a session that fails has been closed already, one that succeeds has not yet.
* `yields_program`: writing a program opens no session, or opens one and closes it.
* `sessions_of_history`: so it is in every history, and no other operation has to do with sessions.
-/

namespace PulseSequencer.Board

variable {α σ : Type}

/-! ### Events inside and outside of sessions -/

/-- Is the event one that a session may hold: a word written, or the question for the last failure? -/
def Event.isUpload : Event → Bool
  | .call (.writeWord _ _) _ => true
  | .ask .lastError _ => true
  | _ => false

/-- Has the event nothing to do with a session: it opens none, writes no word and closes none? -/
def Event.isOutside : Event → Bool
  | .call (.startProgramming _) code => code != 0
  | .call (.writeWord _ _) _ => false
  | .call .stopProgramming _ => false
  | _ => true

/-- Is the call one of those that programming is done with? -/
def Call.programs : Call → Bool
  | .startProgramming _ | .writeWord _ _ | .stopProgramming => true
  | _ => false

/-- The events are one session, opened, filled with `inner` and closed, and nothing of a session is
before or after it. -/
def HoldsSession (events inner : List Event) : Prop :=
  ∃ opening target code closing,
    events = opening ++ .call (.startProgramming target) 0 ::
      (inner ++ .call .stopProgramming code :: closing) ∧
    (∀ e ∈ opening, e.isOutside = true) ∧ (∀ e ∈ inner, e.isUpload = true) ∧
    ∀ e ∈ closing, e.isOutside = true

/-- The events of words that are written one after the other, with the codes that came back. -/
def writtenBy (clock : Float) (words : List Word) (codes : List Int) : List Event :=
  (words.zip codes).map fun (w, code) => .call (.writeWord w (w.nanoseconds clock)) code

theorem isUpload_of_mem_writtenBy {clock : Float} {words : List Word} {codes : List Int} {e : Event}
    (h : e ∈ writtenBy clock words codes) : e.isUpload = true := by
  obtain ⟨⟨w, code⟩, -, rfl⟩ := List.mem_map.mp h
  rfl

theorem isOutside_of_not_programs {c : Call} (h : c.programs = false) (code : Int) :
    (Event.call c code).isOutside = true := by
  cases c <;> simp_all [Call.programs, Event.isOutside]

/-! ### Operations that do not program -/

/-- No call for programming is made. -/
abbrev Script.KeepsOff (x : Script α) : Prop :=
  x.CallsOnly fun c => c.programs = false

/-- Without calls for programming a script stays outside of sessions. -/
theorem Script.KeepsOff.yields {x : Script α} (h : x.KeepsOff) :
    x.Yields fun _ log => ∀ e ∈ log, e.isOutside = true := by
  induction x with
  | done a => exact fun e he => absurd he List.not_mem_nil
  | call c next ih =>
    intro code
    refine (ih code (h.2 code)).mono fun a log hlog e he => ?_
    rcases List.mem_cons.mp he with rfl | he
    · exact isOutside_of_not_programs h.1 code
    · exact hlog e he
  | ask q next ih =>
    intro text
    refine (ih text (h text)).mono fun a log hlog e he => ?_
    rcases List.mem_cons.mp he with rfl | he
    · rfl
    · exact hlog e he

theorem keepsOff_perform {c : Call} (hc : c.programs = false) (action : Action) (success : Success) :
    (perform c action success).run.KeepsOff :=
  Operating.callsOnly_perform hc action success

theorem keepsOff_issue {c : Call} (hc : c.programs = false) : (issue c).run.KeepsOff :=
  Operating.callsOnly_issue hc

theorem keepsOff_select (n : Int) : (select n).run.KeepsOff :=
  Operating.callsOnly_bind (keepsOff_perform rfl _ _) fun _ => trivial

theorem keepsOff_command (h : Handle) {c : Call} (hc : c.programs = false) (action : Action)
    (success : Success) : (h.command c action success).run.KeepsOff :=
  Operating.callsOnly_bind (keepsOff_select h.number) fun _ => keepsOff_perform hc action success

theorem keepsOff_openBoard (n : Int) (clock : Float) : (openBoard n clock).run.KeepsOff := by
  unfold openBoard
  cases checkClock clock with
  | error e => trivial
  | ok u =>
    apply Operating.callsOnly_bind (keepsOff_select n)
    intro _
    exact Operating.callsOnly_bind (keepsOff_perform rfl _ _) fun _ => trivial

theorem keepsOff_release (h : Handle) : h.release.run.KeepsOff := by
  apply Operating.callsOnly_bind (keepsOff_issue rfl)
  intro _
  apply Operating.callsOnly_bind (keepsOff_issue rfl)
  intro _
  exact Operating.callsOnly_bind (keepsOff_issue rfl) fun _ => trivial

theorem Operation.keepsOff {o : Operation} (ho : ∀ h q, o ≠ .program h q) :
    o.carryOut.run.KeepsOff := by
  cases o with
  | openBoard n clock => exact Operating.callsOnly_bind (keepsOff_openBoard n clock) fun _ => trivial
  | program h q => exact absurd rfl (ho h q)
  | start h | stop h | reset h =>
    refine Operating.callsOnly_bind ?_ fun _ => trivial
    exact Operating.callsOnly_bind (keepsOff_command h rfl _ _) fun _ => trivial
  | status h =>
    refine Operating.callsOnly_bind ?_ fun _ => trivial
    exact Operating.callsOnly_bind (keepsOff_command h rfl _ _) fun _ => trivial
  | firmwareId h => exact Operating.callsOnly_bind (keepsOff_command h rfl _ _) fun _ => trivial
  | release h => exact Operating.callsOnly_bind (keepsOff_release h) fun _ => trivial
  | countBoards =>
    refine Operating.callsOnly_bind ?_ fun _ => trivial
    exact Operating.callsOnly_bind (keepsOff_perform rfl _ _) fun _ => trivial
  | version | lastError => exact fun _ => trivial

/-! ### Writing words -/

theorem yields_writeWords (clock : Float) (address : Nat) (words : List Word) :
    (writeWords clock address words).run.Yields fun r log =>
      (∀ e ∈ log, e.isUpload = true) ∧
        (r = .ok () → ∃ codes, codes.length = words.length ∧ log = writtenBy clock words codes) := by
  induction words generalizing address with
  | nil => exact ⟨by simp, fun _ => ⟨[], rfl, rfl⟩⟩
  | cons w ws ih =>
    -- a word that is refused ends the writing; its failure is asked for, and that is an upload too
    apply Operating.yields_bind (Q := fun r log => (∀ e ∈ log, e.isUpload = true) ∧
      (∀ code, r = .ok code → log = [.call (.writeWord w (w.nanoseconds clock)) code]))
    · apply Operating.yields_perform
      · intro code _
        simp [Event.isUpload]
      · intro code report _
        simp [Event.isUpload]
    · intro e log h
      exact ⟨h.1, by simp⟩
    · intro code log h
      refine (ih (address + 1)).mono fun r log' h' => ⟨?_, ?_⟩
      · intro e he
        rcases List.mem_append.mp he with he | he
        · exact h.1 e he
        · exact h'.1 e he
      · intro hr
        obtain ⟨codes, hlength, rfl⟩ := h'.2 hr
        refine ⟨code :: codes, by simp [hlength], ?_⟩
        rw [h.2 code rfl]
        rfl

/-- A session that fails has been closed; one that succeeds is still open, and all words are written. -/
theorem yields_writeSession (clock : Float) (words : List Word) :
    (writeSession clock words).run.Yields fun r log =>
      (∀ e, r = .error e → ∃ inner code, log = inner ++ [.call .stopProgramming code] ∧
        ∀ e ∈ inner, e.isUpload = true) ∧
      (r = .ok () → ∃ codes, codes.length = words.length ∧ log = writtenBy clock words codes) := by
  apply Operating.yields_tryCatch (yields_writeWords clock 0 words)
  · intro _ log h
    exact ⟨by simp, h.2⟩
  · intro e log h code
    exact ⟨fun _ _ => ⟨log, code, rfl, h.1⟩, by simp⟩

/-! ### Writing a program -/

/-- How writing words can end: without a session and with an error, or with one session; and if it
succeeds, all words are written in it, in their order. -/
def Uploads (clock : Float) (words : List Word) (r : Except Error Nat) (log : List Event) : Prop :=
  ((∀ e ∈ log, e.isOutside = true) ∨ ∃ inner, HoldsSession log inner) ∧
  ∀ n, r = .ok n → n = words.length ∧ ∃ opening codes, codes.length = words.length ∧
    (∀ e ∈ opening, e.isOutside = true) ∧
    log = opening ++ .call (.startProgramming pulseProgram) 0 ::
      (writtenBy clock words codes ++ [.call .stopProgramming 0])

theorem uploads_of_outside {clock : Float} {words : List Word} {log : List Event}
    (h : ∀ e ∈ log, e.isOutside = true) (e : Error) : Uploads clock words (.error e) log :=
  ⟨.inl h, by simp⟩

theorem Uploads.prepend {clock : Float} {words : List Word} {r : Except Error Nat}
    {log log' : List Event} (hlog : ∀ e ∈ log, e.isOutside = true) (h : Uploads clock words r log') :
    Uploads clock words r (log ++ log') := by
  have hfront : ∀ opening, (∀ e ∈ opening, e.isOutside = true) →
      ∀ e ∈ log ++ opening, e.isOutside = true := by
    intro opening hopening e he
    rcases List.mem_append.mp he with he | he
    · exact hlog e he
    · exact hopening e he
  refine ⟨?_, ?_⟩
  · rcases h.1 with houtside | ⟨inner, opening, target, code, closing, rfl, hopening, hinner, hclosing⟩
    · exact .inl (hfront log' houtside)
    · exact .inr ⟨inner, log ++ opening, target, code, closing, by simp, hfront opening hopening,
        hinner, hclosing⟩
  · intro n hn
    obtain ⟨hlength, opening, codes, hcodes, hopening, rfl⟩ := h.2 n hn
    exact ⟨hlength, log ++ opening, codes, hcodes, hfront opening hopening, by simp⟩

/-- From the call that starts programming on. -/
theorem yields_upload (clock : Float) (words : List Word) :
    (do
      let _ ← perform (.startProgramming pulseProgram) .beginProgram
      writeSession clock words
      let _ ← perform .stopProgramming .endProgram
      return words.length : Operating Nat).run.Yields (Uploads clock words) := by
  apply Operating.yields_bind (Q := fun r log =>
    (∀ e, r = .error e → ∀ e ∈ log, e.isOutside = true) ∧
    (∀ code, r = .ok code → log = [.call (.startProgramming pulseProgram) 0]))
  · apply Operating.yields_perform
    · intro code hcode
      have h0 : code = 0 := by simpa [Success.accepts] using hcode
      simp [h0]
    · intro code report hcode
      have h0 : code ≠ 0 := by simpa [Success.accepts] using hcode
      simp [Event.isOutside, h0]
  · intro e log h
    exact uploads_of_outside (h.1 e rfl) e
  · intro code log h
    obtain rfl := h.2 code rfl
    apply Operating.yields_bind (yields_writeSession clock words)
    · intro e log h
      obtain ⟨inner, code, rfl, hinner⟩ := h.1 e rfl
      exact ⟨.inr ⟨inner, [], pulseProgram, code, [], rfl, by simp, hinner, by simp⟩, by simp⟩
    · intro _ log h
      obtain ⟨codes, hcodes, rfl⟩ := h.2 rfl
      have hinner : ∀ e ∈ writtenBy clock words codes, e.isUpload = true :=
        fun e he => isUpload_of_mem_writtenBy he
      apply Operating.yields_bind (Q := fun r log => ∃ code closing,
        log = .call .stopProgramming code :: closing ∧ (∀ e ∈ closing, e.isOutside = true) ∧
        (∀ n, r = .ok n → code = 0 ∧ closing = []))
      · apply Operating.yields_perform
        · intro code hcode
          have h0 : code = 0 := by simpa [Success.accepts] using hcode
          exact ⟨code, [], rfl, by simp, fun _ _ => ⟨h0, rfl⟩⟩
        · intro code report _
          exact ⟨code, [.ask .lastError report], rfl, by simp [Event.isOutside], by simp⟩
      · rintro e log ⟨code, closing, rfl, hclosing, -⟩
        exact ⟨.inr ⟨_, [], pulseProgram, code, closing, rfl, by simp, hinner, hclosing⟩, by simp⟩
      · rintro n log ⟨code, closing, rfl, hclosing, hok⟩
        obtain ⟨rfl, rfl⟩ := hok n rfl
        refine ⟨.inr ⟨_, [], pulseProgram, 0, [], rfl, by simp, hinner, by simp⟩, ?_⟩
        intro m hm
        refine ⟨(Except.ok.inj hm).symm, [], codes, hcodes, by simp, ?_⟩
        simp

theorem yields_program (h : Handle) (q : Sequence) :
    (h.program q).run.Yields fun r log =>
      (∀ e, wordsOf q h.clock = .error e → r = .error e ∧ log = []) ∧
      ∀ words, wordsOf q h.clock = .ok words → Uploads h.clock words r log := by
  unfold Handle.program
  cases wordsOf q h.clock with
  | error e =>
    refine ⟨fun e' he => ⟨?_, rfl⟩, by simp⟩
    exact congrArg Except.error (Except.error.inj he)
  | ok words =>
    have hupload : (do
        let _ ← h.command .reset .reset
        let _ ← perform (.coreClock h.clock) (.setClock h.clock)
        let _ ← perform (.startProgramming pulseProgram) .beginProgram
        writeSession h.clock words
        let _ ← perform .stopProgramming .endProgram
        return words.length : Operating Nat).run.Yields (Uploads h.clock words) := by
      apply Operating.yields_bind (keepsOff_command h rfl _ _).yields
      · intro e log hlog
        exact uploads_of_outside hlog e
      · intro _ log hlog
        apply Operating.yields_bind (keepsOff_perform rfl _ _).yields
        · intro e log' hlog'
          exact (uploads_of_outside hlog' e).prepend hlog
        · intro _ log' hlog'
          refine (yields_upload h.clock words).mono fun r log'' hr => ?_
          exact (hr.prepend hlog').prepend hlog
    refine Script.Yields.mono (show Script.Yields _ (Uploads h.clock words) from hupload) ?_
    intro r log hr
    refine ⟨by simp, fun words' heq => ?_⟩
    rw [← Except.ok.inj heq]
    exact hr

/-! ### Histories -/

theorem length_of_wordsOf {q : Sequence} {clock : Float} {words : List Word}
    (h : wordsOf q clock = .ok words) : words.length = q.program.size := by
  obtain ⟨-, -, h⟩ := bind_eq_ok_iff.mp h
  have hlength := (forall₂_of_mapM h).length_eq
  simpa using hlength.symm

theorem yields_carryOut_program (h : Handle) (q : Sequence) :
    (Operation.program h q).carryOut.run.Yields fun r log =>
      (∀ e, wordsOf q h.clock = .error e → r = .error e ∧ log = []) ∧
      ∀ words, wordsOf q h.clock = .ok words →
        ∃ r', Uploads h.clock words r' log ∧ r = r'.map fun n => .number n := by
  apply Operating.yields_bind (yields_program h q)
  · intro e log hlog
    refine ⟨fun e' he => ⟨?_, (hlog.1 e' he).2⟩, fun words hwords => ?_⟩
    · exact congrArg Except.error (Except.error.inj (hlog.1 e' he).1)
    · exact ⟨.error e, hlog.2 words hwords, rfl⟩
  · intro n log hlog
    show _ ∧ _
    rw [List.append_nil]
    refine ⟨fun e he => absurd (hlog.1 e he).1 (by simp), fun words hwords => ?_⟩
    exact ⟨.ok n, hlog.2 words hwords, rfl⟩

/-- **Every session is closed.**  Operations on any number of boards are carried out one after the other,
on a library that answers as it likes.  An operation stays outside of sessions, or it writes a program
and holds one session: after the call that opened it come words and questions for the last failure, then
the one call that closes it, and nothing of a session is before or after.

A program that has no form on the board is refused without a call.  If writing a program succeeds, as
many words were written as the program has, and they are the words of the program in their order. -/
theorem sessions_of_history (v : Vendor σ) (operations : List Operation) (s : σ) (turn : Turn)
    (hturn : turn ∈ history v operations s) :
    ((∀ e ∈ turn.events, e.isOutside = true) ∨
      ∃ h q inner, turn.operation = .program h q ∧ HoldsSession turn.events inner) ∧
    ∀ h q, turn.operation = .program h q →
      (∀ e, wordsOf q h.clock = .error e → turn.result = .error e ∧ turn.events = []) ∧
      ∀ reply, turn.result = .ok reply → reply = .number q.program.size ∧
        ∃ words opening codes, wordsOf q h.clock = .ok words ∧
          words.length = q.program.size ∧ codes.length = q.program.size ∧
          (∀ e ∈ opening, e.isOutside = true) ∧
          turn.events = opening ++ .call (.startProgramming pulseProgram) 0 ::
            (writtenBy h.clock words codes ++ [.call .stopProgramming 0]) := by
  by_cases hprogram : ∃ h q, turn.operation = .program h q
  · obtain ⟨h, q, hop⟩ := hprogram
    obtain ⟨hrefused, hwritten⟩ := yields_of_history hturn (hop ▸ yields_carryOut_program h q)
    refine ⟨?_, ?_⟩
    · cases hwords : wordsOf q h.clock with
      | error e =>
        rw [(hrefused e hwords).2]
        exact .inl (by simp)
      | ok words =>
        obtain ⟨r, hr, -⟩ := hwritten words hwords
        rcases hr.1 with houtside | ⟨inner, hsession⟩
        · exact .inl houtside
        · exact .inr ⟨h, q, inner, hop, hsession⟩
    · intro h' q' hop'
      obtain ⟨rfl, rfl⟩ := Operation.program.inj (hop.symm.trans hop')
      refine ⟨hrefused, fun reply hreply => ?_⟩
      cases hwords : wordsOf q h.clock with
      | error e =>
        rw [(hrefused e hwords).1] at hreply
        cases hreply
      | ok words =>
        obtain ⟨r, hr, hmap⟩ := hwritten words hwords
        have hlength := length_of_wordsOf hwords
        obtain ⟨n, hn, rfl⟩ := map_eq_ok_iff.mp (hmap.symm.trans hreply)
        obtain ⟨rfl, opening, codes, hcodes, hopening, hlog⟩ := hr.2 n hn
        refine ⟨?_, words, opening, codes, rfl, hlength, hcodes.trans hlength, hopening, hlog⟩
        rw [hlength]
  · refine ⟨.inl ?_, fun h q hop => absurd ⟨h, q, hop⟩ hprogram⟩
    have hoff : turn.operation.carryOut.run.KeepsOff :=
      Operation.keepsOff fun h q hop => hprogram ⟨h, q, hop⟩
    exact yields_of_history hturn hoff.yields

/-- Two words: channel 0 is on for 100 ns and off for 50 ns, over and over. -/
def blink : Sequence where
  program := #[.cont 1 100, .branch 0 50 0]
  channels := 24
  timeline := ⟨[⟨0, 100, 1⟩, ⟨1, 50, 0⟩], some 0⟩

def blinkWords : List Word :=
  [⟨1, .cont, 0, 10⟩, ⟨0, .branch, 0, 5⟩]

/-- The second word is refused. -/
def blinkRefused : Turn where
  operation := .program ⟨0, 100⟩ blink
  result := .error (.call (.writeWord 1) (-7) "no such board")
  events := [.call (.selectBoard 0) 0, .call .reset 0, .call (.coreClock 100) 0,
      .call (.startProgramming 0) 0] ++ writtenBy 100 blinkWords [0, -7] ++
    [.ask .lastError "no such board", .call .stopProgramming 3]

def blinkWritten : Turn where
  operation := .program ⟨0, 100⟩ blink
  result := .ok (.number 2)
  events := [.call (.selectBoard 0) 0, .call .reset 0, .call (.coreClock 100) 0,
      .call (.startProgramming 0) 0] ++ writtenBy 100 blinkWords [0, 1] ++ [.call .stopProgramming 0]

/-- A word is refused, the session is closed, and at the next attempt all words are written. -/
theorem sessions_of_history_refused :
    history scripted [.program ⟨0, 100⟩ blink, .program ⟨0, 100⟩ blink]
        [0, 0, 0, 0, 0, -7, 3, 0, 0, 0, 0, 0, 1] = [blinkRefused, blinkWritten] ∧
      (∃ inner, HoldsSession blinkRefused.events inner) ∧
      ∃ words opening codes, wordsOf blink 100 = .ok words ∧ words.length = 2 ∧
        blinkWritten.events = opening ++ .call (.startProgramming pulseProgram) 0 ::
          (writtenBy 100 words codes ++ [.call .stopProgramming 0]) := by
  have hhistory : history scripted [.program ⟨0, 100⟩ blink, .program ⟨0, 100⟩ blink]
      [0, 0, 0, 0, 0, -7, 3, 0, 0, 0, 0, 0, 1] = [blinkRefused, blinkWritten] := by
    rfl
  have hrefused : blinkRefused ∈ history scripted _ _ := hhistory ▸ List.mem_cons_self
  have hwritten : blinkWritten ∈ history scripted _ _ :=
    hhistory ▸ List.mem_cons_of_mem _ List.mem_cons_self
  refine ⟨hhistory, ?_, ?_⟩
  · rcases (sessions_of_history scripted _ _ blinkRefused hrefused).1 with houtside | hsession
    · have hopens := houtside (.call (.startProgramming 0) 0) (by simp [blinkRefused])
      exact absurd hopens (by decide)
    · obtain ⟨h, q, inner, -, hsession⟩ := hsession
      exact ⟨inner, hsession⟩
  · obtain ⟨-, hall⟩ := sessions_of_history scripted _ _ blinkWritten hwritten
    obtain ⟨-, words, opening, codes, hwords, hlength, -, -, hevents⟩ :=
      (hall ⟨0, 100⟩ blink rfl).2 (.number 2) rfl
    exact ⟨words, opening, codes, hwords, hlength, hevents⟩

end PulseSequencer.Board
