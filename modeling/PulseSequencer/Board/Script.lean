import PulseSequencer.Board.Word

/-!
# Conversations with the vendor library

The vendor library is a set of calls that return a code, and two questions that return a text. What
an operation does with them is a `Script`: which call comes first, and how it goes on for each code.
A script says nothing about the library itself. `Script.run` plays it against any `Vendor`, and gives
the result, the log of all calls and the state the library is left in.
-/

namespace PulseSequencer.Board

/-- The calls of the vendor library; each returns a code. -/
inductive Call where
  | countBoards
  | selectBoard (number : Int)
  | init
  | close
  | reset
  | coreClock (clock : Float)
  | startProgramming (target : Int)
  /-- Writes a word that is to be held for the given time in ns. -/
  | writeWord (word : Word) (nanoseconds : Float)
  | stopProgramming
  | start
  | stop
  | readStatus
  | firmwareId

/-- The questions to the vendor library; each returns a text. -/
inductive Question where
  | lastError
  | version
  deriving DecidableEq, Repr

/-- A conversation that ends with a result. -/
inductive Script (α : Type) where
  | done (result : α)
  | call (c : Call) (next : Int → Script α)
  | ask (q : Question) (next : String → Script α)

/-- What happened in a conversation. -/
inductive Event where
  | call (c : Call) (code : Int)
  | ask (q : Question) (text : String)

/-- A vendor library with a state of its own. -/
structure Vendor (σ : Type) where
  call : Call → σ → Int × σ
  ask : Question → σ → String × σ

namespace Script

/-- Goes on with the result of a conversation. -/
def bind {α β : Type} : Script α → (α → Script β) → Script β
  | done a, f => f a
  | call c next, f => call c fun code => (next code).bind f
  | ask q next, f => ask q fun text => (next text).bind f

instance : Monad Script where
  pure := done
  bind := bind

/-- Plays a script after the events in `log`, which are kept with the last one first. -/
def runFrom {α σ : Type} (v : Vendor σ) (log : List Event) :
    Script α → σ → α × List Event × σ
  | done a, s => (a, log.reverse, s)
  | call c next, s =>
    let (code, s) := v.call c s
    runFrom v (.call c code :: log) (next code) s
  | ask q next, s =>
    let (text, s) := v.ask q s
    runFrom v (.ask q text :: log) (next text) s

/-- Plays a script: its result, all events in order, and the state of the library afterwards. -/
def run {α σ : Type} (v : Vendor σ) (script : Script α) (s : σ) : α × List Event × σ :=
  runFrom v [] script s

/-! ### Laws of scripts -/

theorem bind_pure {α : Type} (x : Script α) : x.bind done = x := by
  induction x with
  | done a => rfl
  | call c next ih => simp only [bind, ih]
  | ask q next ih => simp only [bind, ih]

theorem bind_assoc {α β γ : Type} (x : Script α) (f : α → Script β) (g : β → Script γ) :
    (x.bind f).bind g = x.bind fun a => (f a).bind g := by
  induction x with
  | done a => rfl
  | call c next ih => simp only [bind, ih]
  | ask q next ih => simp only [bind, ih]

instance : LawfulMonad Script :=
  LawfulMonad.mk' Script bind_pure (fun _ _ => rfl) bind_assoc

/-- Earlier events stay in front of those of a script, and change nothing else. -/
theorem runFrom_eq {α σ : Type} (v : Vendor σ) (log : List Event) (x : Script α) (s : σ) :
    runFrom v log x s = ((run v x s).1, log.reverse ++ (run v x s).2.1, (run v x s).2.2) := by
  unfold run
  induction x generalizing log s with
  | done a => simp [runFrom]
  | call c next ih =>
    simp only [runFrom]
    rw [ih, ih _ [.call c (v.call c s).1]]
    simp
  | ask q next ih =>
    simp only [runFrom]
    rw [ih, ih _ [.ask q (v.ask q s).1]]
    simp

theorem run_call {α σ : Type} (v : Vendor σ) (c : Call) (next : Int → Script α) (s : σ) :
    run v (call c next) s =
      let rest := run v (next (v.call c s).1) (v.call c s).2
      (rest.1, .call c (v.call c s).1 :: rest.2.1, rest.2.2) :=
  runFrom_eq v [.call c (v.call c s).1] (next (v.call c s).1) (v.call c s).2

theorem run_ask {α σ : Type} (v : Vendor σ) (q : Question) (next : String → Script α) (s : σ) :
    run v (ask q next) s =
      let rest := run v (next (v.ask q s).1) (v.ask q s).2
      (rest.1, .ask q (v.ask q s).1 :: rest.2.1, rest.2.2) :=
  runFrom_eq v [.ask q (v.ask q s).1] (next (v.ask q s).1) (v.ask q s).2

end Script

/-- An operation: a conversation that may fail. -/
abbrev Operating := ExceptT Error Script

/-- A check that makes no calls. -/
def settle {α : Type} (r : Except Error α) : Operating α :=
  ExceptT.mk (.done r)

/-- Makes a call and takes its code as it is. -/
def issue (c : Call) : Operating Int :=
  ExceptT.lift (.call c .done)

/-- Asks a question. -/
def inquire (q : Question) : Operating String :=
  ExceptT.lift (.ask q .done)

/-- Which codes a call returns when it succeeds. -/
inductive Success where
  /-- Only 0. -/
  | zero
  /-- Any code that is not negative, such as an address. -/
  | nonNegative
  deriving DecidableEq, Repr

/-- Does the code say that a call succeeded? -/
def Success.accepts : Success → Int → Bool
  | zero, code => code == 0
  | nonNegative, code => 0 ≤ code

/-- Passes on a code of success. Of a failure, the library is asked for a description first. -/
def checkCode (code : Int) (action : Action) (success : Success) : Operating Int :=
  if success.accepts code then pure code
  else do
    let report ← inquire .lastError
    throw (.call action code report)

/-- Makes a call and checks its code. -/
def perform (c : Call) (action : Action) (success : Success := .zero) : Operating Int := do
  let code ← issue c
  checkCode code action success

end PulseSequencer.Board
