import ShouldIAsync.Lib.System
import ShouldIAsync.GoStd.Pipe

/-!
# `RunCommands`: starting, waiting for and joining the commands

`RunCommands` starts the commands one after another, spawns a goroutine per
started command that calls `Wait`, and receives their results on an unbuffered
channel; for each it closes the command's writers, judges the exit, and cancels
the remaining commands when it must. The model has the main goroutine and one
waiter per command, each a program counter; a run is any interleaving of them
and of what the commands themselves do.

The commands are a parameter (`Exec`): what `Start`, `Wait`, the writers' `Close`
and `cancelFunc` do to the state behind them, and what goes on there meanwhile.
`trace` records what happened at that boundary and when the loop received a
result. The argument lists a command is created from and the log lines are left
out, and so is the `injection` hook, which is nil outside the tests.
-/

namespace ShouldIAsync.EventLoop

open ShouldIAsync.Lib ShouldIAsync.GoStd

/-! ## Exits -/

/-- `syscall.WaitStatus` of a process that is gone. -/
inductive WaitStatus
  | exited (code : UInt8)
  | signaled (sig : Nat)
  deriving DecidableEq, Repr

/-- `unix.SIGTERM` -/
def sigterm : Nat := 15

/-- `ProcessState.ExitCode()`: −1 for a process that did not exit. -/
def WaitStatus.exitCode : WaitStatus → Int
  | .exited code => code.toNat
  | .signaled _ => -1

/-- `WaitStatus.Signal()`: −1 for a process that was not killed by a signal. -/
def WaitStatus.signal : WaitStatus → Int
  | .exited _ => -1
  | .signaled sig => sig

/-- What `cmd.Wait` can return besides nil. -/
inductive WaitError (ε : Type)
  | exitError (status : WaitStatus)
  -- `ctx.Err()`
  | ctxErr
  | other (err : ε)
  deriving DecidableEq, Repr

/-- `didExitGracefully(err)` -/
def didExitGracefully {ε : Type} : Option (WaitError ε) → Bool
  | none => true
  | some (.exitError status) =>
    if status.exitCode = 143 then true else decide (status.signal = sigterm)
  | some _ => false

/-- The streams of a command that may be closed. -/
inductive Stream
  | stdout
  | stderr
  deriving DecidableEq, Repr

/-- The errors that `RunCommands` joins: the two error types of the package and
the failed closes. -/
inductive RunError (ε : Type)
  | startingCommand (idx : Nat) (cause : ε)
  | close (idx : Nat) (stream : Stream) (cause : ε)
  | command (idx : Nat) (cause : Option (WaitError ε))
  deriving DecidableEq, Repr

/-- An error of `RunCommands`, with what it joins. -/
abbrev RunErr (ε : Type) := Error (RunError ε)

/-! ## The state -/

/-- Which of a command's writers are `io.WriteCloser`s. -/
structure Command where
  closable : Stream → Bool

/-- What lies behind the commands: `start idx` is `command.Start()`,
`waitResult idx` what a `Wait` in progress returns once it can, `background` what
the processes and their goroutines do by themselves. -/
structure Exec (ε ω β : Type) where
  start : Nat → ω → Option ε × ω
  enterWait : Nat → ω → ω
  waitResult : Nat → ω → Option (Option (WaitError ε))
  close : Nat → Stream → ω → Option ε × ω
  cancel : ω → ω
  background : β → ω → Option ω

/-- An entry of `cs.commands`: nil, created without a process, or started. -/
inductive Slot
  | absent
  | created
  | started
  deriving DecidableEq, Repr

/-- What `RunCommands` has done, and what it has been told. -/
inductive Event (ε : Type)
  | started (idx : Nat)
  | startFailed (idx : Nat) (cause : ε)
  -- `command.Wait()` returned
  | waited (idx : Nat) (err : Option (WaitError ε))
  -- `<-commandDoneCh`
  | received (idx : Nat) (err : Option (WaitError ε))
  | closed (idx : Nat) (stream : Stream) (err : Option ε)
  -- `cancelFunc()`
  | cancelled
  deriving DecidableEq, Repr

/-- The program counter of the main goroutine. -/
inductive Main (ε : Type)
  -- in `startCommands`, before command `idx`
  | starting (idx : Nat)
  -- at `cancelFunc()` after a failed start
  | cancelling
  -- in the spawn loop of `joinCommands`, before entry `idx`
  | spawning (idx : Nat)
  | receiving
  | closing (stream : Stream) (idx : Nat) (waitErr : Option (WaitError ε))
  -- at `if !didExitGracefully(finishedCommand.err)`
  | judging (idx : Nat) (waitErr : Option (WaitError ε))
  -- at `if idx == 0`
  | counting (idx : Nat)
  | returned (result : Option (RunErr ε))

/-- The program counter of the goroutine that waits for a command. -/
inductive Waiter (ε : Type)
  | absent
  | spawned
  | waiting
  | sending (err : Option (WaitError ε))
  | done

/-- `RunCommands` with its goroutines, over a world `ω` of the commands. -/
structure State (ε ω : Type) where
  main : Main ε
  commands : List Slot
  -- the error of `startCommands`
  startErr : Option (RunErr ε)
  waiters : Nat → Waiter ε
  startedCommandCount : Nat
  finishedCount : Nat
  -- the error `joinCommands` has collected
  err : Option (RunErr ε)
  -- `cancelOnceFunc` has been called
  cancelledOnce : Bool
  world : ω
  trace : List (Event ε)

/-! ## The actions -/

section Steps

variable {ε ω β : Type} (E : Exec ε ω β) (cmds : List Command)

/-- Whether the writer of a command for `stream` is an `io.WriteCloser`. -/
def closable (idx : Nat) (stream : Stream) : Bool :=
  match cmds[idx]? with
  | some command => command.closable stream
  | none => false

/-- Waiter `idx` becomes `w`. -/
def setWaiter (s : State ε ω) (idx : Nat) (w : Waiter ε) : State ε ω :=
  { s with waiters := fun i => if i = idx then w else s.waiters i }

/-- `cancelFunc()` -/
def cancelFunc (s : State ε ω) : State ε ω :=
  { s with world := E.cancel s.world, trace := s.trace ++ [.cancelled] }

/-- `cancelOnceFunc()` -/
def cancelOnceFunc (s : State ε ω) : State ε ω :=
  if s.cancelledOnce then s else { cancelFunc E s with cancelledOnce := true }

/-- `err = errors.Join(err, e)` -/
def joinErr (s : State ε ω) (e : RunErr ε) : State ε ω :=
  { s with err := Error.joinAll [s.err, some e] }

/-- `joinCommands` returns, and `RunCommands` joins its error to that of the start. -/
def returnJoined (s : State ε ω) : State ε ω :=
  { s with main := .returned (Error.joinAll [s.startErr, s.err]) }

/-- One round of `startCommands`. -/
def startCommand (s : State ε ω) (idx : Nat) : State ε ω :=
  match E.start idx s.world with
  | (none, world) =>
    { s with
      main := .starting (idx + 1)
      commands := s.commands.set idx .started
      world := world
      trace := s.trace ++ [.started idx] }
  | (some cause, world) =>
    { s with
      main := .cancelling
      commands := s.commands.set idx .created
      startErr := some (.leaf (.startingCommand idx cause))
      world := world
      trace := s.trace ++ [.startFailed idx cause] }

/-- The `Close` of a command's writer, if it has one, and the error it adds. -/
def closeStream (s : State ε ω) (idx : Nat) (stream : Stream) : State ε ω :=
  if closable cmds idx stream then
    match E.close idx stream s.world with
    | (none, world) => { s with world := world, trace := s.trace ++ [.closed idx stream none] }
    | (some cause, world) =>
      joinErr { s with world := world, trace := s.trace ++ [.closed idx stream (some cause)] }
        (.leaf (.close idx stream cause))
  else s

/-- The next action of the main goroutine; `none` while it waits to receive. -/
def mainStep (s : State ε ω) : Option (State ε ω) :=
  match s.main with
  | .starting idx =>
    if idx < cmds.length then some (startCommand E s idx) else some { s with main := .spawning 0 }
  | .cancelling => some { cancelFunc E s with main := .spawning 0 }
  | .spawning idx =>
    match s.commands[idx]? with
    | some .started =>
      some { setWaiter s idx .spawned with
        main := .spawning (idx + 1)
        startedCommandCount := s.startedCommandCount + 1 }
    | some _ => some { s with main := .spawning (idx + 1) }
    | none =>
      if s.startedCommandCount = 0 then some (returnJoined s)
        else some { s with main := .receiving }
  | .receiving => none
  | .closing .stdout idx waitErr =>
    some { closeStream E cmds s idx .stdout with main := .closing .stderr idx waitErr }
  | .closing .stderr idx waitErr =>
    some { closeStream E cmds s idx .stderr with main := .judging idx waitErr }
  | .judging idx waitErr =>
    if didExitGracefully waitErr then some { s with main := .counting idx }
    else
      some { cancelOnceFunc E (joinErr s (.leaf (.command idx waitErr))) with
        main := .counting idx }
  | .counting idx =>
    let t := if idx = 0 then cancelOnceFunc E s else s
    let t := { t with finishedCount := t.finishedCount + 1 }
    if t.finishedCount = t.startedCommandCount then some (returnJoined t)
    else some { t with main := .receiving }
  | .returned _ => none

/-- The main goroutine receives what waiter `idx` is sending. -/
def receiveStep (s : State ε ω) (idx : Nat) : Option (State ε ω) :=
  match s.main, s.waiters idx with
  | .receiving, .sending err =>
    some { setWaiter s idx .done with
      main := .closing .stdout idx err
      trace := s.trace ++ [.received idx err] }
  | _, _ => none

/-- The next action of waiter `idx`. -/
def waiterStep (s : State ε ω) (idx : Nat) : Option (State ε ω) :=
  match s.waiters idx with
  | .spawned => some { setWaiter s idx .waiting with world := E.enterWait idx s.world }
  | .waiting =>
    (E.waitResult idx s.world).map fun err =>
      { setWaiter s idx (.sending err) with trace := s.trace ++ [.waited idx err] }
  | .absent | .sending _ | .done => none

inductive Action (β : Type)
  | main
  | receive (idx : Nat)
  | waiter (idx : Nat)
  | background (b : β)

/-- What it does, or `none` where it cannot happen. -/
def act : Action β → State ε ω → Option (State ε ω)
  | .main, s => mainStep E cmds s
  | .receive idx, s => receiveStep s idx
  | .waiter idx, s => waiterStep E s idx
  | .background b, s => (E.background b s.world).map fun x => { s with world := x }

/-- `RunCommands` is entered. -/
def initial (x : ω) : State ε ω where
  main := .starting 0
  commands := cmds.map fun _ => .absent
  startErr := none
  waiters := fun _ => .absent
  startedCommandCount := 0
  finishedCount := 0
  err := none
  cancelledOnce := false
  world := x
  trace := []

/-- The runs of `RunCommands` over the commands `cmds`. -/
def runCommands (x : ω) : System (State ε ω) :=
  System.ofActions (· = initial cmds x) (act E cmds)

end Steps

end ShouldIAsync.EventLoop
