import ShouldIAsync.Lib.System
import Mathlib.Data.Nat.Init

/-!
# The shutdown hook of the Java server

Two threads: main, in `runServer`, which holds `runningLock` until it has unwound, and the
shutdown hook, which a signal or the end of main starts. The hook closes the registration,
completes the graceful shutdown future, runs the registered tasks and then waits two
seconds for the lock. What it waits for is any time; so are the accepted connections and
the ends of their handlers. Nobody interrupts a thread, and nobody unregisters a task.

The one task is `server.close()`, which throws as long as `listenAndHandle` has not
assigned `serverSocketChannel`, and of course if the close of the channel fails; an exception
ends the hook where it is, before `tryLock`. `Watched.early` and `Watched.closeFailed` remember
that this has been met: the hook reaches its watchdog exactly in the runs where it has not
(`shutdown_watchdog`).
-/

namespace ShouldIAsync.JavaEcho.Shutdown

open ShouldIAsync.Lib

/-- What `main` and the hook throw. -/
inductive Thrown
  /-- "Must call listenAndHandle prior to closing Server" -/
  | mustListenFirst
  /-- "registration is closed.  Technically this is due to shutdown/a signal racing against
  startup of the application, but I don't feel like handling it gracefully" -/
  | registrationClosed
  | io
  | uncheckedIo
  /-- "server failed to end gracefully within timeout" -/
  | timeout
  deriving DecidableEq, Repr

/-- `catch (IOException ex) { throw new UncheckedIOException(ex); }` -/
def Thrown.unchecked : Thrown → Thrown
  | .io => .uncheckedIo
  | e => e

/-! ## `Server.close` -/

/-- The field `serverSocketChannel`. -/
inductive ServerSocketChannel
  | null
  | opened
  | closed
  deriving DecidableEq, Repr

/-- `Server.close`; to close a closed channel does nothing. An open one is closed even if the
close `fails`. -/
def close (fails : Bool) : ServerSocketChannel → Option Thrown × ServerSocketChannel
  | .null => (some .mustListenFirst, .null)
  | .opened => (if fails then some .io else none, .closed)
  | .closed => (none, .closed)

/-! ## `ShutdownCoordinator` -/

/-- The tasks that are registered. -/
inductive Task
  | closeServer
  deriving DecidableEq, Repr

/-- What a task does to the channel, and what it throws. -/
def Task.run (task : Task) (fails : Bool) (channel : ServerSocketChannel) :
    Option Thrown × ServerSocketChannel :=
  match task with
  | .closeServer => ((close fails channel).1.map Thrown.unchecked, (close fails channel).2)

structure ShutdownCoordinator where
  nextShutdownTaskKey : Nat := 0
  shutdownTasks : List (Nat × Task) := []
  isRegistrationOpen : Bool := true

def ShutdownCoordinator.registerShutdownTask (c : ShutdownCoordinator) (task : Task) :
    Except Thrown ShutdownCoordinator :=
  if c.isRegistrationOpen then
    .ok { c with
      nextShutdownTaskKey := c.nextShutdownTaskKey + 1
      shutdownTasks := c.shutdownTasks ++ [(c.nextShutdownTaskKey, task)] }
  else .error .registrationClosed

def ShutdownCoordinator.closeRegistration (c : ShutdownCoordinator) : ShutdownCoordinator :=
  { c with isRegistrationOpen := false }

/-! ## The threads -/

/-- Where main is; from `scope` on with the exception that unwinds it, if any. -/
inductive MainPc
  -- at `registerShutdownTask`
  | register
  -- at `serverSocketChannel = ServerSocketChannel.open(..)`
  | openChannel
  | bind
  -- at `completeAfterBind.complete(null)`
  | complete
  | accept
  -- in `joinUntil`
  | join
  -- in the `close` of the scope, which waits for the handlers
  | scope (e : Option Thrown)
  -- at the `close` of the server, which ends the `try` of `runServer`
  | closeServer (e : Option Thrown)
  -- at `runningLock.unlock()`
  | unlock (e : Option Thrown)
  | ended (e : Option Thrown)
  deriving DecidableEq, Repr

/-- Where the hook is. -/
inductive HookPc
  | notStarted
  | closeRegistration
  -- at `gracefulShutdownFuture.complete(null)`
  | complete
  -- in the loop over the tasks
  | tasks (left : List Task)
  -- at `tryLock`
  | tryLock
  -- at the dump of the threads, without the lock
  | dump
  -- at `runningLock.unlock()`
  | unlock
  | finished
  | halted
  | threw (e : Thrown)
  deriving DecidableEq, Repr

/-- Who has `runningLock`. -/
inductive Holder
  | main
  | hook
  deriving DecidableEq, Repr

/-- The process: `main`, the hook and what they share. -/
structure State where
  coordinator : ShutdownCoordinator
  runningLock : Option Holder
  /-- the graceful shutdown future is complete -/
  stop : Bool
  completeAfterBind : Bool
  serverSocketChannel : ServerSocketChannel
  /-- the handlers that are running -/
  handlers : Nat
  main : MainPc
  hook : HookPc

/-- How a call of main comes out. -/
inductive Outcome
  | ok
  | ioException
  | timeout
  deriving DecidableEq

/-- The `close` of the server by the `try` of `runServer`, whose body has thrown `e` or nothing. -/
def closeServer (fails : Bool) (e : Option Thrown) (s : State) : State :=
  { s with
    serverSocketChannel := (close fails s.serverSocketChannel).2
    main := .unlock (e.or ((close fails s.serverSocketChannel).1.map Thrown.unchecked)) }

/-- One step of main: `runServer` from the registration on, and the end of `runApp`. -/
def mainStep (outcome : Outcome) (s : State) : Option State :=
  match s.main, outcome with
  | .register, .ok =>
    match s.coordinator.registerShutdownTask .closeServer with
    | .ok coordinator => some { s with coordinator := coordinator, main := .openChannel }
    | .error e => some { s with main := .closeServer (some e) }
  | .openChannel, .ok => some { s with serverSocketChannel := .opened, main := .bind }
  | .openChannel, .ioException => some { s with main := .closeServer (some .uncheckedIo) }
  | .bind, .ok =>
    -- a `ClosedChannelException` is an `IOException`
    if s.serverSocketChannel = .closed then some { s with main := .closeServer (some .uncheckedIo) }
    else some { s with main := .complete }
  | .bind, .ioException => some { s with main := .closeServer (some .uncheckedIo) }
  | .complete, .ok => some { s with completeAfterBind := true, main := .accept }
  | .accept, .ok =>
    if s.serverSocketChannel = .closed then some { s with main := .join }
    else some { s with handlers := s.handlers + 1 }
  | .accept, .ioException => some { s with main := .scope (some .uncheckedIo) }
  | .join, .ok => if s.handlers = 0 then some { s with main := .scope none } else none
  | .join, .timeout =>
    if s.handlers = 0 then none else some { s with main := .scope (some .timeout) }
  | .scope e, .ok => if s.handlers = 0 then some { s with main := .closeServer e } else none
  | .closeServer e, .ok => some (closeServer false e s)
  | .closeServer e, .ioException => some (closeServer true e s)
  | .unlock e, .ok => some { s with runningLock := none, main := .ended e }
  | _, _ => none

/-- One step of the hook; a close of the channel that it makes may fail. -/
def hookStep (fails : Bool) (s : State) : Option State :=
  match s.hook with
  | .closeRegistration =>
    some { s with coordinator := s.coordinator.closeRegistration, hook := .complete }
  | .complete =>
    some { s with stop := true, hook := .tasks (s.coordinator.shutdownTasks.map Prod.snd) }
  | .tasks [] => some { s with hook := .tryLock }
  | .tasks (task :: left) =>
    match task.run fails s.serverSocketChannel with
    | (none, channel) => some { s with serverSocketChannel := channel, hook := .tasks left }
    | (some e, channel) => some { s with serverSocketChannel := channel, hook := .threw e }
  | .tryLock =>
    match s.runningLock with
    | none => some { s with runningLock := some .hook, hook := .unlock }
    -- two seconds are over
    | some _ => some { s with hook := .dump }
  | .dump => some { s with hook := .halted }
  | .unlock => some { s with runningLock := none, hook := .finished }
  | .notStarted | .finished | .halted | .threw _ => none

inductive Action
  | signal
  | hook (fails : Bool)
  | main (outcome : Outcome)
  | handlerEnds
  deriving DecidableEq

/-- What it does, or `none` where it cannot happen. -/
def act (a : Action) (s : State) : Option State :=
  if s.hook = .halted then none
  else
    match a with
    | .signal => if s.hook = .notStarted then some { s with hook := .closeRegistration } else none
    | .hook fails => hookStep fails s
    | .main outcome => mainStep outcome s
    | .handlerEnds => if s.handlers = 0 then none else some { s with handlers := s.handlers - 1 }

/-- Main has the lock and the hook is installed; `runServer` has made its `Server`. -/
def start : State where
  coordinator := {}
  runningLock := some .main
  stop := false
  completeAfterBind := false
  serverSocketChannel := .null
  handlers := 0
  main := .register
  hook := .notStarted

/-- The hook is about to run a task, and the server has no channel yet. -/
def State.runsEarly (s : State) : Bool :=
  match s.hook with
  | .tasks (_ :: _) => s.serverSocketChannel = .null
  | _ => false

/-- It is about to close the open channel. -/
def State.closesChannel (s : State) : Bool :=
  match s.hook with
  | .tasks (_ :: _) => s.serverSocketChannel = .opened
  | _ => false

/-- A state, and whether on the way to it the hook has run a task early, or its close of the
channel has failed. -/
structure Watched where
  state : State
  early : Bool
  closeFailed : Bool

/-- It is a step of the hook. -/
def Action.isHook : Action → Bool
  | .hook _ => true
  | _ => false

/-- The hook closes the open channel, and that fails. -/
def Action.failsToClose (a : Action) (s : State) : Bool := a = .hook true && s.closesChannel

/-- The same, with a record of what went wrong. -/
def Watched.act (a : Action) (s : Watched) : Option Watched :=
  (Shutdown.act a s.state).map fun t =>
    { state := t
      early := s.early || (a.isHook && s.state.runsEarly)
      closeFailed := s.closeFailed || a.failsToClose s.state }

/-- The runs of the process. -/
def shutdown : System Watched := System.ofActions (· = ⟨start, false, false⟩) Watched.act

/-- The hook has neither run a task early nor failed to close the channel. -/
def Watched.Clean (s : Watched) : Prop := s.early = false ∧ s.closeFailed = false

/-! ## What the hook does -/

/-- Without a channel the task throws. -/
theorem run_null (task : Task) (fails : Bool) :
    task.run fails .null = (some .mustListenFirst, .null) := by
  cases task
  exact Eq.refl _

/-- A close that fails is thrown on, unchecked. -/
theorem run_fails (task : Task) : task.run true .opened = (some .uncheckedIo, .closed) := by
  cases task
  exact Eq.refl _

/-- Otherwise the channel is closed. -/
theorem run_ok (task : Task) {fails : Bool} {channel : ServerSocketChannel}
    (hnull : channel ≠ .null)
    (hok : ¬(channel = .opened ∧ fails = true)) : task.run fails channel = (none, .closed) := by
  cases task
  cases channel with
  | null => exact absurd (Eq.refl _) hnull
  | opened =>
    cases fails with
    | true => exact absurd ⟨Eq.refl _, Eq.refl _⟩ hok
    | false => exact Eq.refl _
  | closed => exact Eq.refl _

/-- A step of the hook. -/
inductive HookMove (fails : Bool) (s t : State) : Prop
  | closeRegistration (hpc : s.hook = .closeRegistration)
      (ht : t = { s with coordinator := s.coordinator.closeRegistration, hook := .complete })
  | complete (hpc : s.hook = .complete)
      (ht : t = { s with stop := true, hook := .tasks (s.coordinator.shutdownTasks.map Prod.snd) })
  | task (task : Task) (left : List Task) (hpc : s.hook = .tasks (task :: left))
      (hchannel : s.serverSocketChannel ≠ .null) (hok : ¬(s.serverSocketChannel = .opened ∧
        fails = true))
      (ht : t = { s with serverSocketChannel := .closed, hook := .tasks left })
  | early (task : Task) (left : List Task) (hpc : s.hook = .tasks (task :: left))
      (hnull : s.serverSocketChannel = .null)
      (ht : t = { s with serverSocketChannel := .null, hook := .threw .mustListenFirst })
  | closeFails (task : Task) (left : List Task) (hpc : s.hook = .tasks (task :: left))
      (hopened : s.serverSocketChannel = .opened) (hfails : fails = true)
      (ht : t = { s with serverSocketChannel := .closed, hook := .threw .uncheckedIo })
  | noTask (hpc : s.hook = .tasks []) (ht : t = { s with hook := .tryLock })
  | gotLock (hpc : s.hook = .tryLock) (hlock : s.runningLock = none)
      (ht : t = { s with runningLock := some .hook, hook := .unlock })
  | noLock (hpc : s.hook = .tryLock) (hlock : s.runningLock ≠ none)
      (ht : t = { s with hook := .dump })
  | dump (hpc : s.hook = .dump) (ht : t = { s with hook := .halted })
  | unlock (hpc : s.hook = .unlock) (ht : t = { s with runningLock := none, hook := .finished })

variable {s t : State} {fails : Bool}

/-- Each step of the hook is one of these. -/
theorem hookStep_move (h : hookStep fails s = some t) : HookMove fails s t := by
  unfold hookStep at h
  split at h
  next hpc => exact .closeRegistration hpc (Option.some.inj h).symm
  next hpc => exact .complete hpc (Option.some.inj h).symm
  next hpc => exact .noTask hpc (Option.some.inj h).symm
  next task left hpc =>
    by_cases hnull : s.serverSocketChannel = .null
    · rw [hnull, run_null] at h
      exact .early task left hpc hnull (Option.some.inj h).symm
    · by_cases hfail : s.serverSocketChannel = .opened ∧ fails = true
      · rw [hfail.1, hfail.2, run_fails] at h
        exact .closeFails task left hpc hfail.1 hfail.2 (Option.some.inj h).symm
      · rw [run_ok task hnull hfail] at h
        exact .task task left hpc hnull hfail (Option.some.inj h).symm
  next hpc =>
    split at h
    next hlock => exact .gotLock hpc hlock (Option.some.inj h).symm
    next holder hlock =>
      have hheld : s.runningLock ≠ none := by
        rw [hlock]
        exact Option.some_ne_none holder
      exact .noLock hpc hheld (Option.some.inj h).symm
  next hpc => exact .dump hpc (Option.some.inj h).symm
  next hpc => exact .unlock hpc (Option.some.inj h).symm
  all_goals cases h

/-- The hook has thrown. -/
def State.Threw (s : State) : Prop := ∃ e, s.hook = .threw e

/-- The hook has gone all its way: it has had the lock, after the end of main, or has
dumped the threads and halted. -/
def State.Over (s : State) : Prop :=
  (s.hook = .finished ∧ ∃ e, s.main = .ended e) ∨ s.hook = .halted

/-- The tasks that are registered, or may be yet. -/
def State.pendingTasks (s : State) : Nat :=
  s.coordinator.shutdownTasks.length + if s.main = .register then 1 else 0

/-- The steps the hook has to go, at most. -/
def State.left (s : State) : Nat :=
  match s.hook with
  | .notStarted => s.pendingTasks + 7
  | .closeRegistration => s.pendingTasks + 6
  | .complete => s.pendingTasks + 5
  | .tasks left => left.length + 3
  | .tryLock => 2
  | .dump | .unlock => 1
  | .finished | .halted | .threw _ => 0

/-- A step of the hook throws if it runs a task early or fails to close the channel, and only
then. -/
theorem HookMove.threw_iff (h : HookMove fails s t) :
    t.Threw ↔ s.runsEarly = true ∨ (fails = true ∧ s.closesChannel = true) := by
  cases h with
  | early task left hpc hnull ht =>
    rw [ht]
    exact ⟨fun _ => Or.inl (by simp [State.runsEarly, hpc, hnull]), fun _ => ⟨_, Eq.refl _⟩⟩
  | closeFails task left hpc hopened hfails ht =>
    rw [ht]
    exact ⟨fun _ => Or.inr ⟨hfails, by simp [State.closesChannel, hpc, hopened]⟩,
      fun _ => ⟨_, Eq.refl _⟩⟩
  | task task left hpc hchannel hok ht =>
    have hnot : fails = true → s.serverSocketChannel ≠ .opened := fun hf ho => hok ⟨ho, hf⟩
    simpa [State.Threw, State.runsEarly, State.closesChannel, ht, hpc, hchannel] using hnot
  | closeRegistration hpc ht | complete hpc ht | noTask hpc ht | gotLock hpc _ ht | noLock hpc _ ht
  | dump hpc ht | unlock hpc ht =>
    simp [State.Threw, State.runsEarly, State.closesChannel, ht, hpc]

/-- Every step of the hook brings it on. -/
theorem HookMove.left_lt (h : HookMove fails s t) : t.left < s.left := by
  cases h with
  | closeRegistration hpc ht =>
    simp [State.left, ht, hpc, State.pendingTasks, ShutdownCoordinator.closeRegistration]
  | complete hpc ht =>
    simp only [State.left, ht, hpc, State.pendingTasks, List.length_map]
    omega
  | task task left hpc hchannel hok ht => simp [State.left, ht, hpc]
  | early task left hpc hnull ht => simp [State.left, ht, hpc]
  | closeFails task left hpc hopened hfails ht => simp [State.left, ht, hpc]
  | noTask hpc ht => simp [State.left, ht, hpc]
  | gotLock hpc hlock ht => simp [State.left, ht, hpc]
  | noLock hpc hlock ht => simp [State.left, ht, hpc]
  | dump hpc ht => simp [State.left, ht, hpc]
  | unlock hpc ht => simp [State.left, ht, hpc]

/-- The hook is never blocked: with steps to go and started, it has one. -/
theorem hookStep_some (fails : Bool) (hleft : s.left ≠ 0) (hstarted : s.hook ≠ .notStarted) :
    ∃ t, hookStep fails s = some t := by
  unfold hookStep
  cases hpc : s.hook with
  | tasks left =>
    cases left with
    | nil => exact ⟨_, Eq.refl _⟩
    | cons task left =>
      simp only
      split <;> exact ⟨_, Eq.refl _⟩
  | tryLock =>
    simp only
    cases s.runningLock with
    | none => exact ⟨_, Eq.refl _⟩
    | some holder => exact ⟨_, Eq.refl _⟩
  | notStarted => exact absurd hpc hstarted
  | finished => exact absurd (by rw [State.left, hpc]) hleft
  | halted => exact absurd (by rw [State.left, hpc]) hleft
  | threw e => exact absurd (by rw [State.left, hpc]) hleft
  | _ => exact ⟨_, Eq.refl _⟩

/-! ## What main does -/

/-- What main leaves alone, and that it lets go of the lock only when it ends. -/
structure MainMove (s t : State) : Prop where
  hook : t.hook = s.hook
  running : ∀ e, s.main ≠ .ended e
  pendingTasks : t.pendingTasks ≤ s.pendingTasks
  lock : t.runningLock = s.runningLock ∨ ∃ e, t.main = .ended e

/-- A place between the registration and the end. -/
def MainPc.Between : MainPc → Prop
  | .register | .ended _ => False
  | _ => True

/-- A step of main between the two changes nothing of this. -/
theorem MainMove.of_between (hs : s.main.Between) (ht : t.main.Between) (hhook : t.hook = s.hook)
    (hcoordinator : t.coordinator = s.coordinator) (hlock : t.runningLock = s.runningLock) :
    MainMove s t := by
  have hrunning : ∀ e, s.main ≠ .ended e := by
    intro e he
    rw [he] at hs
    exact hs
  have hregister : ∀ {u : State}, u.main.Between → u.main ≠ .register := by
    intro u hu he
    rw [he] at hu
    exact hu
  refine ⟨hhook, hrunning, ?_, Or.inl hlock⟩
  rw [State.pendingTasks, State.pendingTasks, hcoordinator, if_neg (hregister hs),
    if_neg (hregister ht)]

/-- Each step of `main` is one of these. -/
theorem mainStep_move {outcome : Outcome} (h : mainStep outcome s = some t) : MainMove s t := by
  unfold mainStep at h
  split at h
  next hpc =>
    -- the registration
    have hrunning : ∀ e, s.main ≠ .ended e := by
      intro e he
      rw [hpc] at he
      cases he
    unfold ShutdownCoordinator.registerShutdownTask at h
    by_cases hopen : s.coordinator.isRegistrationOpen = true
    · rw [if_pos hopen] at h
      obtain rfl := Option.some.inj h
      refine ⟨Eq.refl _, hrunning, ?_, Or.inl (Eq.refl _)⟩
      simp [State.pendingTasks, hpc]
    · rw [if_neg hopen] at h
      obtain rfl := Option.some.inj h
      refine ⟨Eq.refl _, hrunning, ?_, Or.inl (Eq.refl _)⟩
      simp [State.pendingTasks, hpc]
  next hpc =>
    obtain rfl := Option.some.inj h
    exact .of_between (hpc ▸ trivial) trivial (Eq.refl _) (Eq.refl _) (Eq.refl _)
  next hpc =>
    obtain rfl := Option.some.inj h
    exact .of_between (hpc ▸ trivial) trivial (Eq.refl _) (Eq.refl _) (Eq.refl _)
  next hpc =>
    split at h
    · obtain rfl := Option.some.inj h
      exact .of_between (hpc ▸ trivial) trivial (Eq.refl _) (Eq.refl _) (Eq.refl _)
    · obtain rfl := Option.some.inj h
      exact .of_between (hpc ▸ trivial) trivial (Eq.refl _) (Eq.refl _) (Eq.refl _)
  next hpc =>
    obtain rfl := Option.some.inj h
    exact .of_between (hpc ▸ trivial) trivial (Eq.refl _) (Eq.refl _) (Eq.refl _)
  next hpc =>
    obtain rfl := Option.some.inj h
    exact .of_between (hpc ▸ trivial) trivial (Eq.refl _) (Eq.refl _) (Eq.refl _)
  next hpc =>
    split at h
    · obtain rfl := Option.some.inj h
      exact .of_between (hpc ▸ trivial) trivial (Eq.refl _) (Eq.refl _) (Eq.refl _)
    · obtain rfl := Option.some.inj h
      exact .of_between (hpc ▸ trivial) (hpc ▸ trivial) (Eq.refl _) (Eq.refl _) (Eq.refl _)
  next hpc =>
    obtain rfl := Option.some.inj h
    exact .of_between (hpc ▸ trivial) trivial (Eq.refl _) (Eq.refl _) (Eq.refl _)
  next hpc =>
    split at h
    · obtain rfl := Option.some.inj h
      exact .of_between (hpc ▸ trivial) trivial (Eq.refl _) (Eq.refl _) (Eq.refl _)
    · cases h
  next hpc =>
    split at h
    · cases h
    · obtain rfl := Option.some.inj h
      exact .of_between (hpc ▸ trivial) trivial (Eq.refl _) (Eq.refl _) (Eq.refl _)
  next e hpc =>
    split at h
    · obtain rfl := Option.some.inj h
      exact .of_between (hpc ▸ trivial) trivial (Eq.refl _) (Eq.refl _) (Eq.refl _)
    · cases h
  next e hpc =>
    obtain rfl := Option.some.inj h
    exact .of_between (hpc ▸ trivial) trivial (Eq.refl _) (Eq.refl _) (Eq.refl _)
  next e hpc =>
    obtain rfl := Option.some.inj h
    exact .of_between (hpc ▸ trivial) trivial (Eq.refl _) (Eq.refl _) (Eq.refl _)
  next e hpc =>
    -- the end: main lets go of the lock
    obtain rfl := Option.some.inj h
    refine ⟨Eq.refl _, fun e' he => ?_, ?_, Or.inr ⟨e, Eq.refl _⟩⟩
    · rw [hpc] at he
      cases he
    · simp [State.pendingTasks, hpc]
  next => cases h

/-! ## The runs -/

/-- One step of the two threads and what is around them. -/
inductive Move (s t : State) : Action → Prop
  | signal (hpc : s.hook = .notStarted) (ht : t = { s with hook := .closeRegistration }) :
      Move s t .signal
  | hook (fails : Bool) (h : HookMove fails s t) : Move s t (.hook fails)
  | main (outcome : Outcome) (h : MainMove s t) : Move s t (.main outcome)
  | handlerEnds (ht : t = { s with handlers := s.handlers - 1 }) : Move s t .handlerEnds

theorem act_move {a : Action} (h : act a s = some t) : Move s t a := by
  unfold act at h
  split at h
  · cases h
  · cases a with
    | signal =>
      simp only at h
      split at h
      next hpc => exact .signal hpc (Option.some.inj h).symm
      next => cases h
    | hook fails => exact .hook fails (hookStep_move h)
    | main outcome => exact .main outcome (mainStep_move h)
    | handlerEnds =>
      simp only at h
      split at h
      · cases h
      · exact .handlerEnds (Option.some.inj h).symm

/-- What a step of the system is. -/
theorem watched_step {u v : Watched} (hstep : shutdown.step u v) :
    ∃ a, Move u.state v.state a ∧ v.early = (u.early || (a.isHook && u.state.runsEarly)) ∧
      v.closeFailed = (u.closeFailed || a.failsToClose u.state) := by
  obtain ⟨a, hact⟩ := hstep
  obtain ⟨t, ht, rfl⟩ := Option.map_eq_some_iff.mp hact
  exact ⟨a, act_move ht, Eq.refl _, Eq.refl _⟩

/-- No step gives the hook more to do. -/
theorem Move.left_le {a : Action} (h : Move s t a) : t.left ≤ s.left := by
  cases h with
  | signal hpc ht =>
    rw [ht, State.left, State.left, hpc]
    exact Nat.le_succ _
  | hook fails hmove => exact Nat.le_of_lt hmove.left_lt
  | main outcome hmove =>
    have hpending := hmove.pendingTasks
    rw [State.left, State.left, hmove.hook]
    cases s.hook with
    | notStarted => exact Nat.add_le_add_right hpending 7
    | closeRegistration => exact Nat.add_le_add_right hpending 6
    | complete => exact Nat.add_le_add_right hpending 5
    | _ => exact Nat.le_refl _
  | handlerEnds ht =>
    rw [ht]
    exact Nat.le_refl _

/-- Main runs, has the lock, and the hook has not had it. -/
structure State.Locked (s : State) : Prop where
  lock : s.runningLock = some .main
  unlock : s.hook ≠ .unlock
  finished : s.hook ≠ .finished

/-- The hook has thrown exactly if it has run a task early or failed to close the channel; and
the lock is main's as long as main runs. -/
structure Watched.Inv (s : Watched) : Prop where
  threw : s.state.Threw ↔ s.early = true ∨ s.closeFailed = true
  lock : s.state.Locked ∨ ∃ e, s.state.main = .ended e

theorem inv_start : Watched.Inv ⟨start, false, false⟩ where
  threw := iff_of_false (fun h => by obtain ⟨e, he⟩ := h; cases he) (by simp)
  lock := Or.inl ⟨Eq.refl _, HookPc.noConfusion, HookPc.noConfusion⟩

/-- A hook that has thrown takes no step. -/
theorem HookMove.not_threw (h : HookMove fails s t) : ¬ s.Threw := by
  intro hthrew
  obtain ⟨e, he⟩ := hthrew
  cases h with
  | closeRegistration hpc | complete hpc | task _ _ hpc | early _ _ hpc | closeFails _ _ hpc
  | noTask hpc | gotLock hpc | noLock hpc | dump hpc | unlock hpc => rw [he] at hpc; cases hpc

/-- While main has the lock the hook does not get it. -/
theorem HookMove.locked (h : HookMove fails s t) (hs : s.Locked) : t.Locked := by
  cases h with
  | gotLock _ hfree _ =>
    rw [hs.lock] at hfree
    cases hfree
  | unlock hpc _ => exact absurd hpc hs.unlock
  | closeRegistration _ ht | complete _ ht | task _ _ _ _ _ ht | early _ _ _ _ ht
  | closeFails _ _ _ _ _ ht | noTask _ ht | noLock _ _ ht | dump _ ht =>
    rw [ht]
    exact ⟨hs.lock, HookPc.noConfusion, HookPc.noConfusion⟩

/-- The hook leaves `main` where it is. -/
theorem HookMove.main (h : HookMove fails s t) : t.main = s.main := by
  cases h with
  | closeRegistration _ ht | complete _ ht | task _ _ _ _ _ ht | early _ _ _ _ ht
  | closeFails _ _ _ _ _ ht | noTask _ ht | gotLock _ _ ht | noLock _ _ ht | dump _ ht
  | unlock _ ht => rw [ht]

/-- When the hook has thrown after a step. -/
theorem Move.threw_iff {a : Action} (h : Move s t a) :
    t.Threw ↔ s.Threw ∨ (a.isHook && s.runsEarly) = true ∨ a.failsToClose s = true := by
  cases h with
  | signal hpc ht => simp [State.Threw, ht, hpc, Action.isHook, Action.failsToClose]
  | hook fails hmove =>
    rw [hmove.threw_iff, or_iff_right hmove.not_threw]
    simp [Action.isHook, Action.failsToClose]
  | main outcome hmove => simp [State.Threw, hmove.hook, Action.isHook, Action.failsToClose]
  | handlerEnds ht => simp [State.Threw, ht, Action.isHook, Action.failsToClose]

/-- **Every step keeps the invariant.** -/
theorem inv_step {u v : Watched} (h : u.Inv) (hstep : shutdown.step u v) : v.Inv := by
  obtain ⟨a, hmove, hearly, hfailed⟩ := watched_step hstep
  constructor
  · rw [hmove.threw_iff, hearly, hfailed, h.threw, Bool.or_eq_true, Bool.or_eq_true]
    exact or_or_or_comm
  · cases hmove with
    | signal hpc ht =>
      rw [ht]
      rcases h.lock with hlocked | hended
      · exact Or.inl ⟨hlocked.lock, HookPc.noConfusion, HookPc.noConfusion⟩
      · exact Or.inr hended
    | hook fails hmove =>
      rcases h.lock with hlocked | hended
      · exact Or.inl (hmove.locked hlocked)
      · rw [hmove.main]
        exact Or.inr hended
    | main outcome hmove =>
      have hlocked : u.state.Locked := by
        rcases h.lock with hlocked | ⟨e, hended⟩
        · exact hlocked
        · exact absurd hended (hmove.running e)
      rcases hmove.lock with hlock | hended
      · refine Or.inl ⟨hlock.trans hlocked.lock, ?_, ?_⟩
        · rw [hmove.hook]
          exact hlocked.unlock
        · rw [hmove.hook]
          exact hlocked.finished
      · exact Or.inr hended
    | handlerEnds ht =>
      rw [ht]
      rcases h.lock with hlocked | hended
      · exact Or.inl ⟨hlocked.lock, hlocked.unlock, hlocked.finished⟩
      · exact Or.inr hended

theorem inv_reachable {s : Watched} (h : shutdown.Reachable s) : s.Inv := by
  refine h.invariant (P := Watched.Inv) ?_ ?_
  · intro s hs
    rw [hs]
    exact inv_start
  · intro s t _ hs hstep
    exact inv_step hs hstep

/-- A hook that has nothing left to do in a clean run has gone all its way. -/
theorem over_of_left {s : Watched} (h : s.Inv) (hclean : s.Clean) (hleft : s.state.left = 0) :
    s.state.Over := by
  cases hpc : s.state.hook with
  | finished =>
    rcases h.lock with hlocked | hended
    · exact absurd hpc hlocked.finished
    · exact Or.inl ⟨hpc, hended⟩
  | halted => exact Or.inr hpc
  | threw e =>
    rcases h.threw.mp ⟨e, hpc⟩ with hearly | hfailed
    · rw [hclean.1] at hearly
      cases hearly
    · rw [hclean.2] at hfailed
      cases hfailed
  | _ =>
    simp only [State.left, hpc] at hleft
    omega

/-- An infinite run in which the hook is not starved: with a step to take it takes it, at
some time. -/
structure FairRun (f : ℕ → Watched) (a : ℕ → Action) : Prop where
  start : f 0 = ⟨start, false, false⟩
  step : ∀ k, Watched.act (a k) (f k) = some (f (k + 1))
  hook : ∀ k, (∃ t, hookStep false (f k).state = some t) → ∃ j fails, k ≤ j ∧ a j = .hook fails

theorem FairRun.reachable {f : ℕ → Watched} {a : ℕ → Action} (h : FairRun f a) (k : ℕ) :
    shutdown.Reachable (f k) :=
  System.reachable_of_run (S := shutdown) h.start (fun k => ⟨a k, h.step k⟩) k

theorem FairRun.move {f : ℕ → Watched} {a : ℕ → Action} (h : FairRun f a) (k : ℕ) :
    Move (f k).state (f (k + 1)).state (a k) := by
  obtain ⟨t, ht, heq⟩ := Option.map_eq_some_iff.mp (h.step k)
  rw [← heq]
  exact act_move ht

/-- Once started, the hook stays started. -/
theorem Move.started {a : Action} (h : Move s t a) (hs : s.hook ≠ .notStarted) :
    t.hook ≠ .notStarted := by
  cases h with
  | signal hpc _ => exact absurd hpc hs
  | hook fails hmove =>
    cases hmove with
    | closeRegistration _ ht | complete _ ht | task _ _ _ _ _ ht | early _ _ _ _ ht
    | closeFails _ _ _ _ _ ht | noTask _ ht | gotLock _ _ ht | noLock _ _ ht | dump _ ht
    | unlock _ ht =>
      rw [ht]
      exact HookPc.noConfusion
  | main outcome hmove =>
    rw [hmove.hook]
    exact hs
  | handlerEnds ht =>
    rw [ht]
    exact hs

/-- In a fair run a hook that has been started comes to its end. -/
theorem FairRun.left_zero {f : ℕ → Watched} {a : ℕ → Action} (h : FairRun f a) {k : ℕ}
    (hstarted : (f k).state.hook ≠ .notStarted) : ∃ j, k ≤ j ∧ (f j).state.left = 0 := by
  have hon : ∀ i, (f (k + i)).state.hook ≠ .notStarted := by
    intro i
    induction i with
    | zero => exact hstarted
    | succ i ih => exact (h.move (k + i)).started ih
  obtain ⟨j, -, hj⟩ := System.eventually_zero (f := fun i => f (k + i)) (fun s => s.state.left)
    (fun i => (h.move (k + i)).left_le) (fun i hleft => by
      obtain ⟨j, fails, hij, haj⟩ := h.hook (k + i) (hookStep_some false hleft (hon i))
      have hmove := h.move j
      rw [haj] at hmove
      cases hmove with
      | hook _ hmove =>
        refine ⟨j - k, by omega, ?_⟩
        have hj : k + (j - k) = j := by omega
        have hj' : k + (j - k + 1) = j + 1 := by omega
        show (f (k + (j - k + 1))).state.left < (f (k + (j - k))).state.left
        rw [hj, hj']
        exact hmove.left_lt) 0
  exact ⟨k + j, Nat.le_add_right k j, hj⟩

/-- Where nothing can happen any more the hook has come to its end. -/
theorem stuck_left {s : Watched} (hstuck : shutdown.Stuck s) : s.state.left = 0 := by
  by_contra hleft
  have hhalted : s.state.hook ≠ .halted := by
    intro hpc
    rw [State.left, hpc] at hleft
    exact hleft (Eq.refl _)
  have hnone : ∀ a, act a s.state = none := by
    intro a
    by_contra hsome
    obtain ⟨t, ht⟩ := Option.ne_none_iff_exists'.mp hsome
    exact hstuck _ ⟨a, by rw [Watched.act, ht, Option.map_some]⟩
  by_cases hstarted : s.state.hook = .notStarted
  · have hsignal := hnone .signal
    rw [act, if_neg hhalted] at hsignal
    simp only [if_pos hstarted] at hsignal
    cases hsignal
  · obtain ⟨t, ht⟩ := hookStep_some false hleft hstarted
    have hhook := hnone (.hook false)
    rw [act, if_neg hhalted] at hhook
    simp only [ht] at hhook
    cases hhook

/-- With the hook and main at their ends only handlers end. -/
theorem handlers_of_ended {a : Action} (hpc : s.hook = .finished) (hended : ∃ e, s.main = .ended e)
    (h : act a s = some t) : t.handlers + 1 = s.handlers ∧ t.hook = .finished ∧
      ∃ e, t.main = .ended e := by
  obtain ⟨e, hended⟩ := hended
  unfold act at h
  rw [if_neg (by rw [hpc]; exact HookPc.noConfusion)] at h
  cases a with
  | signal =>
    simp only [hpc] at h
    cases h
  | hook fails =>
    simp only [hookStep, hpc] at h
    cases h
  | main outcome =>
    simp only [mainStep, hended] at h
    cases h
  | handlerEnds =>
    simp only at h
    split at h
    next => cases h
    next hrun =>
      obtain rfl := Option.some.inj h
      exact ⟨Nat.succ_pred_eq_of_pos (Nat.pos_of_ne_zero hrun), hpc, e, hended⟩

/-- **No run goes on for ever once the hook has gone all its way.** -/
theorem FairRun.not_over {f : ℕ → Watched} {a : ℕ → Action} (h : FairRun f a) (k : ℕ) :
    ¬ (f k).state.Over := by
  have hact : ∀ k, act (a k) (f k).state = some (f (k + 1)).state := by
    intro k
    obtain ⟨t, ht, heq⟩ := Option.map_eq_some_iff.mp (h.step k)
    rw [← heq]
    exact ht
  rintro (⟨hpc, hended⟩ | hhalted)
  · -- the handlers come to an end
    have hfewer : ∀ i, (f (k + i)).state.handlers + i = (f k).state.handlers ∧
        (f (k + i)).state.hook = .finished ∧ ∃ e, (f (k + i)).state.main = .ended e := by
      intro i
      induction i with
      | zero => exact ⟨Eq.refl _, hpc, hended⟩
      | succ i ih =>
        obtain ⟨hsum, hpc', hended'⟩ := ih
        obtain ⟨hone, hnext⟩ := handlers_of_ended hpc' hended' (hact (k + i))
        refine ⟨?_, hnext⟩
        show (f (k + i + 1)).state.handlers + (i + 1) = _
        omega
    obtain ⟨hsum, -⟩ := hfewer ((f k).state.handlers + 1)
    omega
  · have hstep := hact k
    unfold act at hstep
    rw [if_pos hhalted] at hstep
    cases hstep

/-- **The shutdown hook and its watchdog**, in every state of every run, at whatever moment
the hook starts and however it interleaves with main. The hook has thrown exactly if it has
run the close of the server before the field `serverSocketChannel` was assigned, or the close
of the channel itself has failed. The runs in which that is not met, and in which the hook has
been started and is not starved, come to an end, and at the end the hook has gone all its way:
it has taken the lock after the end of main, or has dumped the threads and halted. -/
theorem shutdown_watchdog (s : Watched) (h : shutdown.Reachable s) :
    (s.state.Threw ↔ s.early = true ∨ s.closeFailed = true) ∧
    (shutdown.Stuck s → s.Clean → s.state.Over) ∧
    (∀ f a k, FairRun f a → f k = s → s.state.hook ≠ .notStarted → ∃ j, ¬ (f j).Clean) := by
  refine ⟨(inv_reachable h).threw, ?_, ?_⟩
  · intro hstuck hclean
    exact over_of_left (inv_reachable h) hclean (stuck_left hstuck)
  · rintro f a k hrun rfl hstarted
    by_contra hclean
    rw [not_exists_not] at hclean
    obtain ⟨j, hkj, hleft⟩ := hrun.left_zero hstarted
    exact hrun.not_over j (over_of_left (inv_reachable (hrun.reachable j)) (hclean j) hleft)

/-- A run with the signal in the accept loop: the hook waits for the end of main. -/
theorem shutdown_watchdog_accepting :
    ∃ s, shutdown.Reachable s ∧ s.Clean ∧ ¬ s.state.Threw ∧ s.state.Over := by
  have hrun : (System.runActions Watched.act
      [.main .ok, .main .ok, .main .ok, .main .ok, .main .ok, .signal, .hook false, .hook false,
        .hook false, .hook false, .main .ok, .handlerEnds, .main .ok, .main .ok, .main .ok,
          .main .ok,
        .hook false, .hook false]
      ⟨start, false, false⟩).isSome = true := rfl
  have hreach : shutdown.Reachable _ :=
    System.reachable_of_runActions (.start (Eq.refl _)) (Option.some_get hrun).symm
  refine ⟨_, hreach, ⟨rfl, rfl⟩, fun hthrew => ?_, Or.inl ⟨rfl, none, rfl⟩⟩
  rcases (shutdown_watchdog _ hreach).1.mp hthrew with hearly | hfailed
  · cases hearly
  · cases hfailed

/-- A signal right after the registration: the hook runs the close of the server while main
is about to open its channel. It throws, and does not come to `tryLock`; main, which has
the lock, has opened and bound its channel and is about to accept connections. -/
theorem shutdown_hook_throws : ∃ s, shutdown.Reachable s ∧ s.state.hook = .threw .mustListenFirst ∧
    s.closeFailed = false ∧ s.state.runningLock = some .main ∧ s.state.main = .accept := by
  have hrun : (System.runActions Watched.act
      [.main .ok, .signal, .hook false, .hook false, .hook false, .main .ok, .main .ok, .main .ok]
      ⟨start, false, false⟩).isSome = true := rfl
  have hreach : shutdown.Reachable _ :=
    System.reachable_of_runActions (.start (Eq.refl _)) (Option.some_get hrun).symm
  exact ⟨_, hreach, rfl, rfl, rfl, rfl⟩

end ShouldIAsync.JavaEcho.Shutdown
