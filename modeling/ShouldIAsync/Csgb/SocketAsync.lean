import Mathlib.Data.Fintype.Basic
import ShouldIAsync.Lib.System
import ShouldIAsync.Tokio.Sync

/-!
# The socket pairs of `run_socket_async`

The two tasks of a pair send a byte back and forth over a `UnixStream::pair()` whose
calls block. Before it reads, a task waits on its `Notify`, which its peer notifies
after each write. When a task sees the term flag it writes and notifies once more, in
case its peer has not seen the flag, and meets its peer at the barrier.

All tasks run on one thread: a poll runs a task until it waits or returns, one
statement at a time here (`Action.run`). `AsyncSocket1` writes first and
`AsyncSocket2` reads first; each task keeps the `Notify` it waits on (`notify1` and
`notify2`) and what its stream has received.
-/

namespace ShouldIAsync.Csgb

open ShouldIAsync.Lib ShouldIAsync.Tokio

/-- `AsyncSocket1` or `AsyncSocket2`. -/
inductive Side
  | socket1
  | socket2
  deriving DecidableEq

def Side.other : Side → Side
  | .socket1 => .socket2
  | .socket2 => .socket1

/-- The next statement of `run_task_async` and of the functions it calls. -/
inductive Pc
  -- at the load of `term`
  | head
  -- in `one_iteration`
  | write
  | notifyOne
  | notified
  | read
  -- in `on_cancelled`
  | cancelWrite
  | cancelNotifyOne
  | cancelWait
  | waiting (generation : Nat)
  | returned
  | panicked
  deriving DecidableEq

/-- A task of a pair, and what waits for it. -/
structure Task where
  pc : Pc
  count : Nat
  buf : UInt8
  /-- received by the stream -/
  queue : List UInt8
  /-- what the task waits on -/
  notify : Notify

/-- The task has dropped its runner, and with it its stream. -/
def Task.finished (t : Task) : Bool := t.pc = .returned ∨ t.pc = .panicked

/-- The task goes on at `pc`. -/
def Task.goto (pc : Pc) (t : Task) : Task := { t with pc := pc }

/-- The end of an iteration. -/
def Task.counted (t : Task) : Task := { t with pc := .head, count := t.count + 1 }

/-- A byte arrives at the stream of the task. -/
def Task.receive (b : UInt8) (t : Task) : Task := { t with queue := t.queue ++ [b] }

/-- `notify_one` on what the task waits on -/
def Task.notifyOne (t : Task) : Task := { t with notify := t.notify.notifyOne }

/-- Where an iteration starts: the first task writes, the second one waits to be notified. -/
def Side.oneIteration : Side → Pc
  | .socket1 => .write
  | .socket2 => .notified

/-- Where it goes on after its `notify_one`. -/
def Side.afterNotifyOne : Side → Task → Task
  | .socket1 => Task.goto .notified
  | .socket2 => Task.counted

/-- And after its `read`. -/
def Side.afterRead : Side → Task → Task
  | .socket1 => Task.counted
  | .socket2 => Task.goto .write

/-- A task, its peer and their barrier. -/
abbrev Step := Task × Task × Barrier

/-- The next statement of a task, and whether it ends the poll. There is none while a
`read` blocks. -/
def Task.run (side : Side) (term : Bool) (me peer : Task) (b : Barrier) : Option (Step × Bool) :=
  match me.pc with
  | .head => some ((me.goto (if term then .cancelWrite else side.oneIteration), peer, b), false)
  | .write =>
    -- `expect("writing socket")`
    if peer.finished then some ((me.goto .panicked, peer, b), true)
    else some ((me.goto .notifyOne, peer.receive me.buf, b), false)
  | .notifyOne => some ((side.afterNotifyOne me, peer.notifyOne, b), false)
  | .notified =>
    match me.notify.pollNotified with
    | (.ready, n) => some (({ me with pc := .read, notify := n }, peer, b), false)
    | (.pending, n) => some (({ me with notify := n }, peer, b), true)
  | .read =>
    match me.queue with
    | byte :: queue =>
      some ((side.afterRead { me with buf := byte, queue := queue }, peer, b), false)
    -- the end of the stream, if it is closed
    | [] => if peer.finished then some ((side.afterRead me, peer, b), false) else none
  | .cancelWrite =>
    -- discards any error
    some ((me.goto .cancelNotifyOne, if peer.finished then peer else peer.receive me.buf, b), false)
  | .cancelNotifyOne => some ((me.goto .cancelWait, peer.notifyOne, b), false)
  | .cancelWait =>
    match b.wait with
    | (.ready, b') => some ((me.goto .returned, peer, b'), true)
    | (.pending, b') => some ((me.goto (.waiting b.generation), peer, b'), true)
  | .waiting generation =>
    match b.pollWait generation with
    | .ready => some ((me.goto .returned, peer, b), true)
    | .pending => some ((me, peer, b), true)
  | .returned | .panicked => none

/-- The two tasks and the barrier at their end. -/
structure Pair where
  socket1 : Task
  socket2 : Task
  barrier : Barrier

/-- The task on a side. -/
def Pair.task (p : Pair) : Side → Task
  | .socket1 => p.socket1
  | .socket2 => p.socket2

/-- The statement that a side is at; `true` when it yields. -/
def Pair.run (side : Side) (term : Bool) (p : Pair) : Option (Pair × Bool) :=
  match side with
  | .socket1 =>
    (p.socket1.run .socket1 term p.socket2 p.barrier).map fun ((me, peer, b), yields) =>
      (⟨me, peer, b⟩, yields)
  | .socket2 =>
    (p.socket2.run .socket2 term p.socket1 p.barrier).map fun ((me, peer, b), yields) =>
      (⟨peer, me, b⟩, yields)

/-- The pairs on the executor. -/
structure State (n : Nat) where
  pairs : Fin n → Pair
  term : Bool
  /-- the task that is being polled -/
  running : Option (Fin n × Side)

inductive Action (n : Nat)
  -- the executor polls a task
  | poll (c : Fin n) (side : Side)
  -- the task that is being polled goes on
  | run
  -- somebody sets the term flag
  | terminate

/-- What it does, or `none` where it cannot happen. -/
def act {n : Nat} : Action n → State n → Option (State n)
  | .poll c side, s =>
    if s.running = none ∧ ((s.pairs c).task side).finished = false then
      some { s with running := some (c, side) }
    else none
  | .run, s =>
    match s.running with
    | none => none
    | some (c, side) =>
      ((s.pairs c).run side s.term).map fun (p, yields) =>
        { s with
          pairs := Function.update s.pairs c p
          running := if yields then none else s.running }
  | .terminate, s => if s.term then none else some { s with term := true }

/-- A task that has not been polled yet. -/
def Task.spawned : Task := ⟨.head, 0, 0, [], .new⟩

/-- Two such tasks, and a barrier for two. -/
def Pair.spawned : Pair := ⟨.spawned, .spawned, .new 2 (by decide)⟩

/-- All tasks have been spawned and none has been polled. -/
def State.spawned (n : Nat) : State n := ⟨fun _ => .spawned, false, none⟩

/-- `run_socket_async(n, term)` -/
def runSocketAsync (n : Nat) : System (State n) := .ofActions (fun s => s = .spawned n) act

/-- A poll of the task would find it still waiting. -/
def Task.blocked (b : Barrier) (t : Task) : Bool :=
  match t.pc with
  | .notified => t.notify.waiter = .waiting
  | .waiting generation => b.pollWait generation = .pending
  | _ => false

/-- Somebody has not returned, and whoever has not is waiting. -/
def Pair.Deadlocked (p : Pair) : Prop :=
  (∃ side, (p.task side).pc ≠ .returned) ∧
    ∀ side, (p.task side).pc ≠ .returned → (p.task side).blocked p.barrier = true

end ShouldIAsync.Csgb
