import ShouldIAsync.Csgb.Run

/-!
# The futex pairs of `run_futex`

Each thread of a pair waits on a futex of its own, `futex1` of the first and `futex2` of
the second. To wake its peer a thread stores 1 in the peer's futex and calls
`FUTEX_WAKE`, which are two steps; a thread that has waited stores 0 in its own. A wake
that finds nobody in `FUTEX_WAIT` does nothing.

The first thread stores before it waits and the second one after. A thread that sees
`term` stores and wakes on both futexes and returns.
-/

namespace ShouldIAsync.Csgb

open ShouldIAsync.Lib

namespace Futex

/-- The next atomic step. -/
inductive Pc
  -- the load of `term`
  | head
  -- `wake_futex` of the peer
  | store
  | wake
  -- `wait_on_futex`: `FUTEX_WAIT`, in it, and the store after it
  | wait
  | blocked
  | reset
  -- `on_cancelled`
  | cancelStore1
  | cancelWake1
  | cancelStore2
  | cancelWake2
  | returned
  deriving DecidableEq

/-- A runner of a pair. -/
structure Thread where
  pc : Pc
  count : Nat
  /-- the value of the futex the thread waits on -/
  futex : UInt32
  deriving DecidableEq

/-- The thread goes on at `pc`. -/
def Thread.goto (pc : Pc) (t : Thread) : Thread := { t with pc := pc }

/-- The value of the futex the thread waits on is `v`. -/
def Thread.value (v : UInt32) (t : Thread) : Thread := { t with futex := v }

/-- The end of an iteration. -/
def Thread.counted (t : Thread) : Thread := { t with pc := .head, count := t.count + 1 }

/-- `FUTEX_WAKE` of the thread's futex. -/
def Thread.woken (t : Thread) : Thread := if t.pc = .blocked then t.goto .reset else t

/-- A step of the thread `who`. -/
def step (who : Member) (term : Bool) (me peer : Thread) : Option (Thread × Thread) :=
  match me.pc with
  | .head =>
    some (me.goto (if term then .cancelStore1 else match who with
      | .first => .store
      | .second => .wait), peer)
  | .store => some (me.goto .wake, peer.value 1)
  | .wake =>
    some (match who with
      | .first => me.goto .wait
      | .second => me.counted, peer.woken)
  -- the kernel compares the value and blocks the caller at once
  | .wait => some (if me.futex = 0 then me.goto .blocked else me.goto .reset, peer)
  | .blocked => none
  | .reset =>
    some (match who with
      | .first => (me.value 0).counted
      | .second => (me.value 0).goto .store, peer)
  -- `futex1` is the first thread's, `futex2` the second one's
  | .cancelStore1 =>
    some (match who with
      | .first => ((me.value 1).goto .cancelWake1, peer)
      | .second => (me.goto .cancelWake1, peer.value 1))
  | .cancelWake1 =>
    some (match who with
      | .first => (me.goto .cancelStore2, peer)
      | .second => (me.goto .cancelStore2, peer.woken))
  | .cancelStore2 =>
    some (match who with
      | .first => (me.goto .cancelWake2, peer.value 1)
      | .second => ((me.value 1).goto .cancelWake2, peer))
  | .cancelWake2 =>
    some (match who with
      | .first => (me.goto .returned, peer.woken)
      | .second => (me.goto .returned, peer))
  | .returned => none

/-- `FUTEX_WAIT` returns `Interrupted`, and the loop of `wait_on_futex` calls it again. -/
def interrupt (_who : Member) (_term : Bool) (me : Thread) : Option Thread :=
  if me.pc = .blocked then some (me.goto .wait) else none

/-- A `FutexRunner` pair. -/
def runner : Runner Thread where
  start := ⟨.head, 0, 0⟩
  step := step
  interrupt := interrupt

end Futex

/-- The threads of a pair of `run_futex`. -/
def runFutex : System (Threads Futex.Thread) := Futex.runner.run

end ShouldIAsync.Csgb
