import ShouldIAsync.Lib.System

/-!
# A pair of threads under `run`

`run` starts its threads, and each of them alternates between a load of `term` and an
iteration of its runner. The runners that come in pairs only share memory, or sockets,
with their peer. A `Runner` gives the atomic steps of such a thread; what it shares with
its peer is part of its own state or of the peer's.

An invariant of a pair is stated from the side of one of its threads (`who`) and holds
from the other side as well; one rule carries it through every interleaving
(`Runner.Invariant.reachable`).
-/

namespace ShouldIAsync.Csgb

open ShouldIAsync.Lib

/-- `is_first_in_pair` -/
inductive Member
  | first
  | second
  deriving DecidableEq

/-- The peer of a member. -/
def Member.other : Member → Member
  | .first => .second
  | .second => .first

@[simp] theorem Member.other_other (who : Member) : who.other.other = who := by
  cases who <;> rfl

/-- A kind of runner: the two threads of a pair with their atomic steps. -/
structure Runner (T : Type) where
  start : T
  /-- The next step of a thread, given the value of `term`: the thread and its peer
  afterwards, or `none` if it is blocked or has returned. -/
  step : Member → Bool → T → T → Option (T × T)
  /-- A signal interrupts the call the thread is blocked in. -/
  interrupt : Member → Bool → T → Option T

/-- The two threads of a pair, and `term`. -/
structure Threads (T : Type) where
  first : T
  second : T
  term : Bool

variable {T : Type}

/-- The state of a member. -/
def Threads.thread (s : Threads T) : Member → T
  | .first => s.first
  | .second => s.second

/-- The pair with `me` and `peer` in the places of `who` and its peer. -/
def Threads.set (s : Threads T) (who : Member) (me peer : T) : Threads T :=
  match who with
  | .first => { s with first := me, second := peer }
  | .second => { s with first := peer, second := me }

inductive ThreadAction
  | step (who : Member)
  | interrupt (who : Member)
  -- somebody sets `term`
  | terminate

/-- What it does, or `none` where it cannot happen. -/
def Runner.act (R : Runner T) : ThreadAction → Threads T → Option (Threads T)
  | .step who, s =>
    (R.step who s.term (s.thread who) (s.thread who.other)).map fun (me, peer) => s.set who me peer
  | .interrupt who, s =>
    (R.interrupt who s.term (s.thread who)).map fun me => s.set who me (s.thread who.other)
  | .terminate, s => if s.term then none else some { s with term := true }

/-- Both threads at their start. -/
def Runner.threads (R : Runner T) : Threads T := ⟨R.start, R.start, false⟩

/-- `run`, seen by the threads of a pair. -/
def Runner.run (R : Runner T) : System (Threads T) := .ofActions (fun s => s = R.threads) R.act

/-- An invariant of a pair, from the side of `who`. -/
structure Runner.Invariant (R : Runner T) (P : Member → Bool → T → T → Prop) : Prop where
  swap : ∀ {who term me peer}, P who term me peer → P who.other term peer me
  start : P .first false R.start R.start
  step : ∀ {who term me peer me' peer'}, P who term me peer →
    R.step who term me peer = some (me', peer') → P who term me' peer'
  interrupt : ∀ {who term me peer me'}, P who term me peer → R.interrupt who term me = some me' →
    P who term me' peer
  terminate : ∀ {who term me peer}, P who term me peer → P who true me peer

section Invariant

variable {R : Runner T} {P : Member → Bool → T → T → Prop}

/-- Whoever changes its state and its peer's from one side has changed the pair. -/
theorem Runner.Invariant.set (h : R.Invariant P) {s : Threads T} {who : Member} {me peer : T}
    (hP : P who s.term me peer) : P .first s.term (s.set who me peer).first
      (s.set who me peer).second := by
  cases who with
  | first => exact hP
  | second => exact h.swap hP

theorem Runner.Invariant.thread (h : R.Invariant P) {s : Threads T}
    (hP : P .first s.term s.first s.second) (who : Member) :
    P who s.term (s.thread who) (s.thread who.other) := by
  cases who with
  | first => exact hP
  | second => exact h.swap hP

@[simp] theorem Threads.set_term (s : Threads T) (who : Member) (me peer : T) :
    (s.set who me peer).term = s.term := by
  cases who <;> rfl

/-- Each action keeps an invariant of the two threads. -/
theorem Runner.Invariant.act (h : R.Invariant P) {a : ThreadAction} {s t : Threads T}
    (hP : P .first s.term s.first s.second) (hact : R.act a s = some t) :
    P .first t.term t.first t.second := by
  cases a with
  | step who =>
    obtain ⟨⟨me, peer⟩, hstep, rfl⟩ := Option.map_eq_some_iff.mp hact
    rw [Threads.set_term]
    exact h.set (h.step (h.thread hP who) hstep)
  | interrupt who =>
    obtain ⟨me, hint, rfl⟩ := Option.map_eq_some_iff.mp hact
    rw [Threads.set_term]
    exact h.set (h.interrupt (h.thread hP who) hint)
  | terminate =>
    simp only [Runner.act] at hact
    split at hact
    next => cases hact
    next =>
      obtain rfl := Option.some.inj hact
      exact h.terminate hP

/-- **The rule for pairs**: what a step keeps, seen from either thread, holds in every
reachable state, from the side of either thread. -/
theorem Runner.Invariant.reachable (h : R.Invariant P) {s : Threads T} (hs : R.run.Reachable s)
    (who : Member) : P who s.term (s.thread who) (s.thread who.other) := by
  refine h.thread ?_ who
  refine hs.invariant (P := fun s => P .first s.term s.first s.second) ?_ ?_
  · rintro s rfl
    exact h.start
  · rintro s t - hP ⟨a, hact⟩
    exact h.act hP hact

end Invariant

end ShouldIAsync.Csgb
