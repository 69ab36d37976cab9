import ShouldIAsync.Csgb.RunThreads
import ShouldIAsync.Lib.Family

/-!
# `run_yield` and `run_sleep`

Their runners make a system call in each iteration and panic unless it comes back as it should:
`sched_yield` with no error, `nanosleep` with none or interrupted by a signal. The threads have
nothing to do with each other, and `on_cancelled` does nothing.

A run that has been told to end returns the sum of the counts if no call has come back in another
way, and panics otherwise, in both cases after all its threads have ended (`run_yield_sleep_end`).
-/

namespace ShouldIAsync.Csgb

open ShouldIAsync.Lib

namespace Calls

/-- What a system call returns, and `errno` after it. -/
structure SysRet where
  ret : Int
  errno : Int
  deriving DecidableEq

/-- `libc::EINTR` -/
def eintr : Int := 4

/-- The results of `sched_yield` on which `yield_or_panic` does not panic. -/
def yieldOrPanic (r : SysRet) : Bool := r = ⟨0, 0⟩

/-- The results of `nanosleep` on which `sleep_or_panic` does not. -/
def sleepOrPanic (r : SysRet) : Bool := r = ⟨0, 0⟩ ∨ r = ⟨-1, eintr⟩

inductive Pc
  -- the load of `term`
  | head
  | call
  | returned
  | panicked (r : SysRet)
  deriving DecidableEq

/-- A thread that makes system calls. -/
structure Thread where
  pc : Pc
  count : Nat

/-- The load of `term` of a thread, or its call with what the system gives. -/
inductive Action (n : Nat)
  | load (i : Fin n)
  | call (i : Fin n) (r : SysRet)

/-- Whose action it is. -/
def Action.thread {n : Nat} : Action n → Fin n
  | .load i | .call i _ => i

/-- The thread looks at `term`. -/
def Thread.load (term : Bool) (t : Thread) : Option Thread :=
  if t.pc = .head then some { t with pc := if term then .returned else .call } else none

/-- The call is counted if its result is accepted; any other result is a panic. -/
def Thread.call (accepts : SysRet → Bool) (r : SysRet) (t : Thread) : Option Thread :=
  if t.pc = .call then
    if accepts r then some { t with pc := .head, count := t.count + 1 }
    else some { t with pc := .panicked r }
  else none

/-- A step of the thread. -/
def Thread.step {n : Nat} (accepts : SysRet → Bool) (a : Action n) (term : Bool) (t : Thread) :
    Option Thread :=
  match a with
  | .load _ => t.load term
  | .call _ r => t.call accepts r

/-- How a thread has ended, if it has. -/
def exit (t : Thread) : Option Exit :=
  match t.pc with
  | .returned => some (.returned t.count)
  | .panicked _ => some .panicked
  | .head | .call => none

/-- `n` threads whose iterations are a system call. -/
def program (accepts : SysRet → Bool) (n : Nat) : Program (Fin n) (Action n) (Fin n → Thread) where
  threadIds := List.finRange n
  start := fun _ => ⟨.head, 0⟩
  thread := Action.thread
  act a term m := ((m a.thread).step accepts a term).map (Function.update m a.thread)
  exit i m := exit (m i)

end Calls

/-- The threads of `run_yield(num_threads, term)`. -/
def runYield (n : Nat) : Program (Fin n) (Calls.Action n) (Fin n → Calls.Thread) :=
  Calls.program Calls.yieldOrPanic n

/-- The threads of `run_sleep(num_threads, sleep_ns, term)`. -/
def runSleep (n : Nat) : Program (Fin n) (Calls.Action n) (Fin n → Calls.Thread) :=
  Calls.program Calls.sleepOrPanic n

namespace Calls

variable {n : Nat} {accepts : SysRet → Bool}

/-- The steps a thread has left once `term` is set. -/
def left (t : Thread) : Nat :=
  match t.pc with
  | .head => 1
  | .call => 2
  | .returned | .panicked _ => 0

/-- A thread that takes a step is not at its end, and `term` brings it nearer to that. -/
theorem step_cases {a : Action n} {term : Bool} {t t' : Thread}
    (h : t.step accepts a term = some t') :
    (t.pc = .head ∧ t' = { t with pc := if term then .returned else .call }) ∨
    (t.pc = .call ∧ (∃ r, accepts r = true) ∧ t' = { t with pc := .head, count := t.count + 1 }) ∨
    (t.pc = .call ∧ ∃ r, accepts r = false ∧ t' = { t with pc := .panicked r }) := by
  cases a with
  | load i =>
    simp only [Thread.step, Thread.load] at h
    split at h
    next hpc => exact Or.inl ⟨hpc, (Option.some.inj h).symm⟩
    next => cases h
  | call i r =>
    simp only [Thread.step, Thread.call] at h
    split at h
    next hpc =>
      split at h
      next hr => exact Or.inr (Or.inl ⟨hpc, ⟨r, hr⟩, (Option.some.inj h).symm⟩)
      next hr => exact Or.inr (Or.inr ⟨hpc, r, by simpa using hr, (Option.some.inj h).symm⟩)
    next => cases h

/-- A thread that can go on has not ended. -/
theorem exit_of_step {a : Action n} {term : Bool} {t t' : Thread}
    (h : t.step accepts a term = some t') :
    exit t = none := by
  unfold exit
  obtain ⟨hpc, -⟩ | ⟨hpc, -⟩ | ⟨hpc, -⟩ := step_cases h <;> rw [hpc]

/-- After `term` each step brings a thread nearer to its end. -/
theorem left_lt {a : Action n} {t t' : Thread} (h : t.step accepts a true = some t') :
    left t' < left t := by
  unfold left
  obtain ⟨hpc, rfl⟩ | ⟨hpc, -, rfl⟩ | ⟨hpc, r, -, rfl⟩ := step_cases h
  · rw [hpc]
    exact Nat.zero_lt_succ 0
  · rw [hpc]
    exact Nat.lt_succ_self 1
  · rw [hpc]
    exact Nat.zero_lt_succ 1

/-- Each thread ends once `term` is set. -/
theorem winds : (program accepts n).Winds (fun _ => True) fun m => ∑ i, left (m i) where
  keeps := by
    intro a term m m' i e hact he
    obtain ⟨t, ht, rfl⟩ := Option.map_eq_some_iff.mp hact
    show exit (Function.update m a.thread t i) = some e
    by_cases hi : i = a.thread
    · obtain rfl := hi
      have he : exit (m a.thread) = some e := he
      rw [exit_of_step ht] at he
      cases he
    · rw [Function.update_of_ne hi]
      exact he
  left_lt := by
    intro a m m' _ hact
    obtain ⟨t, ht, rfl⟩ := Option.map_eq_some_iff.mp hact
    exact Family.sum_update_lt (w := fun _ => left) (left_lt ht)
  goesOn := by
    intro m i _ _ hnone
    have hnone : exit (m i) = none := hnone
    unfold exit at hnone
    split at hnone
    next => cases hnone
    next => cases hnone
    next hpc =>
      refine ⟨.load i, trivial, ?_⟩
      show (((m i).load true).map _).isSome = true
      rw [Thread.load, if_pos hpc]
      rfl
    next hpc =>
      refine ⟨.call i ⟨0, 0⟩, trivial, ?_⟩
      show (((m i).call accepts ⟨0, 0⟩).map _).isSome = true
      rw [Thread.call, if_pos hpc]
      split <;> rfl

/-- Only a result that is not accepted makes a thread panic. -/
theorem panicked_unaccepted {m : Fin n → Thread} {term : Bool}
    (h : (program accepts n).threads.Reachable (m, term))
    (i : Fin n) (r : SysRet) (hpc : (m i).pc = .panicked r) : accepts r = false := by
  refine h.invariant (P := fun m => ∀ r, (m.1 i).pc = .panicked r → accepts r = false) ?_ ?_ r hpc
  · rintro m rfl r hr
    cases hr
  · rintro ⟨m, term⟩ ⟨m', term'⟩ - hm hstep r hr
    rcases hstep with ⟨a, hact, -⟩ | ⟨-, heq⟩
    · obtain ⟨t, ht, rfl⟩ := Option.map_eq_some_iff.mp hact
      replace hr : (Function.update m a.thread t i).pc = .panicked r := hr
      by_cases hi : i = a.thread
      · rw [hi, Function.update_self] at hr
        obtain ⟨-, rfl⟩ | ⟨-, -, rfl⟩ | ⟨-, r', hr', rfl⟩ := step_cases ht
        · cases term <;> cases hr
        · cases hr
        · cases hr
          exact hr'
      · rw [Function.update_of_ne hi] at hr
        exact hm r hr
    · obtain ⟨rfl, -⟩ := Prod.mk.inj heq
      exact hm r hr

/-- A thread gives its count when it returns. -/
theorem exit_eq_returned {t : Thread} {c : Nat} (h : exit t = some (.returned c)) :
    t.pc = .returned ∧ c = t.count := by
  unfold exit at h
  split at h
  next hpc =>
    cases h
    exact ⟨hpc, rfl⟩
  next => cases h
  next => cases h
  next => cases h

/-- A thread that has panicked did so at a result. -/
theorem exit_eq_panicked {t : Thread} (h : exit t = some .panicked) : ∃ r, t.pc = .panicked r := by
  unfold exit at h
  split at h
  next => cases h
  next r hpc => exact ⟨r, hpc⟩
  next => cases h
  next => cases h

/-- The ends of `run`: all its threads have returned, or one has panicked and no thread is still
running. -/
structure Ended (accepts : SysRet → Bool) (s : RunState (Fin n) (Fin n → Thread)) : Prop where
  result : s.main = .returned (∑ i, (s.threads i).count) ∨ s.main = .panicked
  threads : ∀ i, (s.threads i).pc = .returned ∨ ∃ r, (s.threads i).pc = .panicked r ∧
    accepts r = false
  panicked : s.main = .panicked ↔ ∃ i, (s.threads i).pc ≠ .returned

end Calls

open Calls in
theorem run_calls_ends (n : Nat) (accepts : SysRet → Bool) :
    System.EveryRunEnds ((Calls.program accepts n).afterTerm fun _ =>
      True) (Calls.Ended accepts) := by
  refine winds.everyRunEnds fun s hs hended hjoined => ?_
  have hreach := Program.refines.reachable hs
  have hthread : ∀ i, ((program accepts n).exit i s.threads).isSome = true →
      (s.threads i).pc = .returned ∨ ∃ r, (s.threads i).pc = .panicked r ∧ accepts r = false := by
    intro i hi
    obtain ⟨e, he⟩ := Option.isSome_iff_exists.mp hi
    cases e with
    | returned c => exact Or.inl (exit_eq_returned he).1
    | panicked =>
      obtain ⟨r, hr⟩ := exit_eq_panicked he
      exact Or.inr ⟨r, hr, panicked_unaccepted hreach i r hr⟩
  cases hm : s.main with
  | spawning rest =>
    rw [hm] at hended
    exact hended.elim
  | joining rest totalCount =>
    rw [hm] at hended
    exact hended.elim
  | unwinding rest =>
    rw [hm] at hended
    exact hended.elim
  | returned totalCount =>
    rw [hm] at hjoined
    obtain ⟨counts, hexit, rfl⟩ := hjoined
    have hret : ∀ i, (s.threads i).pc = .returned := by
      intro i
      have hmem :=
        List.mem_map_of_mem (f := fun i => (program accepts n).exit i s.threads)
        (List.mem_finRange i)
      rw [show List.finRange n = (program accepts n).threadIds from rfl, hexit] at hmem
      obtain ⟨c, -, hc⟩ := List.mem_map.mp hmem
      exact (exit_eq_returned hc.symm).1
    have hcounts : counts = (List.finRange n).map fun i => (s.threads i).count := by
      have hinj : Function.Injective fun c => some (Exit.returned c) :=
        fun a b hab => Exit.returned.inj (Option.some.inj hab)
      refine List.map_injective_iff.mpr hinj ?_
      rw [← hexit, List.map_map]
      refine List.map_congr_left fun i _ => ?_
      show exit (s.threads i) = some (.returned (s.threads i).count)
      unfold exit
      rw [hret i]
    refine ⟨Or.inl ?_, fun i => Or.inl (hret i), ?_⟩
    · rw [hm, hcounts, Fin.sum_univ_def]
    · rw [hm]
      exact ⟨fun h => (nomatch h), fun ⟨i, hi⟩ => absurd (hret i) hi⟩
  | panicked =>
    rw [hm] at hjoined
    obtain ⟨hsome, i, -, hpanic⟩ := hjoined
    obtain ⟨r, hr⟩ := exit_eq_panicked hpanic
    refine ⟨Or.inr hm, fun i => hthread i (hsome i (List.mem_finRange i)), fun _ => ⟨i, ?_⟩,
      fun _ => hm⟩
    rw [hr]
    exact Pc.noConfusion

/-- **`run_yield` and `run_sleep` end after the signal.** They return the sum of the counts if every
call of every thread has come back with a result that is accepted, and panic otherwise, after all
threads have ended. -/
theorem run_yield_sleep_end (n : Nat) :
    System.EveryRunEnds ((runYield n).afterTerm fun _ => True) (Calls.Ended Calls.yieldOrPanic) ∧
      System.EveryRunEnds ((runSleep n).afterTerm fun _ => True) (Calls.Ended Calls.sleepOrPanic) :=
  ⟨run_calls_ends n Calls.yieldOrPanic, run_calls_ends n Calls.sleepOrPanic⟩

end ShouldIAsync.Csgb
