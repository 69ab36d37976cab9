import ShouldIAsync.Lib.System
import Mathlib.Algebra.BigOperators.Group.List.Basic
import Mathlib.Algebra.GroupWithZero.Nat

/-!
# `run` and its threads

`run` spawns its threads one after another in a `thread::scope`, joins them in the same order and
adds up what they return. Threads run from when they are spawned on, so some may have seen `term`
before others are there. The `unwrap` of a `join` passes the panic of a thread on; the scope still
waits for the threads that are left.

What the threads do is a parameter (`Program`). If each of them comes to an end once `term` is set
(`Program.Winds`), every run of `run` does (`Program.Winds.everyRunEnds`), and `run` has returned
the sum of all counts or some thread has panicked. The counts and their sum are `u64` in the
source. They do not overflow: it would take 2^64 round trips.
-/

namespace ShouldIAsync.Csgb

open ShouldIAsync.Lib

/-- What `join` gives. -/
inductive Exit
  | returned (count : Nat)
  | panicked
  deriving DecidableEq

/-- The threads: their ids in the order of `thread_id`, what they work on, and their atomic steps,
given the value of `term`. -/
structure Program (ι α σ : Type) where
  threadIds : List ι
  start : σ
  thread : α → ι
  act : α → Bool → σ → Option σ
  exit : ι → σ → Option Exit

/-- Where the thread that called `run` is; `rest` are the threads not spawned, or not joined. -/
inductive Main (ι : Type)
  | spawning (rest : List ι)
  | joining (rest : List ι) (totalCount : Nat)
  | returned (totalCount : Nat)
  -- the scope waits, after a panic
  | unwinding (rest : List ι)
  | panicked

/-- `run`, its threads and `term`. -/
structure RunState (ι σ : Type) where
  main : Main ι
  threads : σ
  term : Bool

inductive RunAction (α : Type)
  | main
  | thread (a : α)
  -- a signal sets `term`
  | terminate

variable {ι α σ : Type}

/-- The thread has been spawned. -/
def Main.hasSpawned [DecidableEq ι] (i : ι) : Main ι → Bool
  | .spawning rest => i ∉ rest
  | _ => true

/-- At the end of `run`. -/
def Main.Ended : Main ι → Prop
  | .returned _ | .panicked => True
  | _ => False

namespace Program

variable (P : Program ι α σ)

/-- The next step of the thread that called `run`. -/
def mainStep (threads : σ) : Main ι → Option (Main ι)
  | .spawning [] => some (.joining P.threadIds 0)
  | .spawning (_ :: rest) => some (.spawning rest)
  | .joining [] totalCount => some (.returned totalCount)
  | .joining (i :: rest) totalCount =>
    match P.exit i threads with
    | none => none
    | some (.returned count) => some (.joining rest (totalCount + count))
    | some .panicked => some (.unwinding rest)
  | .unwinding [] => some .panicked
  | .unwinding (i :: rest) => if (P.exit i threads).isSome then some (.unwinding rest) else none
  | .returned _ | .panicked => none

theorem mainStep_joining (threads : σ) (i : ι) (rest : List ι) (totalCount : Nat) :
    P.mainStep threads (.joining (i :: rest) totalCount) =
      match P.exit i threads with
      | none => none
      | some (.returned count) => some (.joining rest (totalCount + count))
      | some .panicked => some (.unwinding rest) := rfl

theorem mainStep_unwinding (threads : σ) (i : ι) (rest : List ι) :
    P.mainStep threads (.unwinding (i :: rest)) =
      if (P.exit i threads).isSome then some (.unwinding rest) else none := rfl

variable [DecidableEq ι]

/-- What it does, or `none` where it cannot happen. -/
def step : RunAction α → RunState ι σ → Option (RunState ι σ)
  | .main, s => (P.mainStep s.threads s.main).map fun main => { s with main := main }
  | .thread a, s =>
    if s.main.hasSpawned (P.thread a) then (P.act a s.term s.threads).map fun threads =>
      { s with threads := threads }
    else none
  | .terminate, s => if s.term then none else some { s with term := true }

/-- `run(num_threads, term, runner_generator)` -/
def run : System (RunState ι σ) :=
  .ofActions (fun s => s = ⟨.spawning P.threadIds, P.start, false⟩) P.step

/-- The threads by themselves, all of them there from the start. -/
def threads : System (σ × Bool) where
  init m := m = (P.start, false)
  step m m' := (∃ a, P.act a m.2 m.1 = some m'.1 ∧ m'.2 = m.2) ∨ (m.2 = false ∧ m' = (m.1, true))

/-! ## What a step can do -/

variable {P}

/-- A step is one of `run` itself, one of a thread, or the signal. -/
theorem step_cases {a : RunAction α} {s t : RunState ι σ} (h : P.step a s = some t) :
    (a = .main ∧ P.mainStep s.threads s.main = some t.main ∧ t.threads = s.threads ∧
      t.term = s.term) ∨
    (∃ b, a = .thread b ∧ s.main.hasSpawned (P.thread b) = true ∧
      P.act b s.term s.threads = some t.threads ∧ t.main = s.main ∧ t.term = s.term) ∨
    (a = .terminate ∧ s.term = false ∧ t = { s with term := true }) := by
  cases a with
  | main =>
    left
    obtain ⟨main, hmain, rfl⟩ := Option.map_eq_some_iff.mp h
    exact ⟨rfl, hmain, rfl, rfl⟩
  | thread b =>
    right; left
    simp only [step] at h
    split at h
    next hspawned =>
      obtain ⟨threads, hact, rfl⟩ := Option.map_eq_some_iff.mp h
      exact ⟨b, rfl, hspawned, hact, rfl, rfl⟩
    next => cases h
  | terminate =>
    right; right
    simp only [step] at h
    split at h
    next => cases h
    next hterm =>
      obtain rfl := Option.some.inj h
      exact ⟨rfl, by simpa using hterm, rfl⟩

/-- `run` only takes steps of its threads away. -/
theorem refines : System.Refines P.run P.threads fun s => (s.threads, s.term) where
  init := by
    rintro s rfl
    rfl
  step := by
    rintro s t - ⟨a, hact⟩
    obtain ⟨-, -, hthreads, hterm⟩ | ⟨b, -, -, hthreads, -, hterm⟩ | ⟨-, hterm, rfl⟩ :=
      step_cases hact
    · right
      rw [hthreads, hterm]
    · left; left
      exact ⟨b, hthreads, hterm⟩
    · left; right
      exact ⟨hterm, rfl⟩

/-! ## Joining -/

variable (P) in
/-- What is known of the threads that have been joined. -/
def Joined (threads : σ) : Main ι → Prop
  | .spawning _ => True
  | .joining rest totalCount =>
    ∃ (done : List ι) (counts : List Nat), done ++ rest = P.threadIds ∧
      done.map (fun i => P.exit i threads) = counts.map (fun c => some (.returned c)) ∧
        totalCount = counts.sum
  | .returned totalCount =>
    ∃ counts : List Nat, P.threadIds.map (fun i => P.exit i threads) =
      counts.map (fun c => some (.returned c)) ∧ totalCount = counts.sum
  | .unwinding rest =>
    ∃ done : List ι, done ++ rest = P.threadIds ∧ (∀ i ∈ done, (P.exit i threads).isSome = true) ∧
      ∃ i ∈ done, P.exit i threads = some .panicked
  | .panicked =>
    (∀ i ∈ P.threadIds, (P.exit i threads).isSome = true) ∧ ∃ i ∈ P.threadIds, P.exit i threads =
      some .panicked

omit [DecidableEq ι] in

/-- A thread that has given a count has ended. -/
theorem isSome_of_counts {done : List ι} {counts : List Nat} {threads : σ}
    (h : done.map (fun i => P.exit i threads) = counts.map (fun c => some (.returned c))) {i : ι}
    (hi : i ∈ done) :
    (P.exit i threads).isSome = true := by
  have hmem : P.exit i threads ∈ counts.map (fun c => some (Exit.returned c)) := by
    rw [← h]
    exact List.mem_map_of_mem hi
  obtain ⟨c, -, hc⟩ := List.mem_map.mp hmem
  rw [← hc]
  rfl

omit [DecidableEq ι] in
/-- A step of `run` itself. -/
theorem joined_main {threads : σ} {m m' : Main ι} (h : P.Joined threads m)
    (hstep : P.mainStep threads m = some m') :
    P.Joined threads m' := by
  unfold mainStep at hstep
  split at hstep
  next =>
    cases hstep
    exact ⟨[], [], rfl, rfl, rfl⟩
  next =>
    cases hstep
    trivial
  next =>
    cases hstep
    obtain ⟨done, counts, hdone, hexit, hsum⟩ := h
    rw [List.append_nil] at hdone
    exact ⟨counts, hdone ▸ hexit, hsum⟩
  next i rest totalCount =>
    obtain ⟨done, counts, hdone, hexit, hsum⟩ := h
    have hdone' : (done ++ [i]) ++ rest = P.threadIds := by rw [List.append_assoc]; exact hdone
    split at hstep
    next => cases hstep
    next count hcount =>
      cases hstep
      refine ⟨done ++ [i], counts ++ [count], hdone', ?_, ?_⟩
      · rw [List.map_append, List.map_append, hexit, List.map_singleton, List.map_singleton, hcount]
      · rw [List.sum_append, List.sum_singleton, hsum]
    next hpanic =>
      cases hstep
      refine ⟨done ++ [i], hdone', ?_, i, List.mem_concat_self, hpanic⟩
      intro j hj
      rcases List.mem_append.mp hj with hj | hj
      · exact isSome_of_counts hexit hj
      · obtain rfl := List.mem_singleton.mp hj
        rw [hpanic]
        rfl
  next =>
    cases hstep
    obtain ⟨done, hdone, hsome, i, hi, hpanic⟩ := h
    rw [List.append_nil] at hdone
    exact ⟨hdone ▸ hsome, i, hdone ▸ hi, hpanic⟩
  next i rest =>
    obtain ⟨done, hdone, hsome, j, hj, hpanic⟩ := h
    split at hstep
    next hexit =>
      cases hstep
      refine ⟨done ++
        [i], by rw [List.append_assoc]; exact hdone, ?_, j, List.mem_append_left _ hj, hpanic⟩
      intro k hk
      rcases List.mem_append.mp hk with hk | hk
      · exact hsome k hk
      · obtain rfl := List.mem_singleton.mp hk
        exact hexit
    next => cases hstep
  next => cases hstep
  next => cases hstep

omit [DecidableEq ι] in
/-- A step of the threads, which keeps what has been joined. -/
theorem joined_threads {threads threads' : σ} {m : Main ι} (h : P.Joined threads m)
    (hkeeps : ∀ i e, P.exit i threads = some e →
      P.exit i threads' = some e) : P.Joined threads' m := by
  have hisSome : ∀ i, (P.exit i threads).isSome = true → (P.exit i threads').isSome = true := by
    intro i hi
    obtain ⟨e, he⟩ := Option.isSome_iff_exists.mp hi
    rw [hkeeps i e he]
    rfl
  have hmap : ∀ (done : List ι) (counts : List Nat),
      done.map (fun i => P.exit i threads) = counts.map (fun c => some (.returned c)) →
      done.map (fun i => P.exit i threads') = counts.map (fun c => some (.returned c)) := by
    intro done counts hexit
    rw [← hexit]
    refine List.map_congr_left fun i hi => ?_
    obtain ⟨e, he⟩ := Option.isSome_iff_exists.mp (isSome_of_counts hexit hi)
    rw [he, hkeeps i e he]
  cases m with
  | spawning rest => trivial
  | joining rest totalCount =>
    obtain ⟨done, counts, hdone, hexit, hsum⟩ := h
    exact ⟨done, counts, hdone, hmap done counts hexit, hsum⟩
  | returned totalCount =>
    obtain ⟨counts, hexit, hsum⟩ := h
    exact ⟨counts, hmap _ counts hexit, hsum⟩
  | unwinding rest =>
    obtain ⟨done, hdone, hsome, i, hi, hpanic⟩ := h
    exact ⟨done, hdone, fun j hj => hisSome j (hsome j hj), i, hi, hkeeps i _ hpanic⟩
  | panicked =>
    obtain ⟨hsome, i, hi, hpanic⟩ := h
    exact ⟨fun j hj => hisSome j (hsome j hj), i, hi, hkeeps i _ hpanic⟩

/-- A thread that has come to its end stays as it is. -/
def Keeps (P : Program ι α σ) : Prop :=
  ∀ a term m m' i e, P.act a term m = some m' → P.exit i m = some e → P.exit i m' = some e

/-- In each run the total is that of the threads that have been joined. -/
theorem Keeps.joined (hkeeps : P.Keeps) {s : RunState ι σ} (h : P.run.Reachable s) :
    P.Joined s.threads s.main := by
  refine h.invariant (P := fun s => P.Joined s.threads s.main) ?_ ?_
  · rintro s rfl
    trivial
  · rintro s t - hs ⟨a, hact⟩
    obtain ⟨-, hmain, hthreads, -⟩ | ⟨b, -, -, hthreads, hmain, -⟩ | ⟨-, -, rfl⟩ := step_cases hact
    · rw [hthreads]
      exact joined_main hs hmain
    · rw [hmain]
      exact joined_threads hs fun i e he => hkeeps b s.term s.threads t.threads i e hthreads he
    · exact hs

/-! ## After the signal -/

/-- The runs from when `term` is set, in which the threads take the steps `ok` only. -/
def afterTerm (P : Program ι α σ) (ok : α → Prop) : System (RunState ι σ) where
  init s := P.run.Reachable s ∧ s.term = true
  step s t := ∃ a, (∀ b, a = .thread b → ok b) ∧ P.step a s = some t

/-- The threads wind down once `term` is set: each step brings them nearer to their end, and while
one of them is not there some step is possible. -/
structure Winds (P : Program ι α σ) (ok : α → Prop) (left : σ → Nat) : Prop where
  keeps : P.Keeps
  left_lt : ∀ {a m m'}, ok a → P.act a true m = some m' → left m' < left m
  goesOn : ∀ {m i}, P.threads.Reachable (m, true) → i ∈ P.threadIds → P.exit i m = none →
    ∃ a, ok a ∧ (P.act a true m).isSome = true

variable {ok : α → Prop} {left : σ → Nat}

theorem afterTerm_reachable {s : RunState ι σ} (h : (P.afterTerm ok).Reachable s) :
    P.run.Reachable s ∧ s.term = true := by
  refine h.invariant (fun s hs => hs) ?_
  rintro s t - ⟨hs, hterm⟩ ⟨a, -, hact⟩
  refine ⟨.next hs ⟨a, hact⟩, ?_⟩
  obtain ⟨-, -, -, h⟩ | ⟨-, -, -, -, -, h⟩ | ⟨-, -, rfl⟩ := step_cases hact
  · rw [h, hterm]
  · rw [h, hterm]
  · rfl

/-- What `run` itself has left to do. -/
def mainLeft (P : Program ι α σ) : Main ι → Nat
  | .spawning rest => rest.length + P.threadIds.length + 3
  | .joining rest _ => rest.length + 2
  | .unwinding rest => rest.length + 1
  | .returned _ | .panicked => 0

omit [DecidableEq ι] in

/-- Each step of `run` brings it nearer to its end. -/
theorem mainLeft_lt {threads : σ} {m m' : Main ι} (h : P.mainStep threads m = some m') :
    P.mainLeft m' < P.mainLeft m := by
  unfold mainStep at h
  split at h
  next =>
    cases h
    show P.threadIds.length + 2 < 0 + P.threadIds.length + 3
    omega
  next rest =>
    cases h
    show rest.length + P.threadIds.length + 3 < rest.length + 1 + P.threadIds.length + 3
    omega
  next =>
    cases h
    show 0 < 0 + 2
    omega
  next i rest totalCount =>
    split at h
    next => cases h
    next =>
      cases h
      show rest.length + 2 < rest.length + 1 + 2
      omega
    next =>
      cases h
      show rest.length + 1 < rest.length + 1 + 2
      omega
  next =>
    cases h
    exact Nat.zero_lt_succ 0
  next i rest =>
    split at h
    next =>
      cases h
      exact Nat.lt_succ_self (rest.length + 1)
    next => cases h
  next => cases h
  next => cases h

/-- After `term` each step brings the threads or `run` nearer to their ends. -/
theorem Winds.lt (h : P.Winds ok left) {s t : RunState ι σ} (hs : (P.afterTerm ok).Reachable s)
    (hstep : (P.afterTerm ok).step s t) :
    left t.threads + P.mainLeft t.main < left s.threads + P.mainLeft s.main := by
  obtain ⟨a, hok, hact⟩ := hstep
  have hterm := (afterTerm_reachable hs).2
  obtain ⟨-, hmain, hthreads, -⟩ | ⟨b, rfl, -, hthreads, hmain, -⟩ | ⟨-, hfalse, -⟩ :=
    step_cases hact
  · rw [hthreads]
    exact Nat.add_lt_add_left (mainLeft_lt hmain) _
  · rw [hmain]
    rw [hterm] at hthreads
    exact Nat.add_lt_add_right (h.left_lt (hok b rfl) hthreads) _
  · rw [hterm] at hfalse
    cases hfalse

/-- Whoever waits waits for a thread that is not at its end. -/
theorem Winds.ended (h : P.Winds ok left) {s : RunState ι σ} (hs : (P.afterTerm ok).Reachable s)
    (hstuck : (P.afterTerm ok).Stuck s) : Main.Ended s.main := by
  obtain ⟨hrun, hterm⟩ := afterTerm_reachable hs
  have hjoined := h.keeps.joined hrun
  have hthreads : P.threads.Reachable (s.threads, true) := hterm ▸ refines.reachable hrun
  have hmain : P.mainStep s.threads s.main = none := by
    cases hm : P.mainStep s.threads s.main with
    | none => rfl
    | some m =>
      have hact : P.step .main s = some { s with main := m } := by
        show (P.mainStep s.threads s.main).map _ = _
        rw [hm]
        rfl
      exact absurd ⟨.main, fun _ hb => (nomatch hb), hact⟩ (hstuck { s with main := m })
  have hexits : (∀ i, s.main.hasSpawned i = true) →
      ∀ i ∈ P.threadIds, (P.exit i s.threads).isSome = true := by
    intro hspawned i hi
    by_contra hnone
    obtain ⟨a, hok, hact⟩ := h.goesOn hthreads hi (Option.not_isSome_iff_eq_none.mp hnone)
    obtain ⟨m', hm'⟩ := Option.isSome_iff_exists.mp hact
    have hstep : P.step (.thread a) s = some { s with threads := m' } := by
      show (if s.main.hasSpawned (P.thread a) then _ else _) = _
      rw [if_pos (hspawned _), hterm, hm']
      rfl
    exact absurd ⟨.thread a, fun b hb => RunAction.thread.inj hb ▸ hok, hstep⟩
      (hstuck { s with threads := m' })
  cases hm : s.main with
  | spawning rest =>
    rw [hm] at hmain
    cases rest <;> cases hmain
  | joining rest totalCount =>
    rw [hm] at hmain hexits hjoined
    obtain ⟨done, counts, hdone, -, -⟩ := hjoined
    cases rest with
    | nil => cases hmain
    | cons i rest =>
      have hi : i ∈ P.threadIds := hdone ▸ List.mem_append_right _ List.mem_cons_self
      obtain ⟨e, he⟩ := Option.isSome_iff_exists.mp (hexits (fun _ => rfl) i hi)
      rw [mainStep_joining, he] at hmain
      cases e <;> cases hmain
  | returned totalCount => trivial
  | unwinding rest =>
    rw [hm] at hmain hexits hjoined
    obtain ⟨done, hdone, -, -⟩ := hjoined
    cases rest with
    | nil => cases hmain
    | cons i rest =>
      have hi : i ∈ P.threadIds := hdone ▸ List.mem_append_right _ List.mem_cons_self
      rw [mainStep_unwinding, if_pos (hexits (fun _ => rfl) i hi)] at hmain
      cases hmain
  | panicked => trivial

/-- **`run` ends** after the signal, and with what its threads have come to. -/
theorem Winds.everyRunEnds (h : P.Winds ok left) {Q : RunState ι σ → Prop}
    (hQ : ∀ s, P.run.Reachable s → Main.Ended s.main → P.Joined s.threads s.main → Q s) :
    System.EveryRunEnds (P.afterTerm ok) Q :=
  System.everyRunEnds_of_measure wellFounded_lt (fun s => left s.threads + P.mainLeft s.main)
    (fun _ _ hs hstep => h.lt hs hstep)
    fun s hs hstuck =>
      hQ s (afterTerm_reachable hs).1 (h.ended hs hstuck)
      (h.keeps.joined (afterTerm_reachable hs).1)

end Program

end ShouldIAsync.Csgb
