import ShouldIAsync.Echo.RoundTrip
import ShouldIAsync.Lib.Family
import ShouldIAsync.Lib.System
import Mathlib.Algebra.BigOperators.Fin
import Mathlib.Algebra.Order.BigOperators.Group.Finset
import Mathlib.Algebra.Order.Ring.Int

/-!
# The start barrier of `RunClients`

`n` goroutines, each of which runs `runClientWithRetry` and calls `Done` on the wait
group once: in `barrierFunc`, after its first round trip, or deferred, if it never came
to that. Connections are whatever they are here: dialling, the first round trip and any
later one may fail in any way, and a client may find itself stopped whenever it looks.

That `Done` is not called twice comes down to the errors: only a client that has not been
through `barrierFunc` is retried, as the error of a later iteration is no
`firstIterationErr` (`iterationError_final`).
-/

namespace ShouldIAsync.Echo

open ShouldIAsync.GoStd ShouldIAsync.Lib

namespace StartBarrier

/-- Where a goroutine is; `attempt` is the `i` of `runClientWithRetry`, `i` the one of
`runRoundTripLoop`. -/
inductive Pc
  | dial (attempt : Nat)
  -- at the stop conditions
  | head (attempt i : Nat) (done : Bool)
  -- in `runIteration`
  | iteration (attempt i : Nat)
  -- `barrierFunc`: `reachedBarrier = true`, `Done()`, `Wait()`
  | barrierSet (attempt : Nat) (done : Bool)
  | barrierDone (attempt : Nat) (done : Bool)
  | barrierWait (attempt : Nat) (done : Bool)
  -- the deferred function
  | deferred (err : Option EchoError)
  | returned (err : Option EchoError)

/-- A client in `runClientWithRetry`. -/
structure Goroutine where
  pc : Pc
  reachedBarrier : Bool
  /-- how often it has called `Done` -/
  dones : Nat
  /-- the round trips counted -/
  count : Nat

/-- What the connection and the stop conditions come up with. -/
structure Choice where
  /-- the error of `dialAndTest`: the semaphore's, or a `dialErr` -/
  dial : Option (Option ConnError)
  stopCh : Bool
  /-- what `runIteration` returns: `done`, or the error of `writeBytes` or `readBytes` -/
  iteration : Except (ConnError × Option Bytes) Bool

/-- The error of `dialAndTest`. -/
def dialError : Option ConnError → EchoError
  | none => .acquire
  | some cause => .dial cause

/-- The error of `runIteration`, with the bytes if `readBytes` has failed. -/
def iterationError : ConnError × Option Bytes → EchoError
  | (cause, none) => .writeBytes cause
  | (cause, some bytes) => .readBytes bytes cause

/-- `runClientWithRetry` after an attempt. -/
def finish (attempt : Nat) (err : Option EchoError) : Pc :=
  if isErrorRetriable err then
    if attempt + 1 < maxRetries then .dial (attempt + 1)
      else .deferred (some (.exhausted maxRetries err))
  else .deferred err

/-- The next step of a goroutine, given the counter of the wait group: the counter and the
goroutine afterwards. -/
def Goroutine.step (numIterations : Nat) (ch : Choice) (counter : Int) (g : Goroutine) :
    Option (Int × Goroutine) :=
  match g.pc with
  | .dial attempt =>
    match ch.dial with
    | some e => some (counter, { g with pc := finish attempt (some (dialError e)) })
    | none => some (counter, { g with pc := .head attempt 0 false })
  | .head attempt i done =>
    if done ∨ (numIterations ≠ 0 ∧ numIterations ≤ i) ∨ ch.stopCh then
      some (counter, { g with pc := finish attempt none })
    else some (counter, { g with pc := .iteration attempt i })
  | .iteration attempt i =>
    match ch.iteration with
    | .error e =>
      let err := if i = 0 then .firstIteration (iterationError e) else iterationError e
      some (counter, { g with pc := finish attempt (some err) })
    | .ok done =>
      if numIterations ≠ 0 ∧ done then
        some (counter, { g with pc := finish attempt (some .stopOnIterations) })
      else
        some (counter, { g with
          pc := if i = 0 then .barrierSet attempt done else .head attempt (i + 1) done
          count := g.count + 1 })
  | .barrierSet attempt done =>
    some (counter, { g with pc := .barrierDone attempt done, reachedBarrier := true })
  | .barrierDone attempt done =>
    some (counter - 1, { g with pc := .barrierWait attempt done, dones := g.dones + 1 })
  | .barrierWait attempt done =>
    if counter = 0 then some (counter, { g with pc := .head attempt 1 done }) else none
  | .deferred err =>
    if g.reachedBarrier then some (counter, { g with pc := .returned err })
    else some (counter - 1, { g with pc := .returned err, dones := g.dones + 1 })
  | .returned _ => none

/-- The clients and the wait group they share. -/
structure State (n : Nat) where
  goroutines : Fin n → Goroutine
  /-- the counter of the wait group -/
  waitGroup : Int

/-- All clients are about to dial, and the counter is their number. -/
def start (n : Nat) : State n := ⟨fun _ => ⟨.dial 0, false, 0, 0⟩, n⟩

/-- Goroutine `c` takes a step. -/
def act (numIterations : Nat) {n : Nat} : Fin n × Choice → State n → Option (State n)
  | (c, ch), s =>
    ((s.goroutines c).step numIterations ch s.waitGroup).map fun (counter, g) =>
      ⟨Function.update s.goroutines c g, counter⟩

/-- `RunClients` with `n` clients. -/
def runClients (numIterations n : Nat) : System (State n) :=
  .ofActions (fun s => s = start n) (act numIterations)

/-- Past the barrier, in the second iteration or a later one. -/
def Goroutine.inSecondIteration (g : Goroutine) : Bool :=
  match g.pc with
  | .head _ i _ | .iteration _ i => 1 ≤ i
  | _ => false

/-- The client has returned. -/
def Goroutine.hasReturned (g : Goroutine) : Bool :=
  match g.pc with
  | .returned _ => true
  | _ => false

/-- The client is in `connectBarrier.Wait()`. -/
def Goroutine.atWait (g : Goroutine) : Bool :=
  match g.pc with
  | .barrierWait .. => true
  | _ => false

/-! ## One goroutine -/

/-- What a goroutine has done where. -/
def Goroutine.Placed (g : Goroutine) : Prop :=
  match g.pc with
  | .dial _ => g.reachedBarrier = false ∧ g.dones = 0
  | .head _ i _ | .iteration _ i =>
    if i = 0 then g.reachedBarrier = false ∧ g.dones = 0
    else g.reachedBarrier = true ∧ g.dones = 1 ∧ 0 < g.count
  | .barrierSet .. => g.reachedBarrier = false ∧ g.dones = 0 ∧ 0 < g.count
  | .barrierDone .. => g.reachedBarrier = true ∧ g.dones = 0 ∧ 0 < g.count
  | .barrierWait .. => g.reachedBarrier = true ∧ g.dones = 1 ∧ 0 < g.count
  | .deferred _ => g.dones = g.reachedBarrier.toNat ∧ (g.reachedBarrier = true → 0 < g.count)
  | .returned _ => g.dones = 1

/-- A goroutine that has not been through the barrier may try again. -/
theorem finish_before {g : Goroutine} {attempt : Nat} {err : Option EchoError}
    (hreached : g.reachedBarrier = false) (hdones : g.dones = 0) :
    Goroutine.Placed { g with pc := finish attempt err } := by
  have hdeferred : ∀ err, Goroutine.Placed { g with pc := .deferred err } := by
    intro err
    refine ⟨?_, fun h => ?_⟩
    · show g.dones = g.reachedBarrier.toNat
      rw [hreached, hdones]
      exact Eq.refl _
    · rw [show g.reachedBarrier = true from h] at hreached
      cases hreached
  unfold finish
  split
  · split
    · exact ⟨hreached, hdones⟩
    · exact hdeferred _
  · exact hdeferred _

/-- One that has been through it ends, if it fails with an error that is not retriable. -/
theorem finish_after {g : Goroutine} {attempt : Nat} {err : Option EchoError}
    (herr : isErrorRetriable err = false) (hreached : g.reachedBarrier = true)
    (hdones : g.dones = 1)
    (hcount : 0 < g.count) : Goroutine.Placed { g with pc := finish attempt err } := by
  unfold finish
  rw [herr]
  refine ⟨?_, fun _ => hcount⟩
  show g.dones = g.reachedBarrier.toNat
  rw [hreached, hdones]
  exact Eq.refl _

/-- The end of an attempt in the loop. -/
theorem finish_in_loop {g : Goroutine} {attempt i : Nat} {err : Option EchoError}
    (h : if i = 0 then g.reachedBarrier = false ∧ g.dones = 0
      else g.reachedBarrier = true ∧ g.dones = 1 ∧ 0 < g.count)
    (herr : i ≠ 0 → isErrorRetriable err = false) :
    Goroutine.Placed { g with pc := finish attempt err } := by
  by_cases hi : i = 0
  · rw [if_pos hi] at h
    exact finish_before h.1 h.2
  · rw [if_neg hi] at h
    exact finish_after (herr hi) h.1 h.2.1 h.2.2

/-- The error of an iteration is only retriable as a `firstIterationErr`. -/
theorem iterationError_final (e : ConnError × Option Bytes) :
    isErrorRetriable (some (iterationError e)) = false := by
  obtain ⟨cause, bytes⟩ := e
  cases bytes <;> simp [iterationError, isErrorRetriable, EchoError.isFirstIteration,
    EchoError.isDial]

/-- What a step of a goroutine does to the wait group: it takes off as many as the
goroutine has called `Done`, and a goroutine only passes `Wait` at zero. -/
structure Goroutine.Stepped (counter counter' : Int) (g g' : Goroutine) : Prop where
  placed : g'.Placed
  dones : g.dones ≤ g'.dones
  sum : counter' + g'.dones = counter + g.dones
  second : g'.inSecondIteration = true → g.inSecondIteration = true ∨ counter = 0

/-- A step that leaves the wait group alone. -/
theorem Goroutine.Stepped.quiet {counter : Int} {g g' : Goroutine} (hplaced : g'.Placed)
    (hdones : g'.dones = g.dones)
    (hsecond : g'.inSecondIteration = true → g.inSecondIteration = true ∨ counter = 0) :
    Goroutine.Stepped counter counter g g' :=
  ⟨hplaced, Nat.le_of_eq hdones.symm, by rw [hdones], hsecond⟩

/-- A client whose attempt is over is not in its second iteration. -/
theorem finish_not_second (g : Goroutine) (attempt : Nat) (err : Option EchoError) :
    Goroutine.inSecondIteration { g with pc := finish attempt err } = false := by
  unfold finish
  split
  · split <;> exact Eq.refl _
  · exact Eq.refl _

section Step

variable {numIterations : Nat} {ch : Choice} {counter counter' : Int} {g g' : Goroutine}

/-- The end of an attempt. -/
theorem finish_stepped {attempt : Nat} {err : Option EchoError}
    (hplaced : Goroutine.Placed { g with pc := finish attempt err }) :
    Goroutine.Stepped counter counter g { g with pc := finish attempt err } := by
  refine .quiet hplaced (Eq.refl _) fun h => ?_
  rw [finish_not_second] at h
  cases h

/-- Each step of a client is `Stepped`. -/
theorem step_placed (h : g.Placed) (hstep : g.step numIterations ch counter = some (counter', g')) :
    Goroutine.Stepped counter counter' g g' := by
  unfold Goroutine.Placed at h
  unfold Goroutine.step at hstep
  cases hpc : g.pc with
  | dial attempt =>
    rw [hpc] at h hstep
    obtain ⟨hreached, hdones⟩ := h
    cases hdial : ch.dial with
    | some e =>
      simp only [hdial] at hstep
      obtain ⟨rfl, rfl⟩ := Prod.mk.inj (Option.some.inj hstep)
      exact finish_stepped (finish_before hreached hdones)
    | none =>
      simp only [hdial] at hstep
      obtain ⟨rfl, rfl⟩ := Prod.mk.inj (Option.some.inj hstep)
      refine .quiet ⟨hreached, hdones⟩ (Eq.refl _) fun hs => ?_
      cases hs
  | head attempt i done =>
    rw [hpc] at h hstep
    simp only at h hstep
    split at hstep
    next =>
      obtain ⟨rfl, rfl⟩ := Prod.mk.inj (Option.some.inj hstep)
      exact finish_stepped (finish_in_loop h fun _ => Eq.refl _)
    next =>
      obtain ⟨rfl, rfl⟩ := Prod.mk.inj (Option.some.inj hstep)
      refine .quiet h (Eq.refl _) fun hs => Or.inl ?_
      unfold Goroutine.inSecondIteration
      rw [hpc]
      exact hs
  | iteration attempt i =>
    rw [hpc] at h hstep
    simp only at h
    cases hit : ch.iteration with
    | error e =>
      simp only [hit] at hstep
      obtain ⟨rfl, rfl⟩ := Prod.mk.inj (Option.some.inj hstep)
      refine finish_stepped (finish_in_loop h fun hi => ?_)
      rw [if_neg hi]
      exact iterationError_final e
    | ok done =>
      simp only [hit] at hstep
      split at hstep
      next =>
        obtain ⟨rfl, rfl⟩ := Prod.mk.inj (Option.some.inj hstep)
        exact finish_stepped (finish_in_loop h fun _ => Eq.refl _)
      next =>
        obtain ⟨rfl, rfl⟩ := Prod.mk.inj (Option.some.inj hstep)
        by_cases hi : i = 0
        · rw [if_pos hi] at h
          rw [if_pos hi]
          refine .quiet ⟨h.1, h.2, Nat.succ_pos _⟩ (Eq.refl _) fun hs => ?_
          cases hs
        · rw [if_neg hi] at h
          rw [if_neg hi]
          refine .quiet ?_ (Eq.refl _) fun _ => Or.inl ?_
          · unfold Goroutine.Placed
            simp only
            rw [if_neg (Nat.succ_ne_zero i)]
            exact ⟨h.1, h.2.1, Nat.succ_pos _⟩
          · unfold Goroutine.inSecondIteration
            rw [hpc]
            exact decide_eq_true (Nat.one_le_iff_ne_zero.mpr hi)
  | barrierSet attempt done =>
    rw [hpc] at h hstep
    obtain ⟨rfl, rfl⟩ := Prod.mk.inj (Option.some.inj hstep)
    refine .quiet ⟨Eq.refl _, h.2⟩ (Eq.refl _) fun hs => ?_
    cases hs
  | barrierDone attempt done =>
    rw [hpc] at h hstep
    obtain ⟨rfl, rfl⟩ := Prod.mk.inj (Option.some.inj hstep)
    obtain ⟨hreached, hdones, hcount⟩ := h
    refine ⟨⟨hreached, ?_, hcount⟩, Nat.le_succ _, ?_, fun hs => by cases hs⟩
    · show g.dones + 1 = 1
      rw [hdones]
    · show counter - 1 + ((g.dones + 1 : Nat) : Int) = _
      omega
  | barrierWait attempt done =>
    rw [hpc] at h hstep
    simp only at hstep
    split at hstep
    next hzero =>
      obtain ⟨rfl, rfl⟩ := Prod.mk.inj (Option.some.inj hstep)
      exact .quiet h (Eq.refl _) fun _ => Or.inr hzero
    next => cases hstep
  | deferred err =>
    rw [hpc] at h hstep
    obtain ⟨hdones, hcount⟩ := h
    simp only at hstep
    split at hstep
    next hreached =>
      obtain ⟨rfl, rfl⟩ := Prod.mk.inj (Option.some.inj hstep)
      rw [hreached] at hdones
      exact .quiet hdones (Eq.refl _) fun hs => by cases hs
    next hreached =>
      obtain ⟨rfl, rfl⟩ := Prod.mk.inj (Option.some.inj hstep)
      rw [Bool.eq_false_iff.mpr hreached] at hdones
      refine ⟨?_, Nat.le_succ _, ?_, fun hs => by cases hs⟩
      · show g.dones + 1 = 1
        rw [hdones]
        exact Eq.refl _
      · show counter - 1 + ((g.dones + 1 : Nat) : Int) = _
        omega
  | returned err =>
    rw [hpc] at hstep
    cases hstep

end Step

/-! ## All goroutines -/

variable {numIterations n : Nat} {s : State n}

/-- What holds between any two steps. -/
structure Inv (s : State n) : Prop where
  placed : ∀ c, (s.goroutines c).Placed
  counter : s.waitGroup + ∑ c, ((s.goroutines c).dones : Int) = n
  second : ∀ c, (s.goroutines c).inSecondIteration = true → s.waitGroup = 0

/-- No client calls `Done` twice. -/
theorem Goroutine.Placed.dones_le {g : Goroutine} (h : g.Placed) : g.dones ≤ 1 := by
  unfold Goroutine.Placed at h
  split at h
  next => omega
  next =>
    split at h
    · omega
    · omega
  next =>
    split at h
    · omega
    · omega
  next => omega
  next => omega
  next => omega
  next =>
    rw [h.1]
    exact Bool.toNat_le _
  next => omega

/-- Who has called `Done` has made a round trip or returned. -/
theorem Goroutine.Placed.of_done {g : Goroutine} (h : g.Placed) (hdone : g.dones = 1) :
    0 < g.count ∨ g.hasReturned = true := by
  unfold Goroutine.Placed at h
  cases hpc : g.pc with
  | returned err =>
    right
    unfold Goroutine.hasReturned
    rw [hpc]
  | deferred err =>
    rw [hpc] at h
    left
    refine h.2 ?_
    by_contra hreached
    rw [h.1, Bool.eq_false_iff.mpr hreached] at hdone
    cases hdone
  | head attempt i done =>
    rw [hpc] at h
    simp only at h
    by_cases hi : i = 0
    · rw [if_pos hi] at h
      omega
    · rw [if_neg hi] at h
      exact Or.inl h.2.2
  | iteration attempt i =>
    rw [hpc] at h
    simp only at h
    by_cases hi : i = 0
    · rw [if_pos hi] at h
      omega
    · rw [if_neg hi] at h
      exact Or.inl h.2.2
  | dial attempt =>
    rw [hpc] at h
    omega
  | barrierSet attempt done =>
    rw [hpc] at h
    exact Or.inl h.2.2
  | barrierDone attempt done =>
    rw [hpc] at h
    exact Or.inl h.2.2
  | barrierWait attempt done =>
    rw [hpc] at h
    exact Or.inl h.2.2

/-- The counter does not become negative. -/
theorem Inv.waitGroup_nonneg (h : Inv s) : 0 ≤ s.waitGroup := by
  have hle : ∑ c, ((s.goroutines c).dones : Int) ≤ ∑ _c : Fin n, 1 :=
    Finset.sum_le_sum fun c _ => by exact_mod_cast (h.placed c).dones_le
  have hcounter := h.counter
  simp only [Finset.sum_const, Finset.card_univ, Fintype.card_fin, nsmul_eq_mul, mul_one] at hle
  omega

/-- At zero everybody has called `Done`. -/
theorem Inv.all_done (h : Inv s) (hzero : s.waitGroup = 0) (c : Fin n) :
    (s.goroutines c).dones = 1 := by
  have hcounter := h.counter
  have hsum : ∑ c, ((s.goroutines c).dones : Int) = ∑ _c : Fin n, 1 := by
    simp only [Finset.sum_const, Finset.card_univ, Fintype.card_fin, nsmul_eq_mul, mul_one]
    omega
  have hall := (Finset.sum_eq_sum_iff_of_le fun c _ => by
    exact_mod_cast (h.placed c).dones_le).mp hsum
  exact_mod_cast hall c (Finset.mem_univ c)

/-- Above zero somebody has not. -/
theorem Inv.somebody_left (h : Inv s) (hpos : s.waitGroup ≠ 0) :
    ∃ c, (s.goroutines c).dones = 0 := by
  by_contra hnone
  have hall : ∀ c, (s.goroutines c).dones = 1 := by
    intro c
    have hle := (h.placed c).dones_le
    have hne : (s.goroutines c).dones ≠ 0 := fun hz => hnone ⟨c, hz⟩
    omega
  have hcounter := h.counter
  simp only [hall, Nat.cast_one, Finset.sum_const, Finset.card_univ, Fintype.card_fin, nsmul_eq_mul,
    mul_one] at hcounter
  omega

theorem inv_start (n : Nat) : Inv (start n) := by
  refine ⟨fun c => ⟨Eq.refl _, Eq.refl _⟩, ?_, fun c hs => ?_⟩
  · simp [start]
  · cases hs

/-- **Every step keeps the invariant.** -/
theorem inv_step {t : State n} (h : Inv s) (hstep : (runClients numIterations n).step s t) :
    Inv t := by
  obtain ⟨⟨c, ch⟩, hact⟩ := hstep
  obtain ⟨⟨counter, g⟩, hg, rfl⟩ := Option.map_eq_some_iff.mp hact
  have hstepped := step_placed (h.placed c) hg
  have hdones :=
    Family.sum_update_add (f := s.goroutines) (i := c) (x := g) fun _ g => (g.dones : Int)
  have hcounter := h.counter
  have hplaced : ∀ c', (Function.update s.goroutines c g c').Placed :=
    (Function.forall_update_iff s.goroutines fun _ g => g.Placed).mpr ⟨hstepped.placed,
      fun c' _ => h.placed c'⟩
  -- at zero the step has not called `Done`, as everybody has
  have hzero : s.waitGroup = 0 → counter = 0 := by
    intro hz
    have hdone := h.all_done hz c
    have hle := hstepped.placed.dones_le
    have := hstepped.sum
    have := hstepped.dones
    omega
  refine ⟨hplaced, ?_, ?_⟩
  · show counter + ∑ c', ((Function.update s.goroutines c g c').dones : Int) = n
    have := hstepped.sum
    omega
  · intro c' hs
    have hs : (Function.update s.goroutines c g c').inSecondIteration = true := hs
    apply hzero
    by_cases hc : c' = c
    · rw [hc, Function.update_self] at hs
      rcases hstepped.second hs with hbefore | hz
      · exact h.second c hbefore
      · exact hz
    · rw [Function.update_of_ne hc] at hs
      exact h.second c' hs

theorem runClients_reachable (h : (runClients numIterations n).Reachable s) : Inv s := by
  refine h.invariant (P := Inv) ?_ ?_
  · intro s hs
    rw [hs]
    exact inv_start n
  · intro s t _ hs hstep
    exact inv_step hs hstep

/-! ## The payoff -/

/-- **The start barrier.** `Done` is called at most once by each client, and once by each
that has returned; the counter does not become negative; a client in its second iteration
finds that all clients have made a round trip or returned; and while a client is held up in
`Wait`, another one has not called `Done` yet and has not returned. -/
theorem start_barrier (numIterations n : Nat) (s : State n)
    (h : (runClients numIterations n).Reachable s) :
    (∀ c, (s.goroutines c).dones ≤ 1 ∧
      ((s.goroutines c).hasReturned = true → (s.goroutines c).dones = 1)) ∧
    0 ≤ s.waitGroup ∧
    (∀ c, (s.goroutines c).inSecondIteration = true →
      ∀ c', 0 < (s.goroutines c').count ∨ (s.goroutines c').hasReturned = true) ∧
    ∀ c, (s.goroutines c).atWait = true → s.waitGroup ≠ 0 →
      ∃ c', c' ≠ c ∧ (s.goroutines c').dones = 0 ∧ (s.goroutines c').hasReturned = false := by
  have hinv := runClients_reachable h
  have hreturned : ∀ c, (s.goroutines c).hasReturned = true → (s.goroutines c).dones = 1 := by
    intro c hret
    have hplaced := hinv.placed c
    unfold Goroutine.hasReturned at hret
    unfold Goroutine.Placed at hplaced
    split at hret
    next hpc =>
      rw [hpc] at hplaced
      exact hplaced
    next => cases hret
  refine ⟨fun c => ⟨(hinv.placed c).dones_le, hreturned c⟩, hinv.waitGroup_nonneg, ?_, ?_⟩
  · intro c hs c'
    exact (hinv.placed c').of_done (hinv.all_done (hinv.second c hs) c')
  · intro c hwait hpos
    obtain ⟨c', hdones⟩ := hinv.somebody_left hpos
    refine ⟨c', ?_, hdones, ?_⟩
    · rintro rfl
      have hplaced := hinv.placed c'
      unfold Goroutine.atWait at hwait
      unfold Goroutine.Placed at hplaced
      split at hwait
      next hpc =>
        rw [hpc] at hplaced
        rw [hplaced.2.1] at hdones
        cases hdones
      next => cases hwait
    · by_contra hret
      have := hreturned c' (by simpa using hret)
      omega

/-- Of two clients the first one waits, and the other one could not dial yet. -/
theorem start_barrier_two :
    ∃ s, (runClients 0 2).Reachable s ∧ (s.goroutines 0).atWait = true ∧ s.waitGroup = 1 ∧
      ∃ c', c' ≠ 0 ∧ (s.goroutines c').dones = 0 ∧ (s.goroutines c').hasReturned = false := by
  have hrun : (System.runActions (act 0)
      [(0, ⟨none, false, .ok false⟩), (1, ⟨some (some .connReset), false, .ok false⟩),
        (0, ⟨none, false, .ok false⟩), (0, ⟨none, false, .ok false⟩), (0, ⟨none, false, .ok false⟩),
        (0, ⟨none, false, .ok false⟩)] (start 2)).isSome = true := rfl
  have hreach : (runClients 0 2).Reachable _ :=
    System.reachable_of_runActions (.start (Eq.refl _)) (Option.some_get hrun).symm
  exact ⟨_, hreach, rfl, rfl, (start_barrier 0 2 _ hreach).2.2.2 0 rfl Int.one_ne_zero⟩

end StartBarrier

end ShouldIAsync.Echo
