import ShouldIAsync.Echo.StartBarrier

/-!
# Retrying a client

`runClientWithRetry` calls `runClient` up to three times. The model gives each attempt what
its connection and its stop conditions come up with, as far as it gets (`Attempt`), and has it
list what it does to the metrics and the barrier (`Event`).

All of it hangs on the errors: an attempt that is retried has failed to dial or in its first
iteration (`runClient_events`), so nothing that is done once per attempt has been done by
the ones before it. `retry_events` says what the list of a whole run is, `retry_made` which
attempts are made and what succeeds in them, and `client_with_retry` reads off what follows.
-/

namespace ShouldIAsync.Echo.Retry

open ShouldIAsync.GoStd ShouldIAsync.Echo.StartBarrier

/-- What `runRoundTripLoop` finds at its stop conditions and in `runIteration`: `done`, or the
error of `writeBytes` or `readBytes`. -/
structure Look where
  stopCh : Bool
  iteration : Except (ConnError × Option Bytes) Bool

/-- A call of `runClient`: the error of `dialAndTest`, if any, and what the loop finds, one
iteration after the other. If it is to go on for longer the call does not return. -/
structure Attempt where
  dial : Option (Option ConnError)
  looks : List Look

/-- What `connMetricsSet`, the barrier and the calls of `runClient` see. -/
inductive Event
  -- `runClient` is called
  | attempt
  -- `runIteration` has returned no error, and passed the check for an unexpected EOF
  | success
  -- `connMetricsSet.newConn()`
  | newConn
  -- `cm.count++`
  | count
  -- `connectBarrier()`
  | connectBarrier
  deriving DecidableEq, Repr

/-- What a call has done so far, and what it has returned, if it has. -/
structure Course where
  events : List Event
  result : Option (Option EchoError)

/-- The course of a call that has done `events` before. -/
def Course.after (events : List Event) (c : Course) : Course :=
  { c with events := events ++ c.events }

/-- `runRoundTripLoop` from iteration `i` on; `cm` says whether `cm` is set. -/
def runRoundTripLoop (numIterations : Nat) (looks : List Look) (i : Nat) (done cm : Bool) :
    Course :=
  if done then ⟨[], some none⟩
  else if numIterations ≠ 0 ∧ numIterations ≤ i then ⟨[], some none⟩
  else
    match looks with
    | [] => ⟨[], none⟩
    | look :: looks =>
      if look.stopCh then ⟨[], some none⟩
      else
        match look.iteration with
        | .error e =>
          ⟨[], some (some (if i = 0 then .firstIteration (iterationError e) else iterationError e))⟩
        | .ok done =>
          if numIterations ≠ 0 ∧ done then ⟨[], some (some .stopOnIterations)⟩
          else
            (runRoundTripLoop numIterations looks (i + 1) done true).after
              (.success :: (if cm then [] else [.newConn]) ++
                .count :: (if i = 0 then [.connectBarrier] else []))

def runClient (numIterations : Nat) (a : Attempt) : Course :=
  match a.dial with
  | some e => ⟨[.attempt], some (some (dialError e))⟩
  | none => (runRoundTripLoop numIterations a.looks 0 false false).after [.attempt]

/-- The attempts of `runClientWithRetry` from the `i`th on, `left` of them. -/
def retryFrom (numIterations : Nat) (attempts : Nat → Attempt) :
    (left i : Nat) → Option EchoError → Course
  | 0, _, err => ⟨[], some (some (.exhausted maxRetries err))⟩
  | left + 1, i, _ =>
    match (runClient numIterations (attempts i)).result with
    | none => runClient numIterations (attempts i)
    | some err =>
      if isErrorRetriable err then
        (retryFrom numIterations attempts left (i + 1) err).after
          (runClient numIterations (attempts i)).events
      else runClient numIterations (attempts i)

def runClientWithRetry (numIterations : Nat) (attempts : Nat → Attempt) : Course :=
  retryFrom numIterations attempts maxRetries 0 none

/-- What an event does to the counts of `connMetricsSet`, newest first: `cm` is the newest. -/
def record : List Nat → Event → List Nat
  | counts, .newConn => 0 :: counts
  | n :: counts, .count => (n + 1) :: counts
  | counts, _ => counts

/-- The counts that the events leave in `connMetricsSet`. -/
def recorded (events : List Event) : List Nat := events.foldl record []

/-! ## One attempt -/

/-- What is done from the second iteration on. -/
structure Later (events : List Event) : Prop where
  noAttempt : .attempt ∉ events
  noConn : .newConn ∉ events
  noBarrier : .connectBarrier ∉ events
  counted : events.count .count = events.count .success

variable {numIterations : Nat}

theorem later_nil : Later [] := ⟨by simp, by simp, by simp, rfl⟩

/-- How iteration `i` goes. -/
inductive Iteration (numIterations : Nat) (looks : List Look) (i : Nat) (cm : Bool) : Course → Prop
  | running : Iteration numIterations looks i cm ⟨[], none⟩
  | stopped : Iteration numIterations looks i cm ⟨[], some none⟩
  | failed (e : ConnError × Option Bytes) : Iteration numIterations looks i cm
      ⟨[], some (some (if i = 0 then .firstIteration (iterationError e) else iterationError e))⟩
  | unexpectedEof : Iteration numIterations looks i cm ⟨[], some (some .stopOnIterations)⟩
  | success {look : Look} {rest : List Look} (hlooks : looks = look :: rest) (done : Bool) :
      Iteration numIterations looks i cm
        ((runRoundTripLoop numIterations rest (i + 1) done true).after
          (.success :: (if cm then [] else [.newConn]) ++
            .count :: (if i = 0 then [.connectBarrier] else [])))

/-- One turn of the loop is an `Iteration`. -/
theorem loop_iteration (numIterations : Nat) (looks : List Look) (i : Nat) (done cm : Bool) :
    Iteration numIterations looks i cm (runRoundTripLoop numIterations looks i done cm) := by
  unfold runRoundTripLoop
  by_cases hdone : done = true
  · rw [if_pos hdone]
    exact .stopped
  rw [if_neg hdone]
  by_cases hi : numIterations ≠ 0 ∧ numIterations ≤ i
  · rw [if_pos hi]
    exact .stopped
  rw [if_neg hi]
  cases looks with
  | nil => exact .running
  | cons look rest =>
    dsimp only
    by_cases hstop : look.stopCh = true
    · rw [if_pos hstop]
      exact .stopped
    rw [if_neg hstop]
    cases look.iteration with
    | error e => exact .failed e
    | ok done' =>
      dsimp only
      by_cases heof : numIterations ≠ 0 ∧ done' = true
      · rw [if_pos heof]
        exact .unexpectedEof
      · rw [if_neg heof]
        exact .success rfl done'

/-- What a call of `runClient` returned is final. -/
def Final (c : Course) : Prop := ∀ err, c.result = some err → isErrorRetriable err = false

theorem Later.after {c : Course} (h : Later c.events) :
    Later (c.after [.success, .count]).events := by
  obtain ⟨h1, h2, h3, h4⟩ := h
  unfold Course.after
  refine ⟨?_, ?_, ?_, ?_⟩
  · simpa using h1
  · simpa using h2
  · simpa using h3
  · simpa using h4

/-- After the first iteration there is no `newConn` and no barrier any more. -/
theorem iteration_later {looks : List Look} {i : Nat} {c : Course}
    (h : Iteration numIterations looks (i + 1) true c)
    (hrest : ∀ look rest, looks = look :: rest → ∀ done,
      Later (runRoundTripLoop numIterations rest (i + 1 + 1) done true).events ∧
        Final (runRoundTripLoop numIterations rest (i + 1 + 1) done true)) :
    Later c.events ∧ Final c := by
  cases h with
  | running =>
    refine ⟨later_nil, ?_⟩
    intro err herr
    cases herr
  | stopped =>
    refine ⟨later_nil, ?_⟩
    intro err herr
    cases herr
    rfl
  | failed e =>
    refine ⟨later_nil, ?_⟩
    intro err herr
    cases herr
    rw [if_neg (Nat.succ_ne_zero i)]
    exact iterationError_final e
  | unexpectedEof =>
    refine ⟨later_nil, ?_⟩
    intro err herr
    cases herr
    rfl
  | success hlooks done =>
    obtain ⟨hlater, hfinal⟩ := hrest _ _ hlooks done
    rw [if_pos rfl, if_neg (Nat.succ_ne_zero i)]
    exact ⟨hlater.after, hfinal⟩

/-- A later iteration counts, and its error is final. -/
theorem loop_later (numIterations : Nat) (looks : List Look) (i : Nat) (done : Bool) :
    Later (runRoundTripLoop numIterations looks (i + 1) done true).events ∧
      Final (runRoundTripLoop numIterations looks (i + 1) done true) := by
  induction looks generalizing i done with
  | nil =>
    refine iteration_later (loop_iteration numIterations [] (i + 1) done true) ?_
    intro look rest hlooks
    cases hlooks
  | cons look looks ih =>
    refine iteration_later (loop_iteration numIterations (look :: looks) (i + 1) done true) ?_
    intro look' rest hlooks done'
    cases hlooks
    exact ih (i + 1) done'

/-- What the first successful iteration does. -/
def firstSuccess : List Event := [.success, .newConn, .count, .connectBarrier]

/-- **An attempt** is called, and then either does nothing that is recorded, or it gets through
its first iteration and what it returns is final. -/
theorem runClient_events (numIterations : Nat) (a : Attempt) :
    (runClient numIterations a).events = [.attempt] ∨
      ∃ later,
        (runClient numIterations a).events = .attempt :: (firstSuccess ++ later) ∧ Later later ∧
        Final (runClient numIterations a) := by
  unfold runClient
  cases a.dial with
  | some e => exact .inl rfl
  | none =>
    have h := loop_iteration numIterations a.looks 0 false false
    dsimp only
    generalize runRoundTripLoop numIterations a.looks 0 false false = c at h ⊢
    cases h with
    | running => exact .inl rfl
    | stopped => exact .inl rfl
    | failed e => exact .inl rfl
    | unexpectedEof => exact .inl rfl
    | @success look rest hlooks done =>
      obtain ⟨hlater, hfinal⟩ := loop_later numIterations rest 0 done
      exact .inr ⟨_, rfl, hlater, hfinal⟩

/-! ## All of them -/

/-- The events of a run: attempts that record nothing, `n` at most, and then perhaps one that
gets through its first iteration. -/
def Retried (n : Nat) (events : List Event) : Prop :=
  ∃ k, k ≤ n ∧ (events = List.replicate k .attempt ∨
    ∃ later, events = List.replicate k .attempt ++ (firstSuccess ++ later) ∧ Later later)

/-- The events of one `runClient`. -/
theorem retried_runClient (numIterations : Nat) (a : Attempt) {n : Nat} (hn : 1 ≤ n) :
    Retried n (runClient numIterations a).events := by
  refine ⟨1, hn, ?_⟩
  rcases runClient_events numIterations a with h | ⟨later, h, hlater, -⟩
  · exact .inl h
  · exact .inr ⟨later, h, hlater⟩

/-- **The events of a run.** -/
theorem retry_events (attempts : Nat → Attempt) (left i : Nat) (err : Option EchoError) :
    Retried left (retryFrom numIterations attempts left i err).events := by
  induction left generalizing i err with
  | zero => exact ⟨0, Nat.le_refl 0, .inl rfl⟩
  | succ left ih =>
    have hone := retried_runClient numIterations (attempts i) (Nat.succ_pos left)
    unfold retryFrom
    split
    · exact hone
    next err' hres =>
      by_cases hretry : isErrorRetriable err' = true
      · rw [if_pos hretry]
        rcases runClient_events numIterations (attempts i) with h | ⟨later, -, -, hfinal⟩
        · obtain ⟨k, hk, hrest⟩ := ih (i + 1) err'
          refine ⟨k + 1, Nat.succ_le_succ hk, ?_⟩
          unfold Course.after
          dsimp only
          rw [h, List.replicate_succ]
          rcases hrest with hrest | ⟨later, hrest, hlater⟩
          · rw [hrest]
            exact .inl rfl
          · rw [hrest]
            exact .inr ⟨later, rfl, hlater⟩
        · -- what a successful attempt returns is not retried
          rw [hfinal err' hres] at hretry
          cases hretry
      · rw [if_neg hretry]
        exact hone

/-! ## What a call returns -/

/-- The loop returns nil, the error of an iteration, or an unexpected EOF. -/
theorem loop_result {P : Option EchoError → Prop} (hnone : P none)
    (hlater : ∀ e, P (some (iterationError e)))
    (hfirst : ∀ e, P (some (.firstIteration (iterationError e))))
    (heof : P (some .stopOnIterations)) (looks : List Look) (i : Nat) (done cm : Bool) :
    ∀ err, (runRoundTripLoop numIterations looks i done cm).result = some err → P err := by
  have hiter : ∀ {looks i cm c}, Iteration numIterations looks i cm c →
      (∀ look rest, looks = look :: rest → ∀ done err,
        (runRoundTripLoop numIterations rest (i + 1) done true).result = some err → P err) →
      ∀ err, c.result = some err → P err := by
    intro looks i cm c h hrest err herr
    cases h with
    | running => cases herr
    | stopped =>
      cases herr
      exact hnone
    | failed e =>
      cases herr
      by_cases hi : i = 0
      · rw [if_pos hi]
        exact hfirst e
      · rw [if_neg hi]
        exact hlater e
    | unexpectedEof =>
      cases herr
      exact heof
    | success hlooks done => exact hrest _ _ hlooks done err herr
  induction looks generalizing i done cm with
  | nil =>
    refine hiter (loop_iteration numIterations [] i done cm) ?_
    intro look rest hlooks
    cases hlooks
  | cons look looks ih =>
    refine hiter (loop_iteration numIterations (look :: looks) i done cm) ?_
    intro look' rest hlooks done'
    cases hlooks
    exact ih (i + 1) done' true

/-- "exhausted" is not what a single attempt returns. -/
theorem runClient_not_exhausted (a : Attempt) (n : Nat) (err : Option EchoError) :
    (runClient numIterations a).result ≠ some (some (.exhausted n err)) := by
  unfold runClient
  cases a.dial with
  | some e =>
    intro h
    cases e with
    | none => cases h
    | some cause => cases h
  | none =>
    intro h
    refine loop_result (P := (· ≠ some (.exhausted n err))) ?_ ?_ ?_ ?_
      a.looks 0 false false _ h rfl
    · intro h
      cases h
    · rintro ⟨cause, bytes⟩ h
      cases bytes <;> cases h
    · intro e h
      cases h
    · intro h
      cases h

/-- Attempt `i` has returned an error that may go away. -/
def Retriable (numIterations : Nat) (attempts : Nat → Attempt) (i : Nat) : Prop :=
  ∃ err, (runClient numIterations (attempts i)).result = some err ∧ isErrorRetriable err = true

/-- The attempts are exhausted exactly if each of them ends in a retriable error. -/
theorem retry_exhausted_iff (numIterations : Nat) (attempts : Nat → Attempt) (left i : Nat)
    (err : Option EchoError) :
    (∃ e, (retryFrom numIterations attempts left i err).result =
      some (some (.exhausted maxRetries e))) ↔
      ∀ j < left, Retriable numIterations attempts (i + j) := by
  induction left generalizing i err with
  | zero =>
    refine ⟨fun _ j hj => absurd hj (Nat.not_lt_zero j), fun _ => ⟨err, rfl⟩⟩
  | succ left ih =>
    have hno : ∀ c, c = runClient numIterations (attempts i) → ¬Retriable numIterations attempts i →
        ((∃ e, c.result = some (some (.exhausted maxRetries e))) ↔
          ∀ j < left + 1, Retriable numIterations attempts (i + j)) := by
      intro c hc hfinal
      refine ⟨fun ⟨e, he⟩ => ?_, fun hall => absurd (hall 0 (Nat.succ_pos left)) hfinal⟩
      rw [hc] at he
      exact absurd he (runClient_not_exhausted (attempts i) maxRetries e)
    unfold retryFrom
    split
    next hres =>
      refine hno _ rfl ?_
      rintro ⟨e, he, -⟩
      rw [hres] at he
      cases he
    next err' hres =>
      by_cases hretry : isErrorRetriable err' = true
      · rw [if_pos hretry]
        refine (ih (i + 1) err').trans ⟨fun hall j hj => ?_, fun hall j hj => ?_⟩
        · cases j with
          | zero => exact ⟨err', hres, hretry⟩
          | succ j =>
            have := hall j (Nat.lt_of_succ_lt_succ hj)
            rw [Nat.add_right_comm] at this
            exact this
        · have := hall (j + 1) (Nat.succ_lt_succ hj)
          rw [← Nat.add_assoc, Nat.add_right_comm] at this
          exact this
      · rw [if_neg hretry]
        refine hno _ rfl ?_
        rintro ⟨e, he, hretry'⟩
        rw [hres] at he
        cases he
        exact hretry hretry'

/-! ## What has succeeded -/

/-- Where the loop does not stop, and `runIteration` returns no error and passes the check for an
unexpected EOF. -/
def Look.passes (numIterations : Nat) (look : Look) : Bool :=
  !look.stopCh &&
    match look.iteration with
    | .error _ => false
    | .ok done => numIterations == 0 || !done

/-- The iteration says that it was the last one. -/
def Look.isDone (look : Look) : Bool :=
  match look.iteration with
  | .error _ => false
  | .ok done => done

/-- The iterations from the `i`th on that succeed: those that pass one after the other, up to the
first that is done. -/
def succeededFrom (numIterations i : Nat) (looks : List Look) : Nat :=
  let passing := (if numIterations = 0 then looks else looks.take (numIterations - i)).takeWhile
    (Look.passes numIterations)
  min passing.length (passing.findIdx Look.isDone + 1)

/-- The iterations of an attempt that succeed. -/
def Attempt.succeeded (numIterations : Nat) (a : Attempt) : Nat :=
  match a.dial with
  | some _ => 0
  | none => succeededFrom numIterations 0 a.looks

/-- Beyond the number of iterations nothing succeeds. -/
theorem succeededFrom_limit {i : Nat} (hi : numIterations ≠ 0 ∧ numIterations ≤ i)
    (looks : List Look) : succeededFrom numIterations i looks = 0 := by
  unfold succeededFrom
  rw [if_neg hi.1, Nat.sub_eq_zero_of_le hi.2, List.take_zero]
  rfl

/-- The looks that are left are one less, and one less may be used. -/
theorem limited_cons {i : Nat} (hi : ¬(numIterations ≠ 0 ∧ numIterations ≤ i)) (look : Look)
    (rest : List Look) :
    (if numIterations = 0 then look :: rest else (look :: rest).take (numIterations - i)) =
      look :: if numIterations = 0 then rest else rest.take (numIterations - (i + 1)) := by
  by_cases hzero : numIterations = 0
  · rw [if_pos hzero, if_pos hzero]
  · rw [if_neg hzero, if_neg hzero]
    obtain ⟨k, hk⟩ : ∃ k, numIterations - i = k + 1 := ⟨numIterations - i - 1, by omega⟩
    rw [hk, List.take_succ_cons]
    congr 2
    omega

/-- An iteration that does not succeed is the last one. -/
theorem succeededFrom_cons_of_not {i : Nat} {look : Look} {rest : List Look}
    (hi : ¬(numIterations ≠ 0 ∧ numIterations ≤ i)) (hnot : look.passes numIterations = false) :
    succeededFrom numIterations i (look :: rest) = 0 := by
  unfold succeededFrom
  rw [limited_cons hi, List.takeWhile_cons_of_neg (by rw [hnot]; exact Bool.false_ne_true)]
  rfl

/-- One that succeeds counts, and the loop goes on unless it was the last one. -/
theorem succeededFrom_cons {i : Nat} {look : Look} {rest : List Look}
    (hi : ¬(numIterations ≠ 0 ∧ numIterations ≤ i)) (hpass : look.passes numIterations = true) :
    succeededFrom numIterations i (look :: rest) =
      1 + if look.isDone then 0 else succeededFrom numIterations (i + 1) rest := by
  unfold succeededFrom
  rw [limited_cons hi, List.takeWhile_cons_of_pos hpass]
  dsimp only
  rw [List.findIdx_cons, List.length_cons]
  cases look.isDone with
  | true =>
    simp only [cond_true, if_true]
    omega
  | false =>
    simp only [cond_false, Bool.false_eq_true, if_false]
    omega

/-- **The loop records as many successes as there are among what it is given.** -/
theorem count_success_loop (looks : List Look) (i : Nat) (done cm : Bool) :
    (runRoundTripLoop numIterations looks i done cm).events.count .success =
      if done then 0 else succeededFrom numIterations i looks := by
  induction looks generalizing i done cm with
  | nil =>
    have hzero : succeededFrom numIterations i [] = 0 := by
      unfold succeededFrom
      rw [List.take_nil, ite_self]
      rfl
    unfold runRoundTripLoop
    rw [hzero, ite_self]
    split
    · rfl
    · split <;> rfl
  | cons look rest ih =>
    unfold runRoundTripLoop
    by_cases hdone : done = true
    · rw [if_pos hdone, if_pos hdone]
      rfl
    rw [if_neg hdone, if_neg hdone]
    by_cases hi : numIterations ≠ 0 ∧ numIterations ≤ i
    · rw [if_pos hi, succeededFrom_limit hi]
      rfl
    rw [if_neg hi]
    dsimp only
    by_cases hstop : look.stopCh = true
    · rw [if_pos hstop, succeededFrom_cons_of_not hi (by simp [Look.passes, hstop])]
      rfl
    rw [if_neg hstop]
    cases hiter : look.iteration with
    | error e =>
      rw [succeededFrom_cons_of_not hi (by simp [Look.passes, hiter])]
      rfl
    | ok done' =>
      dsimp only
      by_cases heof : numIterations ≠ 0 ∧ done' = true
      · rw [if_pos heof, succeededFrom_cons_of_not hi (by simp [Look.passes, hiter, heof])]
        rfl
      · have hpass : look.passes numIterations = true := by
          simp only [Look.passes, hiter, Bool.not_eq_true _ ▸ hstop]
          grind
        have hdone' : look.isDone = done' := by simp only [Look.isDone, hiter]
        rw [if_neg heof, succeededFrom_cons hi hpass, hdone', ← ih (i + 1) done' true]
        have hfirst : List.count Event.success (.success :: (if cm then [] else [.newConn]) ++
            .count :: (if i = 0 then [.connectBarrier] else [])) = 1 := by
          cases cm <;> by_cases hzero : i = 0 <;> simp [hzero]
        unfold Course.after
        dsimp only
        rw [List.count_append, hfirst]

/-- `runClient` records as many successes as there are among what it is given. -/
theorem count_success_runClient (numIterations : Nat) (a : Attempt) :
    (runClient numIterations a).events.count .success = a.succeeded numIterations := by
  unfold runClient Attempt.succeeded
  cases a.dial with
  | some e => rfl
  | none =>
    have hloop := @count_success_loop numIterations a.looks 0 false false
    unfold Course.after
    dsimp only
    rw [List.count_append, hloop]
    exact Nat.zero_add _

/-- Each call of `runClient` is one attempt. -/
theorem count_attempt_runClient (numIterations : Nat) (a : Attempt) :
    (runClient numIterations a).events.count .attempt = 1 := by
  rcases runClient_events numIterations a with h | ⟨later, h, hlater, -⟩
  · rw [h]
    rfl
  · rw [h, List.count_cons_self, List.count_append, List.count_eq_zero.mpr hlater.noAttempt]
    rfl

/-- The attempts of a course and what has succeeded in them. -/
structure Made (numIterations : Nat) (attempts : Nat → Attempt) (left i : Nat)
    (events : List Event) :
    Prop where
  attempt : ∀ j < left, j < events.count .attempt ↔
    ∀ m < j, Retriable numIterations attempts (i + m)
  success : events.count .success =
    ((List.range (events.count .attempt)).map fun j =>
      (attempts (i + j)).succeeded numIterations).sum

/-- The last attempt that is made. -/
theorem made_last {attempts : Nat → Attempt} {left i : Nat}
    (hfinal : ¬Retriable numIterations attempts i) :
    Made numIterations attempts (left + 1) i (runClient numIterations (attempts i)).events := by
  have hone := count_attempt_runClient numIterations (attempts i)
  constructor
  · intro j hj
    rw [hone]
    cases j with
    | zero => exact ⟨fun _ m hm => absurd hm (Nat.not_lt_zero m), fun _ => Nat.one_pos⟩
    | succ j =>
      refine ⟨fun h => absurd h (by omega), fun hall => absurd (hall 0 (Nat.succ_pos j)) hfinal⟩
  · rw [hone, count_success_runClient]
    simp

/-- **The attempts that are made**: each after only such as may be retried. -/
theorem retry_made (attempts : Nat → Attempt) (left i : Nat) (err : Option EchoError) :
    Made numIterations attempts left i (retryFrom numIterations attempts left i err).events := by
  induction left generalizing i err with
  | zero => exact ⟨fun j hj => absurd hj (Nat.not_lt_zero j), rfl⟩
  | succ left ih =>
    unfold retryFrom
    split
    next hres =>
      refine made_last ?_
      rintro ⟨e, he, -⟩
      rw [hres] at he
      cases he
    next err' hres =>
      by_cases hretry : isErrorRetriable err' = true
      · rw [if_pos hretry]
        have hmay : Retriable numIterations attempts i := ⟨err', hres, hretry⟩
        obtain ⟨hattempt, hsuccess⟩ := ih (i + 1) err'
        unfold Course.after
        dsimp only
        constructor
        · intro j hj
          rw [List.count_append, count_attempt_runClient]
          cases j with
          | zero => exact ⟨fun _ m hm => absurd hm (Nat.not_lt_zero m), fun _ => by omega⟩
          | succ j =>
            rw [Nat.add_comm 1, Nat.add_lt_add_iff_right, hattempt j (Nat.lt_of_succ_lt_succ hj)]
            constructor
            · intro hall m hm
              cases m with
              | zero => exact hmay
              | succ m =>
                have := hall m (Nat.lt_of_succ_lt_succ hm)
                rwa [Nat.add_assoc, Nat.add_comm 1] at this
            · intro hall m hm
              have := hall (m + 1) (Nat.succ_lt_succ hm)
              rwa [Nat.add_assoc, Nat.add_comm 1]
        · rw [List.count_append, List.count_append, count_attempt_runClient,
            count_success_runClient, hsuccess, Nat.add_comm 1, List.range_succ_eq_map,
            List.map_cons, List.sum_cons, List.map_map]
          congr 3
          funext j
          rw [Function.comp_apply, Nat.add_assoc, Nat.add_comm 1]
      · rw [if_neg hretry]
        refine made_last ?_
        rintro ⟨e, he, hretry'⟩
        rw [hres] at he
        cases he
        exact hretry hretry'

/-! ## What is recorded -/

/-- Attempts without a success count nothing. -/
theorem record_attempts (k : Nat) (counts : List Nat) :
    (List.replicate k Event.attempt).foldl record counts = counts := by
  induction k with
  | zero => rfl
  | succ k ih =>
    rw [List.replicate_succ, List.foldl_cons]
    exact ih

/-- Without another `newConn` all of it is counted on one connection. -/
theorem record_later {later : List Event} (hno : .newConn ∉ later) (n : Nat) :
    later.foldl record [n] = [n + later.count .count] := by
  induction later generalizing n with
  | nil => rfl
  | cons e later ih =>
    rw [List.mem_cons, not_or] at hno
    rw [List.foldl_cons]
    cases e with
    | newConn => exact absurd rfl hno.1
    | count =>
      show later.foldl record [n + 1] = _
      rw [ih hno.2, List.count_cons_self, Nat.add_right_comm, Nat.add_assoc]
    | attempt | success | connectBarrier =>
      show later.foldl record [n] = _
      rw [ih hno.2, List.count_cons_of_ne (by decide)]

/-- What a run of `runClientWithRetry` amounts to. -/
structure CountsOnce (numIterations : Nat) (attempts : Nat → Attempt) (c : Course) : Prop where
  attempts_le : c.events.count .attempt ≤ 3
  -- attempt `i` is made exactly if those before it may all be retried
  attempted : ∀ i < 3, i < c.events.count .attempt ↔ ∀ j < i, Retriable numIterations attempts j
  -- the successes are those of what is fed in
  succeeded : c.events.count .success =
    ((List.range (c.events.count .attempt)).map fun i => (attempts i).succeeded numIterations).sum
  retried : ∀ pre post, c.events = pre ++ .attempt :: post → .success ∉ pre
  unused : .success ∉ c.events →
    .newConn ∉ c.events ∧ .connectBarrier ∉ c.events ∧ recorded c.events = []
  used : .success ∈ c.events →
    (∃ pre post, c.events = pre ++ [.success, .newConn, .count, .connectBarrier] ++ post ∧
      .success ∉ pre ∧ .newConn ∉ pre ++ post ∧ .connectBarrier ∉ pre ++ post) ∧
    recorded c.events = [c.events.count .success]
  exhausted : (∃ err, c.result = some (some (.exhausted 3 err))) ↔
    ∀ i < 3, Retriable numIterations attempts i

theorem not_mem_attempts {e : Event} (he : e ≠ .attempt) (k : Nat) :
    e ∉ List.replicate k Event.attempt := by
  intro h
  exact he (List.eq_of_mem_replicate h)

/-- An attempt made after an event of another kind is not among those before it. -/
theorem attempt_before {k : Nat} {rest pre post : List Event} (hrest : .attempt ∉ rest)
    (h : List.replicate k Event.attempt ++ rest = pre ++ .attempt :: post) : .success ∉ pre := by
  intro hmem
  rcases List.append_eq_append_iff.mp h with ⟨mid, -, hr⟩ | ⟨mid, hpre, -⟩
  · -- the attempt would be in `rest`
    refine hrest ?_
    rw [hr]
    exact List.mem_append_right mid List.mem_cons_self
  · have hin : Event.success ∈ List.replicate k Event.attempt := by
      rw [hpre]
      exact List.mem_append_left mid hmem
    exact not_mem_attempts (by decide) k hin

theorem mem_attempts_firstSuccess {k : Nat} {later : List Event} {e : Event} (he : e ≠ .attempt) :
    e ∈ List.replicate k .attempt ++ (firstSuccess ++ later) ↔ e ∈ firstSuccess ∨ e ∈ later := by
  rw [List.mem_append, List.mem_append]
  refine ⟨fun h => ?_, .inr⟩
  rcases h with h | h
  · exact absurd h (not_mem_attempts he k)
  · exact h

/-- What can be retried counts everything once. -/
theorem countsOnce_of_retried {attempts : Nat → Attempt} {c : Course} (hevents : Retried 3 c.events)
    (hmade : Made numIterations attempts 3 0 c.events)
    (hexhausted : (∃ err, c.result = some (some (.exhausted 3 err))) ↔
      ∀ i < 3, Retriable numIterations attempts i) : CountsOnce numIterations attempts c := by
  obtain ⟨k, hk, hevents⟩ := hevents
  obtain ⟨hattempt, hsucceeded⟩ := hmade
  simp only [Nat.zero_add] at hattempt hsucceeded
  have hcount : (List.replicate k Event.attempt).count .attempt = k := List.count_replicate_self
  rcases hevents with hevents | ⟨later, hevents, hlater⟩
  · refine ⟨?_, hattempt, hsucceeded, fun pre post h => ?_, fun _ => ⟨?_, ?_, ?_⟩, fun hmem => ?_,
      hexhausted⟩
    · rw [hevents, hcount]
      exact hk
    · rw [hevents, ← List.append_nil (List.replicate _ _)] at h
      exact attempt_before List.not_mem_nil h
    · rw [hevents]
      exact not_mem_attempts (by decide) k
    · rw [hevents]
      exact not_mem_attempts (by decide) k
    · rw [hevents]
      exact record_attempts k []
    · rw [hevents] at hmem
      exact absurd hmem (not_mem_attempts (by decide) k)
  · have hnoAttempt : .attempt ∉ firstSuccess ++ later := by
      rw [List.mem_append, not_or]
      exact ⟨by decide, hlater.noAttempt⟩
    refine ⟨?_, hattempt, hsucceeded, fun pre post h => ?_, fun hno => ?_, fun _ => ⟨?_, ?_⟩,
      hexhausted⟩
    · rw [hevents, List.count_append, hcount, List.count_eq_zero.mpr hnoAttempt]
      exact hk
    · rw [hevents] at h
      exact attempt_before hnoAttempt h
    · rw [hevents, mem_attempts_firstSuccess (by decide)] at hno
      exact absurd (.inl (by decide)) hno
    · refine ⟨List.replicate k .attempt, later, ?_, not_mem_attempts (by decide) k, ?_, ?_⟩
      · rw [hevents, List.append_assoc]
        rfl
      · rw [List.mem_append, not_or]
        exact ⟨not_mem_attempts (by decide) k, hlater.noConn⟩
      · rw [List.mem_append, not_or]
        exact ⟨not_mem_attempts (by decide) k, hlater.noBarrier⟩
    · have hsuccess : (List.replicate k Event.attempt).count .success = 0 :=
        List.count_eq_zero.mpr (not_mem_attempts (by decide) k)
      unfold recorded
      rw [hevents, List.foldl_append, List.foldl_append, record_attempts, List.count_append,
        List.count_append, hsuccess, Nat.zero_add]
      show later.foldl record [1] = _
      rw [record_later hlater.noConn, hlater.counted]
      rfl

/-- **Retrying does not count or arrive twice.** -/
theorem client_with_retry (numIterations : Nat) (attempts : Nat → Attempt) :
    CountsOnce numIterations attempts (runClientWithRetry numIterations attempts) := by
  have hexhausted := retry_exhausted_iff numIterations attempts maxRetries 0 none
  simp only [Nat.zero_add] at hexhausted
  exact countsOnce_of_retried (retry_events attempts maxRetries 0 none)
    (retry_made attempts maxRetries 0 none) hexhausted

end ShouldIAsync.Echo.Retry
