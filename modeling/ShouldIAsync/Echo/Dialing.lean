import ShouldIAsync.Echo.StartBarrier

/-!
# `RunClients` with its dialer and its errgroup

A client holds a permit of the dialer's semaphore while it dials, and gives it back before its
first round trip; it waits at the barrier without one. The first client that returns an error
ends the context of the group, and only then, or when the caller's context ends, does an `Acquire`
give up.

This is the start barrier with more to say about `dialAndTest`, and it does nothing that the start
barrier does not (`refines`). With a number of iterations, or once the `StopCh` is closed, every
run ends: all clients return, all permits are back, and `group.Wait` returns the error of a client
if there was one (`run_clients_end`).

The semaphore is known by what it documents: `Acquire` blocks while there is no permit left, or
returns the context's error. Who is next among those who wait is left open. A connection comes
back with something, sooner or later, be it an error.
-/

namespace ShouldIAsync.Echo

open ShouldIAsync.GoStd ShouldIAsync.Lib

namespace Dialing

open StartBarrier (Goroutine Choice finish)

/-- Where a client is in `dialAndTest`, if it is there. -/
inductive DialPc
  | outside
  -- in `d.Sem.Acquire(ctx, 1)`
  | waiting
  -- in `d.dial(ctx)`
  | dialing
  deriving DecidableEq

/-- The clients, the semaphore of their dialer and their group. -/
structure State (n : Nat) where
  clients : StartBarrier.State n
  dials : Fin n → DialPc
  /-- the permits that nobody holds -/
  permits : Nat
  /-- the error of the group -/
  err : Option EchoError
  stopCh : Bool
  /-- the caller's context has ended -/
  ctxDone : Bool

inductive Action (n : Nat)
  | acquire (c : Fin n)
  -- an `Acquire` that has blocked gets its permit, or gives up
  | grant (c : Fin n)
  | refuse (c : Fin n)
  -- `dial` returns, with its error
  | dialed (c : Fin n) (err : Option ConnError)
  -- any other step of a client
  | step (c : Fin n) (ch : Choice)
  | stop
  | cancel

/-- The client is in `dialAndTest`. -/
def atDial (g : Goroutine) : Bool :=
  match g.pc with
  | .dial _ => true
  | _ => false

/-- What a goroutine of the group has returned. -/
def result (g : Goroutine) : Option EchoError :=
  match g.pc with
  | .returned err => err
  | _ => none

variable {n : Nat}

/-- `ctxGroup` is done. -/
def State.groupDone (s : State n) : Bool := s.ctxDone || s.err.isSome

/-- A step of client `c` outside of `dialAndTest`, or at its end; the group keeps the first error.
-/
def advance (numIterations : Nat) (c : Fin n) (ch : Choice) (s : State n) : Option (State n) :=
  (StartBarrier.act numIterations (c, ch) s.clients).map fun clients =>
    { s with clients := clients, err := s.err.or (result (clients.goroutines c)) }

/-- Client `c` is at `pc` there. -/
def State.dialAt (s : State n) (c : Fin n) (pc : DialPc) : State n :=
  { s with dials := Function.update s.dials c pc }

/-- What it does, or `none` where it cannot happen. -/
def act (numIterations : Nat) : Action n → State n → Option (State n)
  | .acquire c, s =>
    if atDial (s.clients.goroutines c) ∧ s.dials c = .outside then
      if 0 < s.permits then some { s.dialAt c .dialing with permits := s.permits - 1 }
      else some (s.dialAt c .waiting)
    else none
  | .grant c, s =>
    if s.dials c = .waiting ∧ 0 < s.permits then
      some { s.dialAt c .dialing with permits := s.permits - 1 }
    else none
  | .refuse c, s =>
    if atDial (s.clients.goroutines c) ∧ s.dials c ≠ .dialing ∧ s.groupDone then
      advance numIterations c ⟨some none, s.stopCh, .ok false⟩ (s.dialAt c .outside)
    else none
  | .dialed c err, s =>
    if s.dials c = .dialing then
      advance numIterations c ⟨err.map some, s.stopCh, .ok false⟩
        { s.dialAt c .outside with permits := s.permits + 1 }
    else none
  | .step c ch, s =>
    if atDial (s.clients.goroutines c) = false ∧ ch.stopCh = s.stopCh
      then advance numIterations c ch s else none
  | .stop, s => if s.stopCh then none else some { s with stopCh := true }
  | .cancel, s => if s.ctxDone then none else some { s with ctxDone := true }

/-- Nobody has dialed. -/
def start (n size : Nat) : State n :=
  ⟨StartBarrier.start n, fun _ => .outside, size, none, false, false⟩

/-- `RunClients(ctx, n, stopConditions, dialer, connMetricsSet)` with a semaphore of `size` permits.
-/
def runClients (numIterations n size : Nat) : System (State n) :=
  .ofActions (fun s => s = start n size) (act numIterations)

/-! ## What a step can do -/

section Cases

variable {numIterations : Nat} {s t : State n}

/-- `t` is `s` after a step of client `c`. -/
structure Advanced (numIterations : Nat) (c : Fin n) (ch : Choice) (s t : State n) : Prop where
  step : ∃ counter g, (s.clients.goroutines c).step numIterations ch s.clients.waitGroup =
    some (counter, g) ∧
    t.clients = ⟨Function.update s.clients.goroutines c g, counter⟩ ∧ t.err = s.err.or (result g)
  choice : ch.stopCh = s.stopCh
  stopCh : t.stopCh = s.stopCh
  ctxDone : t.ctxDone = s.ctxDone

/-- A step of a client that is not in `dialAndTest` leaves the dialer alone. -/
theorem advance_cases {c : Fin n} {ch : Choice} (hch : ch.stopCh = s.stopCh)
    (h : advance numIterations c ch s = some t) :
    Advanced numIterations c ch s t ∧ t.dials = s.dials ∧ t.permits = s.permits := by
  obtain ⟨clients, hact, rfl⟩ := Option.map_eq_some_iff.mp h
  obtain ⟨⟨counter, g⟩, hg, rfl⟩ := Option.map_eq_some_iff.mp hact
  refine ⟨⟨⟨counter, g, hg, rfl, ?_⟩, hch, rfl, rfl⟩, rfl, rfl⟩
  show s.err.or (result (Function.update s.clients.goroutines c g c)) = _
  rw [Function.update_self]

/-- A step is a move of one client in `dialAndTest`, the end of that, another step of a client, or
an event outside. -/
theorem act_cases {a : Action n} (h : act numIterations a s = some t) :
    (∃ c, atDial (s.clients.goroutines c) = true ∧ s.dials c = .outside ∧ s.permits = 0 ∧
      t = s.dialAt c .waiting) ∨
    (∃ c, (atDial (s.clients.goroutines c) = true ∧ s.dials c = .outside ∨ s.dials c = .waiting) ∧
      0 < s.permits ∧ t = { s.dialAt c .dialing with permits := s.permits - 1 }) ∨
    (∃ c ch, ch.dial = some none ∧ atDial (s.clients.goroutines c) = true ∧ s.dials c ≠ .dialing ∧
      s.groupDone = true ∧
      Advanced numIterations c ch s t ∧ t.dials = Function.update s.dials c .outside ∧
      t.permits = s.permits) ∨
    (∃ c ch, s.dials c = .dialing ∧ Advanced numIterations c ch s t ∧
      t.dials = Function.update s.dials c .outside ∧ t.permits = s.permits + 1) ∨
    (∃ c ch, atDial (s.clients.goroutines c) = false ∧ Advanced numIterations c ch s t ∧
      t.dials = s.dials ∧ t.permits = s.permits) ∨
    (s.stopCh = false ∧ t = { s with stopCh := true }) ∨
        (s.ctxDone = false ∧ t = { s with ctxDone := true }) := by
  cases a with
  | acquire c =>
    simp only [act] at h
    split at h
    next hc =>
      split at h
      next hpos => exact Or.inr (Or.inl ⟨c, Or.inl hc, hpos, (Option.some.inj h).symm⟩)
      next hzero => exact Or.inl ⟨c, hc.1, hc.2, Nat.eq_zero_of_not_pos hzero,
        (Option.some.inj h).symm⟩
    next => cases h
  | grant c =>
    simp only [act] at h
    split at h
    next hc => exact Or.inr (Or.inl ⟨c, Or.inr hc.1, hc.2, (Option.some.inj h).symm⟩)
    next => cases h
  | refuse c =>
    simp only [act] at h
    split at h
    next hc =>
      obtain ⟨⟨hstep, hch, hstop, hctx⟩, hdials, hpermits⟩ := advance_cases rfl h
      exact Or.inr (Or.inr (Or.inl ⟨c, _, rfl, hc.1, hc.2.1, hc.2.2, ⟨hstep, hch, hstop, hctx⟩,
        hdials, hpermits⟩))
    next => cases h
  | dialed c err =>
    simp only [act] at h
    split at h
    next hc =>
      obtain ⟨⟨hstep, hch, hstop, hctx⟩, hdials, hpermits⟩ := advance_cases rfl h
      exact Or.inr (Or.inr (Or.inr (Or.inl ⟨c, _, hc, ⟨hstep, hch, hstop, hctx⟩, hdials,
        hpermits⟩)))
    next => cases h
  | step c ch =>
    simp only [act] at h
    split at h
    next hc =>
      obtain ⟨hadv, hdials, hpermits⟩ := advance_cases hc.2 h
      exact Or.inr (Or.inr (Or.inr (Or.inr (Or.inl ⟨c, ch, hc.1, hadv, hdials, hpermits⟩))))
    next => cases h
  | stop =>
    simp only [act] at h
    split at h
    next => cases h
    next hopen =>
      exact Or.inr (Or.inr (Or.inr (Or.inr (Or.inr (Or.inl
        ⟨by simpa using hopen, (Option.some.inj h).symm⟩)))))
  | cancel =>
    simp only [act] at h
    split at h
    next => cases h
    next hopen =>
      exact Or.inr (Or.inr (Or.inr (Or.inr (Or.inr (Or.inr
        ⟨by simpa using hopen, (Option.some.inj h).symm⟩)))))

end Cases

/-- The dialer and the group add nothing to what the clients do at the start barrier. -/
theorem refines (numIterations n size : Nat) :
    System.Refines (runClients numIterations n size) (StartBarrier.runClients numIterations n)
      State.clients where
  init := by
    rintro s rfl
    rfl
  step := by
    rintro s t - ⟨a, hact⟩
    have hadvanced : ∀ {c ch}, Advanced numIterations c ch s t →
        (StartBarrier.runClients numIterations n).step s.clients t.clients := by
      rintro c ch ⟨⟨counter, g, hg, hclients, -⟩, -, -, -⟩
      refine ⟨(c, ch), Option.map_eq_some_iff.mpr ⟨(counter, g), hg, ?_⟩⟩
      exact hclients.symm
    obtain ⟨c, -, -, -, rfl⟩ | ⟨c, -, -, rfl⟩ | ⟨c, ch, -, -, -, -, hadv, -, -⟩ |
      ⟨c, ch, -, hadv, -, -⟩ | ⟨c, ch, -, hadv, -, -⟩ | ⟨-, rfl⟩ | ⟨-, rfl⟩ := act_cases hact
    · exact Or.inr rfl
    · exact Or.inr rfl
    · exact Or.inl (hadvanced hadv)
    · exact Or.inl (hadvanced hadv)
    · exact Or.inl (hadvanced hadv)
    · exact Or.inr rfl
    · exact Or.inr rfl

/-! ## Permits and errors -/

/-- The permits a client holds. -/
def inUse (pc : DialPc) : Nat := if pc = .dialing then 1 else 0

/-- The client has returned an error. -/
def failed (g : Goroutine) (err : EchoError) : Prop := g.pc = .returned (some err)

/-- What holds between any two steps. -/
structure Inv (size : Nat) (s : State n) : Prop where
  dials : ∀ c, s.dials c ≠ .outside → atDial (s.clients.goroutines c) = true
  permits : s.permits + ∑ c, inUse (s.dials c) = size
  /-- the group has an error of one of its goroutines -/
  err : ∀ e, s.err = some e → ∃ c, failed (s.clients.goroutines c) e
  noErr : s.err = none → ∀ c e, ¬ failed (s.clients.goroutines c) e

section Inv

variable {numIterations size : Nat} {s t : State n}

/-- The result of a client is the error it has failed with. -/
theorem result_eq {g : Goroutine} {e : EchoError} : result g = some e ↔ failed g e := by
  unfold result failed
  split
  next err hpc =>
    rw [hpc]
    exact ⟨fun h => by rw [h], fun h => StartBarrier.Pc.returned.inj h⟩
  next hpc => exact ⟨fun h => (nomatch h), fun h => absurd h (hpc _)⟩

/-- A goroutine that has returned stays that way. -/
theorem step_of_failed {g : Goroutine} {e : EchoError} (h : failed g e) (ch : Choice)
    (counter : Int) :
    g.step numIterations ch counter = none := by
  unfold Goroutine.step
  rw [h]

/-- What a step of one client does to the error of the group. -/
theorem err_advanced {c : Fin n} {ch : Choice} (h : Inv size s)
    (hadv : Advanced numIterations c ch s t) :
    (∀ e, t.err = some e → ∃ c, failed (t.clients.goroutines c) e) ∧
      (t.err = none → ∀ c e, ¬ failed (t.clients.goroutines c) e) := by
  obtain ⟨⟨counter, g, hg, hclients, herr⟩, -, -, -⟩ := hadv
  have hgoroutines : t.clients.goroutines = Function.update s.clients.goroutines c g := by
    rw [hclients]
  rw [herr, hgoroutines]
  refine ⟨fun e he => ?_, fun hnone c' e => ?_⟩
  · cases hs : s.err with
    | some e' =>
      rw [hs, Option.some_or] at he
      obtain ⟨c', hc'⟩ := h.err e' hs
      -- who has returned is not the one who takes a step
      have hne : c' ≠ c := by
        rintro rfl
        rw [step_of_failed hc'] at hg
        cases hg
      refine ⟨c', ?_⟩
      rw [Function.update_of_ne hne]
      exact Option.some.inj he ▸ hc'
    | none =>
      rw [hs, Option.none_or] at he
      refine ⟨c, ?_⟩
      rw [Function.update_self]
      exact result_eq.mp he
  · obtain ⟨hs, hres⟩ := Option.or_eq_none_iff.mp hnone
    by_cases hc : c' = c
    · rw [hc, Function.update_self]
      intro hfailed
      rw [result_eq.mpr hfailed] at hres
      cases hres
    · rw [Function.update_of_ne hc]
      exact h.noErr hs c' e

/-- Who is in `dialAndTest` after a step of another client was there before. -/
theorem dials_advanced {c : Fin n} {ch : Choice} (h : Inv size s)
    (hadv : Advanced numIterations c ch s t)
    (hdials : ∀ c', t.dials c' ≠ .outside → c' ≠ c ∧ s.dials c' ≠ .outside) (c' : Fin n)
    (hc' : t.dials c' ≠ .outside) : atDial (t.clients.goroutines c') = true := by
  obtain ⟨⟨counter, g, -, hclients, -⟩, -, -, -⟩ := hadv
  obtain ⟨hne, hdial⟩ := hdials c' hc'
  rw [hclients]
  show atDial (Function.update s.clients.goroutines c g c') = true
  rw [Function.update_of_ne hne]
  exact h.dials c' hdial

/-- The permits in use after a change of one client's place in `dialAndTest`. -/
theorem sum_inUse (dials : Fin n → DialPc) (c : Fin n) (pc : DialPc) :
    ∑ c', inUse (Function.update dials c pc c') + inUse (dials c) =
      ∑ c', inUse (dials c') + inUse pc :=
  Family.sum_update_add fun _ => inUse

/-- Every step keeps the invariant. -/
theorem inv_step (h : Inv size s) (hstep : (runClients numIterations n size).step s t) :
    Inv size t := by
  obtain ⟨a, hact⟩ := hstep
  have hupdate : ∀ (c : Fin n) (pc : DialPc), (atDial (s.clients.goroutines c) = true) → ∀ c',
      Function.update s.dials c pc c' ≠ .outside → atDial (s.clients.goroutines c') = true := by
    intro c pc hdial c' hc'
    by_cases hc : c' = c
    · rw [hc]
      exact hdial
    · rw [Function.update_of_ne hc] at hc'
      exact h.dials c' hc'
  have hleft : ∀ c c', Function.update s.dials c .outside c' ≠ .outside →
      c' ≠ c ∧ s.dials c' ≠ .outside := by
    intro c c' hc'
    by_cases hc : c' = c
    · rw [hc, Function.update_self] at hc'
      exact absurd rfl hc'
    · rw [Function.update_of_ne hc] at hc'
      exact ⟨hc, hc'⟩
  have hpermits := h.permits
  obtain ⟨c, hdial, houtside, hzero, rfl⟩ | ⟨c, hdial, hpos, rfl⟩ |
    ⟨c, ch, -, -, hnot, -, hadv, hdials, hperm⟩ | ⟨c, ch, hdialing, hadv, hdials, hperm⟩ |
    ⟨c, ch, hnot, hadv, hdials, hperm⟩ | ⟨-, rfl⟩ | ⟨-, rfl⟩ :=
    act_cases hact
  · refine ⟨hupdate c .waiting hdial, ?_, h.err, h.noErr⟩
    have hsum := sum_inUse s.dials c .waiting
    rw [houtside] at hsum
    simp only [inUse, reduceCtorEq, if_false, Nat.add_zero] at hsum
    show s.permits + ∑ c', inUse (Function.update s.dials c .waiting c') = size
    unfold inUse at hpermits ⊢
    omega
  · have hat : atDial (s.clients.goroutines c) = true := by
      rcases hdial with hdial | hdial
      · exact hdial.1
      · exact h.dials c (by rw [hdial]; exact DialPc.noConfusion)
    refine ⟨hupdate c .dialing hat, ?_, h.err, h.noErr⟩
    have hsum := sum_inUse s.dials c .dialing
    have hbefore : inUse (s.dials c) = 0 := by
      rcases hdial with hdial | hdial
      · rw [hdial.2]
        rfl
      · rw [hdial]
        rfl
    have hafter : inUse .dialing = 1 := rfl
    show s.permits - 1 + ∑ c', inUse (Function.update s.dials c .dialing c') = size
    omega
  · obtain ⟨herr, hnoErr⟩ := err_advanced h hadv
    refine ⟨dials_advanced h hadv (hdials ▸ hleft c), ?_, herr, hnoErr⟩
    have hsum := sum_inUse s.dials c .outside
    have hbefore : inUse (s.dials c) = 0 := if_neg hnot
    have hafter : inUse .outside = 0 := rfl
    rw [hdials, hperm]
    omega
  · obtain ⟨herr, hnoErr⟩ := err_advanced h hadv
    refine ⟨dials_advanced h hadv (hdials ▸ hleft c), ?_, herr, hnoErr⟩
    have hsum := sum_inUse s.dials c .outside
    have hbefore : inUse (s.dials c) = 1 := if_pos hdialing
    have hafter : inUse .outside = 0 := rfl
    rw [hdials, hperm]
    omega
  · obtain ⟨herr, hnoErr⟩ := err_advanced h hadv
    refine ⟨dials_advanced h hadv ?_, by rw [hdials, hperm]; exact hpermits, herr, hnoErr⟩
    intro c' hc'
    rw [hdials] at hc'
    refine ⟨?_, hc'⟩
    rintro rfl
    rw [h.dials c' hc'] at hnot
    cases hnot
  · exact ⟨h.dials, hpermits, h.err, h.noErr⟩
  · exact ⟨h.dials, hpermits, h.err, h.noErr⟩

theorem runClients_reachable (h : (runClients numIterations n size).Reachable s) : Inv size s := by
  refine h.invariant (P := Inv size) ?_ fun s t _ hs hstep => inv_step hs hstep
  rintro s rfl
  refine ⟨fun c hc => absurd rfl hc, ?_, fun e he => (nomatch he), fun _ c e hfailed => ?_⟩
  · show size + ∑ c : Fin n, inUse .outside = size
    simp [inUse]
  · cases hfailed

end Inv

/-! ## Every run ends -/

/-- The iterations from the `i`th one on. -/
def rounds (numIterations : Nat) (stopCh : Bool) (i : Nat) : Nat :=
  if stopCh then 0 else numIterations - i

/-- More than the steps of an attempt. -/
def perAttempt (numIterations : Nat) (stopCh : Bool) : Nat := 2 * rounds numIterations stopCh 0 + 30

/-- The steps a client has left, outside of `dialAndTest`; there are three attempts. -/
def pcLeft (numIterations : Nat) (stopCh : Bool) : StartBarrier.Pc → Nat
  | .dial attempt =>
    (2 - attempt) * perAttempt numIterations stopCh + 2 * rounds numIterations stopCh 0 + 20
  | .head attempt i _ =>
    (2 - attempt) * perAttempt numIterations stopCh + 2 * rounds numIterations stopCh i +
      if i = 0 then 14 else 5
  | .iteration attempt i =>
    (2 - attempt) * perAttempt numIterations stopCh + 2 * rounds numIterations stopCh (i + 1) +
      if i = 0 then 10 else 6
  | .barrierSet attempt _ =>
    (2 - attempt) * perAttempt numIterations stopCh + 2 * rounds numIterations stopCh 1 + 9
  | .barrierDone attempt _ =>
    (2 - attempt) * perAttempt numIterations stopCh + 2 * rounds numIterations stopCh 1 + 8
  | .barrierWait attempt _ =>
    (2 - attempt) * perAttempt numIterations stopCh + 2 * rounds numIterations stopCh 1 + 7
  | .deferred _ => 1
  | .returned _ => 0

/-- How far `dialAndTest` is from `dial`. -/
def dialLeft : DialPc → Nat
  | .outside => 2
  | .waiting => 1
  | .dialing => 0

/-- How far the run is from its end. -/
def left (numIterations : Nat) (s : State n) : Nat :=
  ∑ c, (pcLeft numIterations s.stopCh (s.clients.goroutines c).pc + dialLeft (s.dials c)) +
    ((if s.stopCh then 0 else 1) + if s.ctxDone then 0 else 1)

section Left

variable {numIterations : Nat} {stopCh : Bool}

/-- After an attempt a client has less left than it had in it. -/
theorem pcLeft_finish (attempt : Nat) (err : Option EchoError) :
    pcLeft numIterations stopCh (finish attempt err) + 3 ≤
      (2 - attempt) * perAttempt numIterations stopCh + 5 := by
  have hdeferred : ∀ err, pcLeft numIterations stopCh (.deferred err) + 3 ≤
      (2 - attempt) * perAttempt numIterations stopCh + 5 := by
    intro err
    show 1 + 3 ≤ _
    omega
  unfold finish
  split
  · split
    next hmore =>
      have hmore : attempt + 1 < 3 := hmore
      show (2 - (attempt + 1)) * perAttempt numIterations stopCh +
        2 * rounds numIterations stopCh 0 + 20 + 3 ≤ _
      have hsub : 2 - attempt = 2 - (attempt + 1) + 1 := by omega
      rw [hsub, Nat.add_mul, Nat.one_mul]
      unfold perAttempt
      omega
    next => exact hdeferred _
  · exact hdeferred _

/-- An attempt that is over leaves less than any point of it. -/
theorem pcLeft_finish_lt (attempt : Nat) (err : Option EchoError) {m : Nat}
    (hm : (2 - attempt) * perAttempt numIterations stopCh + 3 ≤ m) :
    pcLeft numIterations stopCh (finish attempt err) < m := by
  have : pcLeft numIterations stopCh (finish attempt err) + 3 ≤
      (2 - attempt) * perAttempt numIterations stopCh + 5 :=
    pcLeft_finish attempt err
  omega

/-- Where the loop goes on there is a round less. -/
theorem rounds_succ {i : Nat} (hopen : stopCh = false) (hlt : i < numIterations) :
    rounds numIterations stopCh (i + 1) + 1 = rounds numIterations stopCh i := by
  have hnot : ¬ stopCh = true := by
    rw [hopen]
    exact Bool.false_ne_true
  rw [rounds, rounds, if_neg hnot, if_neg hnot]
  omega

/-- A failed dial brings a client on by more than the steps in `dialAndTest`. -/
theorem pcLeft_finish_dial (attempt : Nat) (err : Option EchoError) :
    pcLeft numIterations stopCh (finish attempt err) + 2 <
      pcLeft numIterations stopCh (.dial attempt) := by
  have hlt : pcLeft numIterations stopCh (finish attempt err) <
      (2 - attempt) * perAttempt numIterations stopCh + 3 :=
    pcLeft_finish_lt attempt err (Nat.le_refl _)
  show _ < (2 - attempt) * perAttempt numIterations stopCh +
    2 * rounds numIterations stopCh 0 + 20
  omega

/-- So does one that leads to the first iteration. -/
theorem pcLeft_head_dial (attempt : Nat) (done : Bool) :
    pcLeft numIterations stopCh (.head attempt 0 done) + 2 <
      pcLeft numIterations stopCh (.dial attempt) := by
  show (2 - attempt) * perAttempt numIterations stopCh + 2 * rounds numIterations stopCh 0 +
    14 + 2 < (2 - attempt) * perAttempt numIterations stopCh +
      2 * rounds numIterations stopCh 0 + 20
  omega

/-- An iteration that is begun brings a client nearer to its end. -/
theorem pcLeft_iteration_lt (attempt : Nat) {i : Nat} (done : Bool) (hopen : stopCh = false)
    (hlt : i < numIterations) : pcLeft numIterations stopCh (.iteration attempt i) <
      pcLeft numIterations stopCh (.head attempt i done) := by
  have hround := rounds_succ hopen hlt
  show (2 - attempt) * perAttempt numIterations stopCh +
    2 * rounds numIterations stopCh (i + 1) + (if i = 0 then 10 else 6) <
    (2 - attempt) * perAttempt numIterations stopCh + 2 * rounds numIterations stopCh i +
      if i = 0 then 14 else 5
  split <;> omega

/-- With a number of iterations, or the `StopCh` closed, each step of a client brings it nearer to
its end, and a step out of `dialAndTest` by more than the steps in there. -/
theorem step_left (hstop : 1 ≤ numIterations ∨ stopCh = true) {ch : Choice}
    (hch : ch.stopCh = stopCh) {counter counter' : Int} {g g' : Goroutine}
    (h : g.step numIterations ch counter = some (counter', g')) :
    pcLeft numIterations stopCh g'.pc < pcLeft numIterations stopCh g.pc ∧
      (atDial g = true →
        pcLeft numIterations stopCh g'.pc + 2 < pcLeft numIterations stopCh g.pc) := by
  unfold Goroutine.step at h
  cases hpc : g.pc with
  | dial attempt =>
    suffices hlt : pcLeft numIterations stopCh g'.pc + 2 <
        pcLeft numIterations stopCh (.dial attempt) from
      ⟨by omega, fun _ => hlt⟩
    rw [hpc] at h
    cases hdial : ch.dial with
    | some e =>
      simp only [hdial] at h
      obtain ⟨rfl, rfl⟩ := Prod.mk.inj (Option.some.inj h)
      exact pcLeft_finish_dial attempt _
    | none =>
      simp only [hdial] at h
      obtain ⟨rfl, rfl⟩ := Prod.mk.inj (Option.some.inj h)
      exact pcLeft_head_dial attempt false
  | head attempt i done =>
    refine ⟨?_, fun hat => by rw [atDial, hpc] at hat; cases hat⟩
    rw [hpc] at h
    simp only at h
    split at h
    next =>
      obtain ⟨rfl, rfl⟩ := Prod.mk.inj (Option.some.inj h)
      refine pcLeft_finish_lt attempt none ?_
      simp only [pcLeft]
      split <;> omega
    next hgoes =>
      obtain ⟨rfl, rfl⟩ := Prod.mk.inj (Option.some.inj h)
      -- the loop only goes on with an iteration left
      obtain ⟨-, hgoes⟩ := not_or.mp hgoes
      obtain ⟨hmore, hopen⟩ := not_or.mp hgoes
      have hopen : stopCh = false := by rw [← hch]; simpa using hopen
      have hpos : 1 ≤ numIterations :=
        hstop.resolve_right (by rw [hopen]; exact Bool.false_ne_true)
      have hlt : i < numIterations := by
        by_contra hle
        exact hmore ⟨by omega, by omega⟩
      exact pcLeft_iteration_lt attempt done hopen hlt
  | iteration attempt i =>
    refine ⟨?_, fun hat => by rw [atDial, hpc] at hat; cases hat⟩
    rw [hpc] at h
    have hbelow : (2 - attempt) * perAttempt numIterations stopCh + 3 ≤
        pcLeft numIterations stopCh (.iteration attempt i) := by
      simp only [pcLeft]
      split <;> omega
    cases hit : ch.iteration with
    | error e =>
      simp only [hit] at h
      obtain ⟨rfl, rfl⟩ := Prod.mk.inj (Option.some.inj h)
      exact pcLeft_finish_lt attempt _ hbelow
    | ok done =>
      simp only [hit] at h
      split at h
      next =>
        obtain ⟨rfl, rfl⟩ := Prod.mk.inj (Option.some.inj h)
        exact pcLeft_finish_lt attempt (some .stopOnIterations) hbelow
      next =>
        obtain ⟨rfl, rfl⟩ := Prod.mk.inj (Option.some.inj h)
        by_cases hi : i = 0
        · rw [hi]
          exact Nat.lt_succ_self _
        · simp only [pcLeft, if_neg hi, if_neg (Nat.succ_ne_zero i)]
          exact Nat.lt_succ_self _
  | barrierSet attempt done =>
    refine ⟨?_, fun hat => by rw [atDial, hpc] at hat; cases hat⟩
    rw [hpc] at h
    obtain ⟨rfl, rfl⟩ := Prod.mk.inj (Option.some.inj h)
    exact Nat.lt_succ_self _
  | barrierDone attempt done =>
    refine ⟨?_, fun hat => by rw [atDial, hpc] at hat; cases hat⟩
    rw [hpc] at h
    obtain ⟨rfl, rfl⟩ := Prod.mk.inj (Option.some.inj h)
    exact Nat.lt_succ_self _
  | barrierWait attempt done =>
    refine ⟨?_, fun hat => by rw [atDial, hpc] at hat; cases hat⟩
    rw [hpc] at h
    simp only at h
    split at h
    next =>
      obtain ⟨rfl, rfl⟩ := Prod.mk.inj (Option.some.inj h)
      show (2 - attempt) * perAttempt numIterations stopCh + 2 * rounds numIterations stopCh 1 + 5 <
        (2 - attempt) * perAttempt numIterations stopCh + 2 * rounds numIterations stopCh 1 + 7
      omega
    next => cases h
  | deferred err =>
    refine ⟨?_, fun hat => by rw [atDial, hpc] at hat; cases hat⟩
    rw [hpc] at h
    simp only at h
    split at h
    next =>
      obtain ⟨rfl, rfl⟩ := Prod.mk.inj (Option.some.inj h)
      exact Nat.lt_succ_self 0
    next =>
      obtain ⟨rfl, rfl⟩ := Prod.mk.inj (Option.some.inj h)
      exact Nat.lt_succ_self 0
  | returned err =>
    rw [hpc] at h
    cases h

/-- Closing the `StopCh` leaves nobody more to do. -/
theorem pcLeft_stop (pc : StartBarrier.Pc) :
    pcLeft numIterations true pc ≤ pcLeft numIterations stopCh pc := by
  have hrounds : ∀ i, rounds numIterations true i = 0 := fun i => if_pos rfl
  have hper : ∀ k, k * perAttempt numIterations true ≤ k * perAttempt numIterations stopCh := by
    intro k
    refine Nat.mul_le_mul_left k ?_
    unfold perAttempt
    rw [hrounds]
    omega
  cases pc with
  | dial attempt =>
    have := hper (2 - attempt)
    simp only [pcLeft, hrounds]
    omega
  | head attempt i done =>
    have := hper (2 - attempt)
    simp only [pcLeft, hrounds]
    omega
  | iteration attempt i =>
    have := hper (2 - attempt)
    simp only [pcLeft, hrounds]
    omega
  | barrierSet attempt done =>
    have := hper (2 - attempt)
    simp only [pcLeft, hrounds]
    omega
  | barrierDone attempt done =>
    have := hper (2 - attempt)
    simp only [pcLeft, hrounds]
    omega
  | barrierWait attempt done =>
    have := hper (2 - attempt)
    simp only [pcLeft, hrounds]
    omega
  | deferred err => exact Nat.le_refl _
  | returned err => exact Nat.le_refl _

end Left

variable {numIterations size : Nat} {s t : State n}

/-- The runs that do not go on for ever: those with a number of iterations, and those in which the
`StopCh` has been closed. -/
def ending (numIterations n size : Nat) : System (State n) where
  init s := (runClients numIterations n size).Reachable s ∧ (1 ≤ numIterations ∨ s.stopCh = true)
  step := (runClients numIterations n size).step

/-- The `StopCh` stays closed. -/
theorem stopCh_step {a : Action n} (h : act numIterations a s = some t) (hstop : s.stopCh = true) :
    t.stopCh = true := by
  obtain ⟨c, -, -, -, rfl⟩ | ⟨c, -, -, rfl⟩ | ⟨c, ch, -, -, -, -, hadv, -, -⟩ |
    ⟨c, ch, -, hadv, -, -⟩ | ⟨c, ch, -, hadv, -, -⟩ | ⟨-, rfl⟩ | ⟨-, rfl⟩ := act_cases h
  · exact hstop
  · exact hstop
  · rw [hadv.stopCh, hstop]
  · rw [hadv.stopCh, hstop]
  · rw [hadv.stopCh, hstop]
  · rfl
  · exact hstop

/-- A run that ends is a run, with a bound or a `StopCh` that is closed. -/
theorem ending_reachable (h : (ending numIterations n size).Reachable s) :
    (runClients numIterations n size).Reachable s ∧ (1 ≤ numIterations ∨ s.stopCh = true) := by
  refine h.invariant (fun s hs => hs) ?_
  rintro s t - ⟨hs, hstop⟩ hstep
  refine ⟨.next hs hstep, ?_⟩
  obtain ⟨a, hact⟩ := hstep
  exact hstop.imp_right (stopCh_step hact)

/-- A step of one client that has less left after it. -/
theorem left_lt_of {c : Fin n} (hstop : t.stopCh = s.stopCh) (hctx : t.ctxDone = s.ctxDone)
    (hothers : ∀ c' ≠ c, t.clients.goroutines c' = s.clients.goroutines c' ∧
      t.dials c' = s.dials c')
    (hlt : pcLeft numIterations s.stopCh (t.clients.goroutines c).pc + dialLeft (t.dials c) <
      pcLeft numIterations s.stopCh (s.clients.goroutines c).pc + dialLeft (s.dials c)) :
    left numIterations t < left numIterations s := by
  unfold left
  rw [hstop, hctx]
  refine Nat.add_lt_add_right (Finset.sum_lt_sum (fun c' _ => ?_) ⟨c, Finset.mem_univ c, hlt⟩) _
  by_cases hc : c' = c
  · rw [hc]
    exact Nat.le_of_lt hlt
  · rw [(hothers c' hc).1, (hothers c' hc).2]

/-- Each step of a client brings the run nearer to its end. -/
theorem left_lt_advanced {c : Fin n} {ch : Choice} (hends : 1 ≤ numIterations ∨ s.stopCh = true)
    (hadv : Advanced numIterations c ch s t) (hothers : ∀ c' ≠ c, t.dials c' = s.dials c')
    (hdial : t.dials c = s.dials c ∨ (atDial (s.clients.goroutines c) = true ∧
      t.dials c = .outside)) :
    left numIterations t < left numIterations s := by
  obtain ⟨⟨counter, g, hg, hclients, -⟩, hch, hstop, hctx⟩ := hadv
  have hgoroutines : t.clients.goroutines = Function.update s.clients.goroutines c g := by
    rw [hclients]
  obtain ⟨hlt, hlt2⟩ := step_left hends hch hg
  refine left_lt_of hstop hctx (c := c) (fun c' hc => ⟨?_, hothers c' hc⟩) ?_
  · rw [hgoroutines, Function.update_of_ne hc]
  · rw [hgoroutines, Function.update_self]
    rcases hdial with heq | ⟨hat, hout⟩
    · rw [heq]
      omega
    · rw [hout]
      have := hlt2 hat
      show _ + 2 < _
      omega

/-- **Each step does.** -/
theorem left_lt (hs : (ending numIterations n size).Reachable s)
    (hstep : (ending numIterations n size).step s t) :
    left numIterations t < left numIterations s := by
  obtain ⟨hreach, hends⟩ := ending_reachable hs
  have hinv := runClients_reachable hreach
  obtain ⟨a, hact⟩ := hstep
  have hupdate : ∀ (c : Fin n) (pc : DialPc), ∀ c' ≠ c,
      Function.update s.dials c pc c' = s.dials c' :=
    fun c pc c' hc => Function.update_of_ne hc pc s.dials
  obtain ⟨c, -, houtside, -, rfl⟩ | ⟨c, hdial, -, rfl⟩ | ⟨c, ch, -, hat, -, -, hadv, hdials, -⟩ |
    ⟨c, ch, hdialing, hadv, hdials, -⟩ | ⟨c, ch, -, hadv, hdials, -⟩ | ⟨hopen, rfl⟩ |
    ⟨hopen, rfl⟩ := act_cases hact
  · refine left_lt_of rfl rfl (c := c) (fun c' hc => ⟨rfl, hupdate c .waiting c' hc⟩) ?_
    show _ + dialLeft (Function.update s.dials c .waiting c) < _
    rw [Function.update_self, houtside]
    exact Nat.lt_succ_self _
  · refine left_lt_of rfl rfl (c := c) (fun c' hc => ⟨rfl, hupdate c .dialing c' hc⟩) ?_
    show _ + dialLeft (Function.update s.dials c .dialing c) < _
    rw [Function.update_self]
    rcases hdial with hdial | hdial
    · rw [hdial.2]
      exact Nat.lt_add_of_pos_right Nat.two_pos
    · rw [hdial]
      exact Nat.lt_succ_self _
  · refine left_lt_advanced hends hadv (fun c' hc => by rw [hdials]; exact hupdate c .outside c' hc)
      (Or.inr ⟨hat, ?_⟩)
    rw [hdials, Function.update_self]
  · have hat : atDial (s.clients.goroutines c) = true :=
      hinv.dials c (by rw [hdialing]; exact DialPc.noConfusion)
    refine left_lt_advanced hends hadv (fun c' hc => by rw [hdials]; exact hupdate c .outside c' hc)
      (Or.inr ⟨hat, ?_⟩)
    rw [hdials, Function.update_self]
  · exact left_lt_advanced hends hadv (fun c' _ => by rw [hdials]) (Or.inl (by rw [hdials]))
  · have hsum : ∑ c, (pcLeft numIterations true (s.clients.goroutines c).pc +
      dialLeft (s.dials c)) ≤
        ∑ c, (pcLeft numIterations s.stopCh (s.clients.goroutines c).pc + dialLeft (s.dials c)) :=
      Finset.sum_le_sum fun c _ => Nat.add_le_add_right (pcLeft_stop _) _
    unfold left
    rw [hopen] at hsum ⊢
    refine Nat.add_lt_add_of_le_of_lt hsum ?_
    exact Nat.add_lt_add_right Nat.one_pos _
  · unfold left
    rw [hopen]
    exact Nat.lt_succ_self _

/-! ## Where a run ends -/

/-- All clients have returned, the permits are back, and the group has an error exactly if a client
has. -/
structure Ended (size : Nat) (s : State n) : Prop where
  returned : ∀ c, (s.clients.goroutines c).hasReturned = true
  permits : s.permits = size
  dials : ∀ c, s.dials c = .outside
  err : ∀ e, s.err = some e → ∃ c, failed (s.clients.goroutines c) e
  noErr : s.err = none → ∀ c, (s.clients.goroutines c).pc = .returned none

/-- A client that is not in `dialAndTest` and does not wait can go on. -/
theorem advance_isSome {c : Fin n} {ch : Choice} (hstep :
    ((s.clients.goroutines c).step numIterations ch s.clients.waitGroup).isSome = true) :
    (advance numIterations c ch s).isSome = true := by
  unfold advance StartBarrier.act
  rw [Option.isSome_map, Option.isSome_map]
  exact hstep

/-- Where nobody can go on nobody is in `dialAndTest`: there was a permit to take. -/
theorem stuck_dial (hsize : 0 < size) (hinv : Inv size s)
    (hstuck : (ending numIterations n size).Stuck s) (c : Fin n) :
    atDial (s.clients.goroutines c) = false := by
  have hnone : ∀ a, act numIterations a s = none := by
    intro a
    cases h : act numIterations a s with
    | none => rfl
    | some t => exact absurd ⟨a, h⟩ (hstuck t)
  have hnotDialing : ∀ c, s.dials c ≠ .dialing := by
    intro c hc
    have hat := hinv.dials c (by rw [hc]; exact DialPc.noConfusion)
    have hsome : (act numIterations (.dialed c none) s).isSome = true := by
      simp only [act, if_pos hc]
      refine advance_isSome ?_
      show ((s.clients.goroutines c).step numIterations _ s.clients.waitGroup).isSome = true
      unfold atDial at hat
      unfold Goroutine.step
      split at hat
      next hpc =>
        rw [hpc]
        rfl
      next => cases hat
    rw [hnone] at hsome
    cases hsome
  have hpermits : s.permits = size := by
    have := hinv.permits
    have hzero : ∑ c, inUse (s.dials c) = 0 := Finset.sum_eq_zero fun c _ => if_neg (hnotDialing c)
    omega
  have hpos : 0 < s.permits := hpermits ▸ hsize
  by_contra hat
  have hat : atDial (s.clients.goroutines c) = true := by simpa using hat
  cases hd : s.dials c with
  | dialing => exact hnotDialing c hd
  | outside =>
    have := hnone (.acquire c)
    simp only [act, if_pos (And.intro hat hd), if_pos hpos] at this
    cases this
  | waiting =>
    have := hnone (.grant c)
    simp only [act, if_pos (And.intro hd hpos)] at this
    cases this

/-- Outside of `dialAndTest`, who can do nothing has returned or waits for the others. -/
theorem stuck_step {g : Goroutine} (hdial : atDial g = false) (stopCh : Bool) {counter : Int}
    (hnone : g.step numIterations ⟨none, stopCh, .ok false⟩ counter = none) :
    g.hasReturned = true ∨ (g.atWait = true ∧ counter ≠ 0) := by
  unfold Goroutine.step at hnone
  unfold Goroutine.hasReturned Goroutine.atWait
  unfold atDial at hdial
  cases hpc : g.pc with
  | dial attempt =>
    rw [hpc] at hdial
    cases hdial
  | head attempt i done =>
    rw [hpc] at hnone
    simp only at hnone
    split at hnone <;> cases hnone
  | iteration attempt i =>
    rw [hpc] at hnone
    simp only at hnone
    split at hnone <;> cases hnone
  | barrierSet attempt done =>
    rw [hpc] at hnone
    cases hnone
  | barrierDone attempt done =>
    rw [hpc] at hnone
    cases hnone
  | barrierWait attempt done =>
    rw [hpc] at hnone
    simp only at hnone
    split at hnone
    next => cases hnone
    next hne => exact Or.inr ⟨rfl, hne⟩
  | deferred err =>
    rw [hpc] at hnone
    simp only at hnone
    split at hnone <;> cases hnone
  | returned err => exact Or.inl rfl

/-- Where nobody can go on the run has ended. -/
theorem ended (hsize : 0 < size) (hs : (runClients numIterations n size).Reachable s)
    (hstuck : (ending numIterations n size).Stuck s) : Ended size s := by
  have hinv := runClients_reachable hs
  have hbarrier := StartBarrier.runClients_reachable ((refines numIterations n size).reachable hs)
  have hdial := stuck_dial hsize hinv hstuck
  have hstep : ∀ c, (s.clients.goroutines c).hasReturned = true ∨
      ((s.clients.goroutines c).atWait = true ∧ s.clients.waitGroup ≠ 0) := by
    intro c
    have hnone : (s.clients.goroutines c).step numIterations ⟨none, s.stopCh, .ok false⟩
      s.clients.waitGroup =
        none := by
      by_contra hsome
      have hadv := advance_isSome (Option.isSome_iff_ne_none.mpr hsome)
      obtain ⟨t, ht⟩ := Option.isSome_iff_exists.mp hadv
      refine hstuck t ⟨.step c ⟨none, s.stopCh, .ok false⟩, ?_⟩
      simp only [act]
      rw [if_pos ⟨hdial c, trivial⟩, ht]
    exact stuck_step (hdial c) s.stopCh hnone
  -- somebody who has not called `Done` neither waits nor has returned
  have hzero : s.clients.waitGroup = 0 := by
    by_contra hpos
    obtain ⟨c, hdones⟩ := hbarrier.somebody_left hpos
    have hplaced := hbarrier.placed c
    unfold Goroutine.Placed at hplaced
    rcases hstep c with hret | ⟨hwait, -⟩
    · unfold Goroutine.hasReturned at hret
      split at hret
      next hpc =>
        rw [hpc] at hplaced
        simp only at hplaced
        omega
      next => cases hret
    · unfold Goroutine.atWait at hwait
      split at hwait
      next hpc =>
        rw [hpc] at hplaced
        simp only at hplaced
        omega
      next => cases hwait
  have hreturned : ∀ c, (s.clients.goroutines c).hasReturned = true :=
    fun c => (hstep c).resolve_right fun h => h.2 hzero
  have houtside : ∀ c, s.dials c = .outside := by
    intro c
    by_contra hc
    have := hinv.dials c hc
    rw [hdial c] at this
    cases this
  have hpermits : s.permits = size := by
    have := hinv.permits
    have hsum : ∑ c, inUse (s.dials c) = 0 := Finset.sum_eq_zero fun c _ => by rw [houtside c]; rfl
    omega
  refine ⟨hreturned, hpermits, houtside, hinv.err, fun hnone c => ?_⟩
  have hret := hreturned c
  unfold Goroutine.hasReturned at hret
  split at hret
  next err hpc =>
    cases err with
    | none => exact hpc
    | some e => exact absurd hpc (hinv.noErr hnone c e)
  next => cases hret

end Dialing

open Dialing in
/-- **`RunClients` ends** with a number of iterations, or once the `StopCh` is closed, whatever
connections, retries and contexts come up with: all clients have returned, the permits are back, and
the group returns the error of one of them, or none if none has failed. At no time do more clients
dial than there are permits. -/
theorem run_clients_end (numIterations n size : Nat) (hsize : 0 < size) :
    System.EveryRunEnds (ending numIterations n size) (Ended size) ∧
      ∀ s : Dialing.State n, (Dialing.runClients numIterations n size).Reachable s →
        (Finset.univ.filter fun c => s.dials c = .dialing).card + s.permits = size := by
  refine ⟨System.everyRunEnds_of_measure wellFounded_lt (left numIterations) (fun _ _ hs hstep =>
    left_lt hs hstep)
    fun s hs hstuck => ended hsize (ending_reachable hs).1 hstuck, fun s hs => ?_⟩
  have hpermits := (runClients_reachable hs).permits
  have hcard : (Finset.univ.filter fun c => s.dials c = .dialing).card = ∑ c, inUse (s.dials c) :=
    Finset.card_filter _ _
  omega

/-- Two clients and one permit. -/
theorem run_clients_end_two :
    System.EveryRunEnds (Dialing.ending 1 2 1) (Dialing.Ended 1) ∧
      ∀ s : Dialing.State 2, (Dialing.runClients 1 2 1).Reachable s →
        (Finset.univ.filter fun c => s.dials c = .dialing).card + s.permits = 1 :=
  run_clients_end 1 2 1 Nat.one_pos

end ShouldIAsync.Echo
