import ShouldIAsync.Csgb.Futex
import ShouldIAsync.Csgb.Handoff

/-!
# No lost wake-up

The message of a futex pair is a 1 in the futex of its receiver: a thread on its way into
`FUTEX_WAIT` will not block if its futex holds 1, and it stores 0 only after it has
waited (`handoff`). What is left to show is that nobody stays blocked on a 1: its peer,
who has stored it, is about to wake it (`Pending`).
-/

namespace ShouldIAsync.Csgb.Futex

open ShouldIAsync.Lib

/-- Going to wait, and not to store before. -/
def goesToWait : Member → Pc → Bool
  | .first, .wake | .first, .wait | .first, .blocked => true
  | .second, .wake | .second, .head | .second, .wait | .second, .blocked => true
  | _, _ => false

/-- Going to wait without a look at `term` before. -/
def awaits : Member → Pc → Bool
  | .first, .store | .first, .wake | .first, .wait | .first, .blocked => true
  | .second, .wait | .second, .blocked => true
  | _, _ => false

/-- About to wake the peer of `who`, whose futex this thread has stored 1 in. -/
def wakesPeer : Member → Pc → Bool
  | _, .wake => true
  | .first, .cancelWake2 => true
  | .second, .cancelWake1 => true
  | _, _ => false

/-- Cancelled, with the 1 for the peer stored. -/
def hasStored : Member → Pc → Bool
  | .first, .cancelWake2 | .first, .returned => true
  | .second, .cancelWake1 | .second, .cancelStore2 | .second, .cancelWake2 | .second,
    .returned => true
  | _, _ => false

/-- The thread has left its loop. -/
def Pc.cancelled : Pc → Bool
  | .cancelStore1 | .cancelWake1 | .cancelStore2 | .cancelWake2 | .returned => true
  | _ => false

/-- Who has stored for the last time has left the loop. -/
theorem hasStored_cancelled {who : Member} {pc : Pc} (h : hasStored who pc = true) :
    pc.cancelled = true := by
  unfold hasStored at h
  split at h <;> first | exact Eq.refl _ | cases h

/-- The 1 in a futex as a message. -/
def handoff : Handoff Thread where
  full t := t.futex ≠ 0
  goesToWait who t := goesToWait who t.pc
  awaits who t := awaits who t.pc
  cancelled t := t.pc.cancelled
  parted who t := hasStored who t.pc
  parted_cancelled := hasStored_cancelled

/-- A thread blocked on a 1 is about to be woken. -/
def Pending (who : Member) (me peer : Thread) : Prop :=
  peer.pc = .blocked → peer.futex ≠ 0 → wakesPeer who me.pc = true

/-- What holds of the two threads between any two steps. -/
structure Inv (who : Member) (term : Bool) (me peer : Thread) : Prop where
  handoff : handoff.Inv who term me peer
  mine : Pending who me peer
  peers : Pending who.other peer me

theorem Inv.swap {who : Member} {term : Bool} {me peer : Thread} (h : Inv who term me peer) :
    Inv who.other term peer me := by
  refine ⟨h.handoff.swap, h.peers, ?_⟩
  rw [Member.other_other]
  exact h.mine

@[simp] theorem woken_futex (t : Thread) : t.woken.futex = t.futex := by
  unfold Thread.woken
  split <;> rfl

/-- A woken thread is where it was, or out of `FUTEX_WAIT`. -/
theorem woken_pc (t : Thread) : (t.woken.pc = .reset ∧ t.pc = .blocked) ∨
    (t.woken.pc = t.pc ∧ t.pc ≠ .blocked) := by
  unfold Thread.woken
  split
  next h => exact Or.inl ⟨Eq.refl _, h⟩
  next h => exact Or.inr ⟨Eq.refl _, h⟩

/-- A wake-up changes nothing that the handoff looks at. -/
theorem woken_keeps (who : Member) (t : Thread) : handoff.Keeps who t t.woken := by
  unfold Thread.woken
  split
  next hpc =>
    refine ⟨id, fun _ => ?_, fun _ => ?_, fun hc => (by cases hc), fun hs => ?_⟩
    · show goesToWait who t.pc = true
      rw [hpc]
      cases who <;> exact Eq.refl _
    · show awaits who t.pc = true
      rw [hpc]
      cases who <;> exact Eq.refl _
    · cases who <;> cases hs
  next => exact .refl who t

theorem full_of_eq {t t' : Thread} (h : t'.futex = t.futex) : handoff.full t → handoff.full t' := by
  show t.futex ≠ 0 → t'.futex ≠ 0
  rw [h]
  exact id

theorem value_full (t : Thread) : handoff.full (t.value 1) := by
  show (1 : UInt32) ≠ 0
  decide

theorem value_keeps (who : Member) (t : Thread) : handoff.Keeps who t (t.value 1) :=
  ⟨fun _ => value_full t, id, id, id, id⟩

section Step

variable {who : Member} {term : Bool} {me peer me' peer' : Thread}

/-- A step of the thread on its own. -/
theorem Inv.alone (h : Inv who term me peer) (hcancelled : me'.pc.cancelled = true → term = true)
    (hwakes : wakesPeer who me.pc = true → wakesPeer who me'.pc = true)
    (hstored : hasStored who me'.pc = true → hasStored who me.pc = true)
    (hblocked : me'.pc = .blocked → me'.futex = 0)
    (hawaits : awaits who me'.pc = true → me'.futex = me.futex ∧ (awaits who me.pc = true ∨
      term = false))
    (hwaits : goesToWait who me'.pc = true → me'.futex = me.futex ∧ goesToWait who me.pc = true) :
    Inv who term me' peer := by
  refine ⟨h.handoff.next hcancelled hstored ?_ ?_ (.refl _ _), fun hb hne => hwakes (h.mine hb hne),
    fun hb hne => absurd (hblocked hb) hne⟩
  · exact fun ha => (hawaits ha).imp_left full_of_eq
  · exact fun hw => (hwaits hw).imp_left full_of_eq

/-- The thread stores 1 in its peer's futex. -/
theorem Inv.store (h : Inv who term me peer) (hcancelled : me'.pc.cancelled = true → term = true)
    (hwakes : wakesPeer who me'.pc = true) (hblocked : me'.pc ≠ .blocked)
    (hawaits : awaits who me'.pc = true → me'.futex = me.futex ∧ (awaits who me.pc = true ∨
      term = false)) :
    Inv who term me' (peer.value 1) := by
  refine ⟨h.handoff.send hcancelled ?_ (value_keeps _ peer) ?_, fun _ _ => hwakes,
    fun hb => absurd hb hblocked⟩
  · exact fun ha => (hawaits ha).imp_left full_of_eq
  · exact value_full peer

/-- The thread wakes its peer. -/
theorem Inv.wake (h : Inv who term me peer) (hcancelled : me'.pc.cancelled = true → term = true)
    (hstored : hasStored who me'.pc = true → hasStored who me.pc = true)
    (hblocked : me'.pc ≠ .blocked)
    (hawaits : awaits who me'.pc = true → me'.futex = me.futex ∧ (awaits who me.pc = true ∨
      term = false))
    (hwaits : goesToWait who me'.pc = true → me'.futex = me.futex ∧ goesToWait who me.pc = true) :
    Inv who term me' peer.woken := by
  refine ⟨h.handoff.next hcancelled hstored ?_ ?_ (woken_keeps _ peer), ?_,
    fun hb => absurd hb hblocked⟩
  · exact fun ha => (hawaits ha).imp_left full_of_eq
  · exact fun hw => (hwaits hw).imp_left full_of_eq
  · intro hb
    rcases woken_pc peer with ⟨hpc, -⟩ | ⟨hpc, hwas⟩
    · rw [hpc] at hb
      cases hb
    · rw [hpc] at hb
      exact absurd hb hwas

/-- Every step of a thread keeps the invariant. -/
theorem step_inv (h : Inv who term me peer) (hstep : step who term me peer = some (me', peer')) :
    Inv who term me' peer' := by
  have hc : me.pc.cancelled = true → term = true := h.handoff.mine.cancelled
  unfold step at hstep
  split at hstep
  next hpc =>
    obtain ⟨rfl, rfl⟩ := Prod.mk.inj (Option.some.inj hstep)
    cases who <;> cases term <;>
      refine h.alone ?_ ?_ ?_ ?_ ?_ ?_ <;>
        simp [hpc, Thread.goto, Pc.cancelled, wakesPeer, hasStored, awaits, goesToWait]
  next hpc =>
    obtain ⟨rfl, rfl⟩ := Prod.mk.inj (Option.some.inj hstep)
    cases who <;>
      refine h.store ?_ ?_ ?_ ?_ <;>
        simp [hpc, Thread.goto, Pc.cancelled, wakesPeer, awaits]
  next hpc =>
    obtain ⟨rfl, rfl⟩ := Prod.mk.inj (Option.some.inj hstep)
    cases who <;>
      refine h.wake ?_ ?_ ?_ ?_ ?_ <;>
        simp [hpc, Thread.goto, Thread.counted, Pc.cancelled, hasStored, awaits, goesToWait]
  next hpc =>
    obtain ⟨rfl, rfl⟩ := Prod.mk.inj (Option.some.inj hstep)
    split
    next hzero =>
      cases who <;>
        refine h.alone ?_ ?_ ?_ ?_ ?_ ?_ <;>
          simp [hpc, hzero, Thread.goto, Pc.cancelled, wakesPeer, hasStored, awaits, goesToWait]
    next =>
      cases who <;>
        refine h.alone ?_ ?_ ?_ ?_ ?_ ?_ <;>
          simp [hpc, Thread.goto, Pc.cancelled, wakesPeer, hasStored, awaits, goesToWait]
  next => cases hstep
  next hpc =>
    obtain ⟨rfl, rfl⟩ := Prod.mk.inj (Option.some.inj hstep)
    cases who <;>
      refine h.alone ?_ ?_ ?_ ?_ ?_ ?_ <;>
        simp [hpc, Thread.goto, Thread.counted, Thread.value, Pc.cancelled, wakesPeer,
          hasStored, awaits, goesToWait]
  next hpc =>
    have hterm : term = true := hc (by rw [hpc]; exact Eq.refl _)
    cases who with
    | first =>
      obtain ⟨rfl, rfl⟩ := Prod.mk.inj (Option.some.inj hstep)
      refine h.alone (fun _ => hterm) ?_ ?_ ?_ ?_ ?_ <;>
        simp [hpc, Thread.goto, Thread.value, wakesPeer, hasStored, awaits, goesToWait]
    | second =>
      obtain ⟨rfl, rfl⟩ := Prod.mk.inj (Option.some.inj hstep)
      refine h.store (fun _ => hterm) ?_ ?_ ?_ <;> simp [Thread.goto, wakesPeer, awaits]
  next hpc =>
    have hterm : term = true := hc (by rw [hpc]; exact Eq.refl _)
    cases who with
    | first =>
      obtain ⟨rfl, rfl⟩ := Prod.mk.inj (Option.some.inj hstep)
      refine h.alone (fun _ => hterm) ?_ ?_ ?_ ?_ ?_ <;>
        simp [hpc, Thread.goto, wakesPeer, hasStored, awaits, goesToWait]
    | second =>
      obtain ⟨rfl, rfl⟩ := Prod.mk.inj (Option.some.inj hstep)
      refine h.wake (fun _ => hterm) ?_ ?_ ?_ ?_ <;>
        simp [hpc, Thread.goto, hasStored, awaits, goesToWait]
  next hpc =>
    have hterm : term = true := hc (by rw [hpc]; exact Eq.refl _)
    cases who with
    | first =>
      obtain ⟨rfl, rfl⟩ := Prod.mk.inj (Option.some.inj hstep)
      refine h.store (fun _ => hterm) ?_ ?_ ?_ <;> simp [Thread.goto, wakesPeer, awaits]
    | second =>
      obtain ⟨rfl, rfl⟩ := Prod.mk.inj (Option.some.inj hstep)
      refine h.alone (fun _ => hterm) ?_ ?_ ?_ ?_ ?_ <;>
        simp [hpc, Thread.goto, Thread.value, wakesPeer, hasStored, awaits, goesToWait]
  next hpc =>
    have hterm : term = true := hc (by rw [hpc]; exact Eq.refl _)
    cases who with
    | first =>
      obtain ⟨rfl, rfl⟩ := Prod.mk.inj (Option.some.inj hstep)
      refine h.wake (fun _ => hterm) ?_ ?_ ?_ ?_ <;>
        simp [hpc, Thread.goto, hasStored, awaits, goesToWait]
    | second =>
      obtain ⟨rfl, rfl⟩ := Prod.mk.inj (Option.some.inj hstep)
      refine h.alone (fun _ => hterm) ?_ ?_ ?_ ?_ ?_ <;>
        simp [hpc, Thread.goto, wakesPeer, hasStored, awaits, goesToWait]
  next => cases hstep

/-- A thread that calls `FUTEX_WAIT` again. -/
theorem interrupt_inv (h : Inv who term me peer) (hint : interrupt who term me = some me') :
    Inv who term me' peer := by
  unfold interrupt at hint
  split at hint
  next hpc =>
    obtain rfl := Option.some.inj hint
    cases who <;>
      refine h.alone ?_ ?_ ?_ ?_ ?_ ?_ <;>
        simp [hpc, Thread.goto, Pc.cancelled, wakesPeer, hasStored, awaits, goesToWait]
  next => cases hint

end Step

/-- The invariant holds at the start and is kept by every step, interrupt and `terminate`. -/
theorem invariant : runner.Invariant Inv where
  swap := Inv.swap
  start := by
    refine ⟨⟨⟨fun hc => ?_, fun hs => ?_⟩, ⟨fun hc => ?_, fun hs => ?_⟩, Or.inl fun hw => ?_⟩,
      fun hb => ?_, fun hb => ?_⟩
    · cases hc
    · cases hs
    · cases hc
    · cases hs
    · cases hw
    · cases hb
    · cases hb
  step := step_inv
  interrupt := interrupt_inv
  terminate h := ⟨h.handoff.terminate, h.mine, h.peers⟩

/-- The peer of a thread blocked in `FUTEX_WAIT` is neither blocked nor gone. -/
theorem Inv.peer_runs {who : Member} {term : Bool} {me peer : Thread} (h : Inv who term me peer)
    (hme : me.pc = .blocked) : peer.pc ≠ .blocked ∧ peer.pc ≠ .returned := by
  have hw : ∀ (who : Member) (t : Thread), t.pc = .blocked →
      goesToWait who t.pc = true ∧ awaits who t.pc = true := by
    intro who t hpc
    rw [hpc]
    cases who <;> exact ⟨Eq.refl _, Eq.refl _⟩
  refine ⟨?_, ?_⟩
  · intro hpeer
    rcases h.handoff.signalled with hsig | hsig
    · have := h.peers hme (hsig (hw who me hme).1)
      rw [hpeer] at this
      cases who <;> cases this
    · have := h.mine hpeer (hsig (hw who.other peer hpeer).1)
      rw [hme] at this
      cases who <;> cases this
  · intro hpeer
    have hne : me.futex ≠ 0 := by
      refine h.handoff.peers.parted ?_ (hw _ me hme).2
      show hasStored who.other peer.pc = true
      rw [hpeer]
      cases who <;> exact Eq.refl _
    have := h.peers hme hne
    rw [hpeer] at this
    cases who <;> cases this

/-- **No lost wake-up.** Whenever a thread is blocked in `FUTEX_WAIT`, its peer is not, and
has not returned either. -/
theorem futex_no_lost_wakeup (s : Threads Thread) (h : runFutex.Reachable s) (who : Member)
    (hblocked : (s.thread who).pc = .blocked) :
    (s.thread who.other).pc ≠ .blocked ∧ (s.thread who.other).pc ≠ .returned :=
  (invariant.reachable h who).peer_runs hblocked

/-- The second thread waits, and the first one has seen `term` and not come to its last
wake yet. -/
theorem futex_no_lost_wakeup_cancelled :
    ∃ s, runFutex.Reachable s ∧ s.second.pc = .blocked ∧ s.first.pc = .cancelWake2 ∧
      s.first.pc ≠ .blocked ∧ s.first.pc ≠ .returned := by
  have hrun : (System.runActions runner.act [.step .second, .step .second, .terminate, .step .first,
      .step .first, .step .first, .step .first] runner.threads).isSome = true := rfl
  have hreach : runFutex.Reachable _ :=
    System.reachable_of_runActions (.start (Eq.refl _)) (Option.some_get hrun).symm
  exact ⟨_, hreach, rfl, rfl, futex_no_lost_wakeup _ hreach .second rfl⟩

end ShouldIAsync.Csgb.Futex
