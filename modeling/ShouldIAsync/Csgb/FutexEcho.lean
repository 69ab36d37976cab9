import ShouldIAsync.Csgb.FutexWake

/-!
# Do futex pairs echo?

A wake can come late: its receiver has seen the 1 already, has answered and is waiting
again. `wait_on_futex` takes it for a new message, and the answer to that counts as an
iteration of its own, so the counts of the threads run apart.

In a run in which no wake meets a thread that is blocked on a 0 (`timely`), a message is
always a 1 in one of the futexes, or with one of the threads (`Echo.one`), and the counts
differ by the messages that the first thread has not answered (`Echo.counts`).
-/

namespace ShouldIAsync.Csgb.Futex

open ShouldIAsync.Lib

/-- A wake of a thread that is blocked although its futex holds 0. -/
def wakesOnZero : ThreadAction → Threads Thread → Bool
  | .step who, s => wakesPeer who (s.thread who).pc && (s.thread who.other).pc = .blocked &&
      (s.thread who.other).futex = 0
  | .interrupt _, _ | .terminate, _ => false

/-- The actions of the two threads less such wakes. -/
def timelyAct (a : ThreadAction) (s : Threads Thread) : Option (Threads Thread) :=
  if wakesOnZero a s then none else runner.act a s

/-- The runs without such wakes. -/
def timely : System (Threads Thread) := .ofActions (fun s => s = runner.threads) timelyAct

/-- A message in a futex. -/
def inFutex (v : UInt32) : Nat := if v = 0 then 0 else 1

/-- A message with the first thread. -/
def withFirst : Pc → Nat
  | .head | .store => 1
  | _ => 0

/-- A message with the second thread. -/
def withSecond : Pc → Nat
  | .store => 1
  | _ => 0

/-- An answer sent and not counted. -/
def uncounted : Pc → Nat
  | .wake => 1
  | _ => 0

/-- A thread that has not been cancelled; it has a message when it leaves its wait. -/
def Fresh (t : Thread) : Prop :=
  t.pc.cancelled = false ∧ (t.pc = .reset → t.futex ≠ 0)

/-- The one message is in one place, and the counts differ by what is not counted yet. -/
structure Echo (first second : Thread) : Prop where
  fresh1 : Fresh first
  fresh2 : Fresh second
  one : withFirst first.pc + inFutex second.futex + withSecond second.pc + inFutex first.futex = 1
  counts : first.count + inFutex first.futex = second.count + uncounted second.pc

theorem inFutex_pos {v : UInt32} (h : v ≠ 0) : inFutex v = 1 := if_neg h

section Step

variable {me peer me' peer' : Thread}

/-- A thread that is woken has something to wait for. -/
theorem woken_fresh (h : Fresh peer) (hz : peer.pc = .blocked → peer.futex ≠ 0) :
    Fresh peer.woken := by
  unfold Fresh
  rcases woken_pc peer with ⟨hpc, hwas⟩ | ⟨hpc, -⟩
  · rw [hpc, woken_futex]
    exact ⟨Eq.refl _, fun _ => hz hwas⟩
  · rw [hpc, woken_futex]
    exact h

/-- A wake moves no message. -/
theorem woken_messages (t : Thread) : withFirst t.woken.pc = withFirst t.pc ∧
    withSecond t.woken.pc = withSecond t.pc ∧ uncounted t.woken.pc = uncounted t.pc ∧
    t.woken.count = t.count := by
  unfold Thread.woken
  split
  next h =>
    rw [h]
    exact ⟨Eq.refl _, Eq.refl _, Eq.refl _, Eq.refl _⟩
  next => exact ⟨Eq.refl _, Eq.refl _, Eq.refl _, Eq.refl _⟩

/-- A step of the first thread, which is not a wake on 0. -/
theorem first_step (h : Echo me peer) (hz : me.pc = .wake → peer.pc = .blocked → peer.futex ≠ 0)
    (hstep : step .first false me peer = some (me', peer')) : Echo me' peer' := by
  obtain ⟨⟨hc, hr⟩, hfresh, hone, hcounts⟩ := h
  unfold step at hstep
  split at hstep
  next hpc =>
    obtain ⟨rfl, rfl⟩ := Prod.mk.inj (Option.some.inj hstep)
    rw [hpc] at hone
    exact ⟨⟨Eq.refl _, fun hp => by cases hp⟩, hfresh, hone, hcounts⟩
  next hpc =>
    obtain ⟨rfl, rfl⟩ := Prod.mk.inj (Option.some.inj hstep)
    rw [hpc] at hone
    refine ⟨⟨Eq.refl _, fun hp => by cases hp⟩, ⟨hfresh.1, fun _ => by simp [Thread.value]⟩,
      ?_, hcounts⟩
    -- the message goes into the peer's futex, where there was none
    show 0 + 1 + withSecond peer.pc + inFutex me.futex = 1
    simp only [withFirst] at hone
    omega
  next hpc =>
    obtain ⟨rfl, rfl⟩ := Prod.mk.inj (Option.some.inj hstep)
    rw [hpc] at hone
    obtain ⟨-, hsecond, huncounted, hcount⟩ := woken_messages peer
    refine ⟨⟨Eq.refl _, fun hp => by cases hp⟩, woken_fresh hfresh (hz hpc), ?_, ?_⟩
    · rw [hsecond, woken_futex]
      exact hone
    · rw [huncounted, hcount]
      exact hcounts
  next hpc =>
    obtain ⟨rfl, rfl⟩ := Prod.mk.inj (Option.some.inj hstep)
    rw [hpc] at hone
    split
    next => exact ⟨⟨Eq.refl _, fun hp => by cases hp⟩, hfresh, hone, hcounts⟩
    next hne => exact ⟨⟨Eq.refl _, fun _ => hne⟩, hfresh, hone, hcounts⟩
  next => cases hstep
  next hpc =>
    obtain ⟨rfl, rfl⟩ := Prod.mk.inj (Option.some.inj hstep)
    rw [hpc] at hone
    rw [inFutex_pos (hr hpc)] at hone hcounts
    refine ⟨⟨Eq.refl _, fun hp => by cases hp⟩, hfresh, ?_, ?_⟩
    · show 1 + inFutex peer.futex + withSecond peer.pc + 0 = 1
      simp only [withFirst] at hone
      omega
    · show me.count + 1 + 0 = _
      omega
  all_goals
    next hpc =>
      rw [hpc] at hc
      cases hc

/-- A step of the second thread, which is not a wake on 0. -/
theorem second_step (h : Echo peer me) (hz : me.pc = .wake → peer.pc = .blocked → peer.futex ≠ 0)
    (hstep : step .second false me peer = some (me', peer')) : Echo peer' me' := by
  obtain ⟨hfresh, ⟨hc, hr⟩, hone, hcounts⟩ := h
  unfold step at hstep
  split at hstep
  next hpc =>
    obtain ⟨rfl, rfl⟩ := Prod.mk.inj (Option.some.inj hstep)
    rw [hpc] at hone hcounts
    exact ⟨hfresh, ⟨Eq.refl _, fun hp => by cases hp⟩, hone, hcounts⟩
  next hpc =>
    obtain ⟨rfl, rfl⟩ := Prod.mk.inj (Option.some.inj hstep)
    rw [hpc] at hone hcounts
    simp only [withSecond, uncounted] at hone hcounts
    refine ⟨⟨hfresh.1, fun _ => by simp [Thread.value]⟩, ⟨Eq.refl _, fun hp => by cases hp⟩, ?_, ?_⟩
    · show withFirst peer.pc + inFutex me.futex + 0 + 1 = 1
      omega
    · show peer.count + 1 = me.count + 1
      omega
  next hpc =>
    obtain ⟨rfl, rfl⟩ := Prod.mk.inj (Option.some.inj hstep)
    rw [hpc] at hone hcounts
    obtain ⟨hfirst, -, -, hcount⟩ := woken_messages peer
    refine ⟨woken_fresh hfresh (hz hpc), ⟨Eq.refl _, fun hp => by cases hp⟩, ?_, ?_⟩
    · rw [hfirst, woken_futex]
      exact hone
    · rw [woken_futex, hcount]
      exact hcounts
  next hpc =>
    obtain ⟨rfl, rfl⟩ := Prod.mk.inj (Option.some.inj hstep)
    rw [hpc] at hone hcounts
    split
    next => exact ⟨hfresh, ⟨Eq.refl _, fun hp => by cases hp⟩, hone, hcounts⟩
    next hne => exact ⟨hfresh, ⟨Eq.refl _, fun _ => hne⟩, hone, hcounts⟩
  next => cases hstep
  next hpc =>
    obtain ⟨rfl, rfl⟩ := Prod.mk.inj (Option.some.inj hstep)
    rw [inFutex_pos (hr hpc)] at hone
    rw [hpc] at hone hcounts
    refine ⟨hfresh, ⟨Eq.refl _, fun hp => by cases hp⟩, ?_, hcounts⟩
    show withFirst peer.pc + 0 + 1 + inFutex peer.futex = 1
    simp only [withSecond] at hone
    omega
  all_goals
    next hpc =>
      rw [hpc] at hc
      cases hc

/-- A thread that is interrupted goes to wait again. -/
theorem echo_interrupt (h : Fresh me) {who : Member} (hint : interrupt who false me = some me') :
    me = { me' with pc := .blocked } ∧ me'.pc = .wait ∧ Fresh me' := by
  unfold interrupt at hint
  split at hint
  next hpc =>
    obtain rfl := Option.some.inj hint
    obtain ⟨pc, count, futex⟩ := me
    obtain rfl : pc = .blocked := hpc
    exact ⟨Eq.refl _, Eq.refl _, Eq.refl _, fun hp => by cases hp⟩
  next => cases hint

end Step

/-- Without wakes on 0 and before `term` the pair echoes. -/
theorem timely_echo {s : Threads Thread} (h : timely.Reachable s) (hterm : s.term = false) :
    Echo s.first s.second := by
  refine h.invariant (P := fun s => s.term = false → Echo s.first s.second) ?_ ?_ hterm
  · rintro s rfl -
    exact ⟨⟨Eq.refl _, fun hp => by cases hp⟩, ⟨Eq.refl _, fun hp => by cases hp⟩, Eq.refl _,
      Eq.refl _⟩
  · rintro s t - hs ⟨a, hact⟩ hterm
    unfold timelyAct at hact
    split at hact
    next => cases hact
    next hz =>
      cases a with
      | step who =>
        obtain ⟨⟨me, peer⟩, hstep, rfl⟩ := Option.map_eq_some_iff.mp hact
        rw [Threads.set_term] at hterm
        have hs := hs hterm
        have hstep : step who s.term (s.thread who) (s.thread who.other) = some (me, peer) := hstep
        rw [hterm] at hstep
        cases who with
        | first =>
          refine first_step hs ?_ hstep
          intro hwake hblocked hzero
          apply hz
          simp [wakesOnZero, Threads.thread, Member.other, hwake, hblocked, hzero, wakesPeer]
        | second =>
          refine second_step hs ?_ hstep
          intro hwake hblocked hzero
          apply hz
          simp [wakesOnZero, Threads.thread, Member.other, hwake, hblocked, hzero, wakesPeer]
      | interrupt who =>
        obtain ⟨me, hint, rfl⟩ := Option.map_eq_some_iff.mp hact
        rw [Threads.set_term] at hterm
        obtain ⟨hf, hs', hone, hcounts⟩ := hs hterm
        have hint : interrupt who s.term (s.thread who) = some me := hint
        rw [hterm] at hint
        cases who with
        | first =>
          obtain ⟨heq, hpc, hfresh⟩ := echo_interrupt hf hint
          have heq : s.first = { me with pc := .blocked } := heq
          rw [heq] at hone hcounts
          refine ⟨hfresh, hs', ?_, hcounts⟩
          show withFirst me.pc + _ + _ + _ = 1
          rw [hpc]
          exact hone
        | second =>
          obtain ⟨heq, hpc, hfresh⟩ := echo_interrupt hs' hint
          have heq : s.second = { me with pc := .blocked } := heq
          rw [heq] at hone hcounts
          refine ⟨hf, hfresh, ?_, ?_⟩
          · show _ + _ + withSecond me.pc + _ = 1
            rw [hpc]
            exact hone
          · show _ = me.count + uncounted me.pc
            rw [hpc]
            exact hcounts
      | terminate =>
        simp only [Runner.act] at hact
        split at hact
        next => cases hact
        next =>
          obtain rfl := Option.some.inj hact
          cases hterm

/-- **The counts stay together while wakes are timely.** In every run in which no
`FUTEX_WAKE` meets a thread blocked on a futex that holds 0, the counts of the threads
differ by one at most until `term` is set. -/
theorem futex_counts (s : Threads Thread) (h : timely.Reachable s) (hterm : s.term = false) :
    s.first.count ≤ s.second.count + 1 ∧ s.second.count ≤ s.first.count + 1 := by
  have hecho := timely_echo h hterm
  have hcounts := hecho.counts
  have hone := hecho.one
  have huncounted : uncounted s.second.pc ≤ 1 := by
    cases s.second.pc <;> simp [uncounted]
  omega

/-- The second thread has answered once, and its wake has come before the first one waits. -/
theorem futex_counts_one_answer :
    ∃ s, timely.Reachable s ∧ s.second.count = 1 ∧
      s.first.count ≤ s.second.count + 1 ∧ s.second.count ≤ s.first.count + 1 := by
  have hrun : (System.runActions timelyAct [.step .first, .step .first, .step .first, .step .second,
      .step .second, .step .second, .step .second, .step .second] runner.threads).isSome =
        true := rfl
  have hreach : timely.Reachable _ :=
    System.reachable_of_runActions (.start (Eq.refl _)) (Option.some_get hrun).symm
  exact ⟨_, hreach, rfl, futex_counts _ hreach rfl⟩

/-- The second thread answers before the wake of the first one, which it takes for a
second message: two iterations against none. -/
theorem futex_counts_late_wake :
    ¬ ∀ s, runFutex.Reachable s → s.term = false →
      s.first.count ≤ s.second.count + 1 ∧ s.second.count ≤ s.first.count + 1 := by
  intro hall
  have hrun : (System.runActions runner.act [.step .first, .step .first,
      .step .second, .step .second, .step .second, .step .second, .step .second, .step .second,
      .step .second, .step .first, .step .second, .step .second, .step .second]
      runner.threads).isSome = true := rfl
  have hreach : runFutex.Reachable _ :=
    System.reachable_of_runActions (.start (Eq.refl _)) (Option.some_get hrun).symm
  have hcounts : (2 : Nat) ≤ 0 + 1 := (hall _ hreach rfl).2
  omega

end ShouldIAsync.Csgb.Futex
