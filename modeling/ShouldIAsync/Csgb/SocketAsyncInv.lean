import ShouldIAsync.Csgb.SocketAsync

/-!
# No blocking read, no deadlock

The invariant of a pair, from the side of one task and its peer:

- `Half.fed`: every notification on its way to a task has its byte in the queue;
- `Inv.ball`: one of the tasks is at work, or about to be notified;
- `Half.told`: a task that has notified after it saw the term flag has left its peer a
  notification, which the peer needs if it is still going to wait for one;
- `Gate`: where the tasks stand at the barrier.
-/

namespace ShouldIAsync.Csgb

open ShouldIAsync.Lib ShouldIAsync.Tokio

/-! ## What the statements are worth -/

/-- The notification has been taken and its byte has not. -/
def Pc.taken : Pc → Nat
  | .read => 1
  | _ => 0

/-- The byte has been written and not notified. -/
def Pc.written : Pc → Nat
  | .notifyOne | .cancelNotifyOne => 1
  | _ => 0

/-- On the way from one notification to the next. -/
def Side.atWork : Side → Pc → Nat
  | .socket1, .head | .socket1, .write | .socket1, .notifyOne | .socket1, .read
  | .socket1, .cancelWrite | .socket1, .cancelNotifyOne => 1
  | .socket2, .read | .socket2, .write | .socket2, .notifyOne => 1
  | _, _ => 0

/-- Going to wait without a look at the term flag before. -/
def Side.awaits : Side → Pc → Bool
  | .socket1, .write | .socket1, .notifyOne | .socket1, .notified => true
  | .socket2, .notified => true
  | _, _ => false

/-- The task has left its loop. -/
def Pc.cancelled : Pc → Bool
  | .cancelWrite | .cancelNotifyOne | .cancelWait | .waiting _ | .returned => true
  | _ => false

/-- Cancelled, with the notification sent. -/
def Pc.told : Pc → Bool
  | .cancelWait | .waiting _ | .returned => true
  | _ => false

/-- Before the barrier has opened. -/
def Pc.Early : Pc → Prop
  | .waiting generation => generation = 0
  | .returned | .panicked => False
  | _ => True

/-- After the barrier has opened. -/
def Pc.Late : Pc → Prop
  | .waiting generation => generation = 0
  | .returned => True
  | _ => False

/-- It has arrived at the barrier and waits there. -/
def Pc.arrived : Pc → Nat
  | .waiting _ => 1
  | _ => 0

/-- One task's part of the invariant. -/
structure Half (side : Side) (term : Bool) (me peer : Task) : Prop where
  fed : me.notify.tokens + me.pc.taken + peer.pc.written ≤ me.queue.length
  cancelled : me.pc.cancelled = true → term = true
  told : me.pc.told = true → side.other.awaits peer.pc = true → 0 < peer.notify.tokens

/-- Where the two are at the barrier: nobody is past it, or both have arrived. -/
inductive Gate (me peer : Task) (b : Barrier) : Prop
  | early (hn : b.n = 2) (hgen : b.generation = 0)
      (harrived : b.arrived = me.pc.arrived + peer.pc.arrived)
      (hme : me.pc.Early) (hpeer : peer.pc.Early)
  | late (hgen : b.generation = 1) (hme : me.pc.Late) (hpeer : peer.pc.Late)

/-- What holds of a pair between any two statements. -/
structure Inv (side : Side) (term : Bool) (me peer : Task) (b : Barrier) : Prop where
  mine : Half side term me peer
  peers : Half side.other term peer me
  ball : 0 < me.notify.tokens + side.atWork me.pc + (peer.notify.tokens + side.other.atWork peer.pc)
  gate : Gate me peer b

@[simp] theorem Side.other_other (side : Side) : side.other.other = side := by
  cases side <;> rfl

/-- It does not matter which of the two is named first. -/
theorem Gate.swap {me peer : Task} {b : Barrier} (h : Gate me peer b) : Gate peer me b := by
  cases h with
  | early hn hgen harrived hme hpeer => exact .early hn hgen (by omega) hpeer hme
  | late hgen hme hpeer => exact .late hgen hpeer hme

theorem Inv.swap {side : Side} {term : Bool} {me peer : Task} {b : Barrier}
    (h : Inv side term me peer b) : Inv side.other term peer me b := by
  refine ⟨h.peers, ?_, ?_, h.gate.swap⟩
  · rw [Side.other_other]
    exact h.mine
  · have := h.ball
    rw [Side.other_other]
    omega

section Fields

variable (t : Task) (pc : Pc) (byte : UInt8)

@[simp] theorem Task.goto_pc : (t.goto pc).pc = pc := rfl
@[simp] theorem Task.goto_queue : (t.goto pc).queue = t.queue := rfl
@[simp] theorem Task.goto_notify : (t.goto pc).notify = t.notify := rfl
@[simp] theorem Task.counted_pc : t.counted.pc = .head := rfl
@[simp] theorem Task.counted_queue : t.counted.queue = t.queue := rfl
@[simp] theorem Task.counted_notify : t.counted.notify = t.notify := rfl
@[simp] theorem Task.receive_pc : (t.receive byte).pc = t.pc := rfl
@[simp] theorem Task.receive_queue : (t.receive byte).queue = t.queue ++ [byte] := rfl
@[simp] theorem Task.receive_notify : (t.receive byte).notify = t.notify := rfl
@[simp] theorem Task.notifyOne_pc : t.notifyOne.pc = t.pc := rfl
@[simp] theorem Task.notifyOne_queue : t.notifyOne.queue = t.queue := rfl
@[simp] theorem Task.notifyOne_notify : t.notifyOne.notify = t.notify.notifyOne := rfl

end Fields

section Step

variable {side : Side} {term : Bool} {me peer me' peer' : Task} {b b' : Barrier} {yields : Bool}

/-- A task that is not past the barrier has an open peer. -/
theorem Gate.peer_open (h : Gate me peer b) (hme : ¬ me.pc.Late) : peer.finished = false := by
  cases h with
  | early hn hgen harrived hme' hpeer =>
    unfold Task.finished
    cases hpc : peer.pc <;> simp_all [Pc.Early]
  | late hgen hme' hpeer => exact absurd hme' hme

/-- A task that reads has its byte. -/
theorem Half.queue_ne_nil (h : Half side term me peer) (hpc : me.pc = .read) : me.queue ≠ [] := by
  have hfed := h.fed
  rw [hpc] at hfed
  simp only [Pc.taken] at hfed
  apply List.ne_nil_of_length_pos
  omega

/-- Who has told the other that it leaves has left the loop. -/
theorem Pc.told_cancelled {pc : Pc} (h : pc.told = true) : pc.cancelled = true := by
  cases pc <;> first | exact h | exact Eq.refl _

/-- Elsewhere than at the barrier a task may go on to anything but the barrier. -/
theorem Gate.move (h : Gate me peer b) (hme : ¬ me.pc.Late) (harrived : me'.pc.arrived = 0)
    (hearly : me'.pc.Early) (hpc : peer'.pc = peer.pc) (h0 : me.pc.arrived = 0) :
    Gate me' peer' b := by
  cases h with
  | early hn hgen harr hme' hpeer =>
    exact .early hn hgen (by rw [harr, harrived, h0, hpc]) hearly (by rw [hpc]; exact hpeer)
  | late hgen hme' hpeer => exact absurd hme' hme

/-- At the load of the term flag. -/
theorem look_inv (h : Inv side term me peer b) (hpc : me.pc = .head) :
    Inv side term (me.goto (if term then .cancelWrite else side.oneIteration)) peer b := by
  have hfed := h.mine.fed
  have hfed' := h.peers.fed
  have hball := h.ball
  rw [hpc] at hfed hfed' hball
  cases term with
  | true =>
    refine ⟨⟨hfed, fun _ => Eq.refl _, fun ht => (by cases ht)⟩,
      ⟨hfed', h.peers.cancelled, ?_⟩, ?_, h.gate.move ?_ ?_ ?_ ?_ ?_⟩
    · intro _ hawaits
      cases side <;> cases hawaits
    · cases side <;> exact hball
    all_goals simp [hpc, Pc.Late, Pc.Early, Pc.arrived]
  | false =>
    -- nobody has been cancelled, so nobody has told
    have hpeer : peer.pc.told ≠ true := by
      intro ht
      cases h.peers.cancelled (Pc.told_cancelled ht)
    refine ⟨⟨?_, ?_, ?_⟩, ⟨?_, h.peers.cancelled, fun ht => absurd ht hpeer⟩, ?_,
      h.gate.move ?_ ?_ ?_ ?_ ?_⟩
    · cases side <;> exact hfed
    · intro hc
      cases side <;> cases hc
    · intro ht
      cases side <;> cases ht
    · cases side <;> exact hfed'
    · cases side <;> exact hball
    all_goals cases side <;> simp [hpc, Side.oneIteration, Pc.Late, Pc.Early, Pc.arrived]

/-- A byte is written. -/
theorem write_inv (h : Inv side term me peer b) (byte : UInt8) (hpc : me.pc = .write) :
    Inv side term (me.goto .notifyOne) (peer.receive byte) b := by
  have hfed := h.mine.fed
  have hfed' := h.peers.fed
  have hball := h.ball
  rw [hpc] at hfed hfed' hball
  refine ⟨⟨hfed, fun hc => (by cases hc), fun ht => (by cases ht)⟩, ⟨?_, h.peers.cancelled, ?_⟩, ?_,
    h.gate.move ?_ ?_ ?_ ?_ ?_⟩
  · simp only [Pc.written, Task.goto_pc, Task.receive_pc, Task.receive_notify, Task.receive_queue,
      List.length_append, List.length_singleton] at hfed' ⊢
    omega
  · intro ht hawaits
    refine h.peers.told ht ?_
    cases side <;> rw [hpc]
    · exact Eq.refl _
    · cases hawaits
  · cases side <;> exact hball
  all_goals simp [hpc, Pc.Late, Pc.Early, Pc.arrived]

/-- The byte of a cancelled task. -/
theorem cancelWrite_inv (h : Inv side term me peer b) (byte : UInt8) (hpc : me.pc = .cancelWrite) :
    Inv side term (me.goto .cancelNotifyOne) (peer.receive byte) b := by
  have hfed := h.mine.fed
  have hfed' := h.peers.fed
  have hball := h.ball
  rw [hpc] at hfed hfed' hball
  refine ⟨⟨hfed, fun _ => h.mine.cancelled (by rw [hpc]; exact Eq.refl _), fun ht => by cases ht⟩,
    ⟨?_, h.peers.cancelled, ?_⟩, ?_, h.gate.move ?_ ?_ ?_ ?_ ?_⟩
  · simp only [Pc.written, Task.goto_pc, Task.receive_pc, Task.receive_notify, Task.receive_queue,
      List.length_append, List.length_singleton] at hfed' ⊢
    omega
  · intro _ hawaits
    cases side <;> cases hawaits
  · cases side <;> exact hball
  all_goals simp [hpc, Pc.Late, Pc.Early, Pc.arrived]

/-- The peer is notified of the byte. -/
theorem notifyOne_inv (h : Inv side term me peer b) (hpc : me.pc = .notifyOne) :
    Inv side term (side.afterNotifyOne me) peer.notifyOne b := by
  have hfed := h.mine.fed
  have hfed' := h.peers.fed
  have hpos := peer.notify.notifyOne_pos
  have hle := peer.notify.notifyOne_le
  rw [hpc] at hfed hfed'
  simp only [Pc.written] at hfed'
  cases side with
  | socket1 =>
    refine ⟨⟨hfed, fun hc => (by cases hc), fun ht => (by cases ht)⟩,
      ⟨?_, h.peers.cancelled, ?_⟩, ?_,
      h.gate.move ?_ ?_ ?_ ?_ ?_⟩
    · show peer.notify.notifyOne.tokens + peer.pc.taken + 0 ≤ peer.queue.length
      omega
    · intro ht _
      exact h.peers.told ht (by rw [hpc]; exact Eq.refl _)
    · show 0 < _ + (peer.notify.notifyOne.tokens + _)
      omega
    all_goals simp [hpc, Side.afterNotifyOne, Pc.Late, Pc.Early, Pc.arrived]
  | socket2 =>
    refine ⟨⟨hfed, fun hc => (by cases hc), fun ht => (by cases ht)⟩,
      ⟨?_, h.peers.cancelled, fun _ hawaits => by cases hawaits⟩, ?_, h.gate.move ?_ ?_ ?_ ?_ ?_⟩
    · show peer.notify.notifyOne.tokens + peer.pc.taken + 0 ≤ peer.queue.length
      omega
    · show 0 < _ + (peer.notify.notifyOne.tokens + _)
      omega
    all_goals simp [hpc, Side.afterNotifyOne, Pc.Late, Pc.Early, Pc.arrived]

/-- The last notification of a cancelled task. -/
theorem cancelNotifyOne_inv (h : Inv side term me peer b) (hpc : me.pc = .cancelNotifyOne) :
    Inv side term (me.goto .cancelWait) peer.notifyOne b := by
  have hfed := h.mine.fed
  have hfed' := h.peers.fed
  have hpos := peer.notify.notifyOne_pos
  have hle := peer.notify.notifyOne_le
  rw [hpc] at hfed hfed'
  simp only [Pc.written] at hfed'
  refine ⟨⟨hfed, fun _ => h.mine.cancelled (by rw [hpc]; exact Eq.refl _), fun _ _ => hpos⟩,
    ⟨?_, h.peers.cancelled, ?_⟩, ?_, h.gate.move ?_ ?_ ?_ ?_ ?_⟩
  · show peer.notify.notifyOne.tokens + peer.pc.taken + 0 ≤ peer.queue.length
    omega
  · intro _ hawaits
    cases side <;> cases hawaits
  · show 0 < _ + (peer.notify.notifyOne.tokens + _)
    omega
  all_goals simp [hpc, Pc.Late, Pc.Early, Pc.arrived]

/-- The task has its notification. -/
theorem notified_inv {n : Notify} (h : Inv side term me peer b) (hpc : me.pc = .notified)
    (hpoll : me.notify.pollNotified = (.ready, n)) :
    Inv side term { me with pc := .read, notify := n } peer b := by
  have hfed := h.mine.fed
  have hfed' := h.peers.fed
  obtain ⟨htokens, -⟩ := Notify.pollNotified_ready hpoll
  rw [hpc] at hfed hfed'
  refine ⟨⟨?_, fun hc => (by cases hc), fun ht => (by cases ht)⟩,
    ⟨hfed', h.peers.cancelled, ?_⟩, ?_, h.gate.move ?_ ?_ ?_ (Eq.refl _) ?_⟩
  · show n.tokens + 1 + peer.pc.written ≤ me.queue.length
    simp only [Pc.taken] at hfed
    omega
  · intro _ hawaits
    cases side <;> cases hawaits
  · cases side
    · show 0 < n.tokens + 1 + _
      omega
    · show 0 < n.tokens + 1 + _
      omega
  all_goals simp [hpc, Pc.Late, Pc.Early, Pc.arrived]

/-- The task goes on waiting. -/
theorem pending_inv {n : Notify} (h : Inv side term me peer b) (hpc : me.pc = .notified)
    (hpoll : me.notify.pollNotified = (.pending, n)) :
    Inv side term { me with notify := n } peer b := by
  obtain ⟨htokens, htokens'⟩ := Notify.pollNotified_pending hpoll
  have hsame : n.tokens = me.notify.tokens := by rw [htokens, htokens']
  refine ⟨⟨?_, h.mine.cancelled, h.mine.told⟩, ⟨h.peers.fed, h.peers.cancelled, ?_⟩, ?_,
    h.gate.move ?_ ?_ ?_ (Eq.refl _) ?_⟩
  · show n.tokens + _ + _ ≤ _
    rw [hsame]
    exact h.mine.fed
  · intro ht hawaits
    show 0 < n.tokens
    rw [hsame]
    exact h.peers.told ht hawaits
  · show 0 < n.tokens + _ + _
    rw [hsame]
    exact h.ball
  all_goals simp [hpc, Pc.Late, Pc.Early, Pc.arrived]

/-- A byte is read. -/
theorem read_inv {byte : UInt8} {queue : List UInt8} (h : Inv side term me peer b)
    (hpc : me.pc = .read) (hqueue : me.queue = byte :: queue) :
    Inv side term (side.afterRead { me with buf := byte, queue := queue }) peer b := by
  have hfed := h.mine.fed
  have hfed' := h.peers.fed
  have hball := h.ball
  rw [hqueue] at hfed
  rw [hpc] at hfed hfed' hball
  simp only [Pc.taken, List.length_cons] at hfed
  cases side with
  | socket1 =>
    refine ⟨⟨?_, fun hc => (by cases hc), fun ht => (by cases ht)⟩,
      ⟨hfed', h.peers.cancelled, fun _ hawaits => by cases hawaits⟩, hball,
      h.gate.move ?_ ?_ ?_ (Eq.refl _) ?_⟩
    · show me.notify.tokens + 0 + _ ≤ queue.length
      omega
    all_goals simp [hpc, Side.afterRead, Pc.Late, Pc.Early, Pc.arrived]
  | socket2 =>
    refine ⟨⟨?_, fun hc => (by cases hc), fun ht => (by cases ht)⟩,
      ⟨hfed', h.peers.cancelled, fun _ hawaits => by cases hawaits⟩, hball,
      h.gate.move ?_ ?_ ?_ (Eq.refl _) ?_⟩
    · show me.notify.tokens + 0 + _ ≤ queue.length
      omega
    all_goals simp [hpc, Side.afterRead, Pc.Late, Pc.Early, Pc.arrived]

/-- A task that has notified goes to the barrier, or past it. -/
theorem Inv.past {pc : Pc} (h : Inv side term me peer b) (hme : me.pc.told = true)
    (hpc : pc.told = true) (hgate : Gate (me.goto pc) peer b') :
    Inv side term (me.goto pc) peer b' := by
  have htold : ∀ pc : Pc, pc.told = true → pc.taken = 0 ∧ pc.written = 0 ∧ side.atWork pc = 0 ∧
      side.awaits pc = false := by
    intro pc hpc
    cases pc with
    | cancelWait => cases side <;> simp [Pc.taken, Pc.written, Side.atWork, Side.awaits]
    | waiting generation => cases side <;> simp [Pc.taken, Pc.written, Side.atWork, Side.awaits]
    | returned => cases side <;> simp [Pc.taken, Pc.written, Side.atWork, Side.awaits]
    | _ => cases hpc
  obtain ⟨htaken, hwritten, hwork, hawaits⟩ := htold pc hpc
  obtain ⟨htaken₀, hwritten₀, hwork₀, -⟩ := htold me.pc hme
  have hfed := h.mine.fed
  have hfed' := h.peers.fed
  have hball := h.ball
  rw [htaken₀] at hfed
  rw [hwritten₀] at hfed'
  rw [hwork₀] at hball
  refine ⟨⟨?_, fun _ => h.mine.cancelled (Pc.told_cancelled hme), fun _ => h.mine.told hme⟩,
    ⟨?_, h.peers.cancelled, ?_⟩, ?_, hgate⟩
  · rw [Task.goto_pc, htaken]
    exact hfed
  · rw [Task.goto_pc, hwritten]
    exact hfed'
  · intro _ hmine
    rw [Task.goto_pc, Side.other_other, hawaits] at hmine
    cases hmine
  · rw [Task.goto_pc, hwork]
    exact hball

/-- The first poll of the barrier's `wait()`. -/
theorem Gate.wait {poll : Poll} (h : Gate me peer b) (hpc : me.pc = .cancelWait)
    (hwait : b.wait = (poll, b')) :
    Gate (me.goto (if poll = .ready then .returned else .waiting b.generation)) peer b' := by
  cases h with
  | late hgen hme hpeer => rw [hpc] at hme; exact hme.elim
  | early hn hgen harrived hme hpeer =>
    have harrived : b.arrived = peer.pc.arrived := by
      rw [harrived, hpc]
      exact Nat.zero_add _
    unfold Barrier.wait at hwait
    split at hwait
    next hlt =>
      obtain ⟨rfl, rfl⟩ := Prod.mk.inj hwait
      refine .early hn hgen ?_ hgen hpeer
      show b.arrived + 1 = 1 + peer.pc.arrived
      omega
    next hlast =>
      -- the peer is here already
      obtain ⟨rfl, rfl⟩ := Prod.mk.inj hwait
      have hwaits : peer.pc.arrived = 1 := by
        have : peer.pc.arrived ≤ 1 := by cases peer.pc <;> simp [Pc.arrived]
        omega
      refine .late ?_ trivial ?_
      · show b.generation + 1 = 1
        omega
      · cases hp : peer.pc with
        | waiting generation =>
          rw [hp] at hpeer
          exact hpeer
        | _ =>
          rw [hp] at hwaits
          cases hwaits

/-- A later poll, of a task that waits. -/
theorem Gate.leave {generation : Nat} (h : Gate me peer b)
    (hready : b.pollWait generation = .ready) :
    Gate (me.goto .returned) peer b := by
  unfold Barrier.pollWait at hready
  split at hready
  next hlt =>
    cases h with
    | early hn hgen harrived hme hpeer => omega
    | late hgen hme hpeer => exact .late hgen trivial hpeer
  next => cases hready

/-- **Every statement of a task keeps the invariant.** -/
theorem run_inv (h : Inv side term me peer b)
    (hrun : me.run side term peer b = some ((me', peer', b'), yields)) :
    Inv side term me' peer' b' := by
  unfold Task.run at hrun
  split at hrun
  next hpc =>
    obtain ⟨⟨rfl, rfl, rfl⟩, -⟩ : (_ ∧ _ ∧ _) ∧ _ := by simpa using hrun
    exact look_inv h hpc
  next hpc =>
    rw [h.gate.peer_open (by simp [hpc, Pc.Late])] at hrun
    obtain ⟨⟨rfl, rfl, rfl⟩, -⟩ : (_ ∧ _ ∧ _) ∧ _ := by simpa using hrun
    exact write_inv h me.buf hpc
  next hpc =>
    obtain ⟨⟨rfl, rfl, rfl⟩, -⟩ : (_ ∧ _ ∧ _) ∧ _ := by simpa using hrun
    exact notifyOne_inv h hpc
  next hpc =>
    split at hrun
    next n hpoll =>
      obtain ⟨⟨rfl, rfl, rfl⟩, -⟩ : (_ ∧ _ ∧ _) ∧ _ := by simpa using hrun
      exact notified_inv h hpc hpoll
    next n hpoll =>
      obtain ⟨⟨rfl, rfl, rfl⟩, -⟩ : (_ ∧ _ ∧ _) ∧ _ := by simpa using hrun
      exact pending_inv h hpc hpoll
  next hpc =>
    split at hrun
    next byte queue hqueue =>
      obtain ⟨⟨rfl, rfl, rfl⟩, -⟩ : (_ ∧ _ ∧ _) ∧ _ := by simpa using hrun
      exact read_inv h hpc hqueue
    next hqueue =>
      exact absurd hqueue (h.mine.queue_ne_nil hpc)
  next hpc =>
    rw [h.gate.peer_open (by simp [hpc, Pc.Late])] at hrun
    obtain ⟨⟨rfl, rfl, rfl⟩, -⟩ : (_ ∧ _ ∧ _) ∧ _ := by simpa using hrun
    exact cancelWrite_inv h me.buf hpc
  next hpc =>
    obtain ⟨⟨rfl, rfl, rfl⟩, -⟩ : (_ ∧ _ ∧ _) ∧ _ := by simpa using hrun
    exact cancelNotifyOne_inv h hpc
  next hpc =>
    have hme : me.pc.told = true := by rw [hpc]; exact Eq.refl _
    split at hrun
    next b'' hwait =>
      obtain ⟨⟨rfl, rfl, rfl⟩, -⟩ : (_ ∧ _ ∧ _) ∧ _ := by simpa using hrun
      exact h.past hme (Eq.refl _) (h.gate.wait hpc hwait)
    next b'' hwait =>
      obtain ⟨⟨rfl, rfl, rfl⟩, -⟩ : (_ ∧ _ ∧ _) ∧ _ := by simpa using hrun
      exact h.past hme (Eq.refl _) (h.gate.wait hpc hwait)
  next generation hpc =>
    have hme : me.pc.told = true := by rw [hpc]; exact Eq.refl _
    split at hrun
    next hready =>
      obtain ⟨⟨rfl, rfl, rfl⟩, -⟩ : (_ ∧ _ ∧ _) ∧ _ := by simpa using hrun
      exact h.past hme (Eq.refl _) (h.gate.leave hready)
    next =>
      obtain ⟨⟨rfl, rfl, rfl⟩, -⟩ : (_ ∧ _ ∧ _) ∧ _ := by simpa using hrun
      exact h
  next => cases hrun
  next => cases hrun

/-- The two ways to be blocked. -/
theorem Task.blocked_cases {t : Task} (h : t.blocked b = true) :
    (t.pc = .notified ∧ t.notify.tokens = 0) ∨ ∃ generation, t.pc = .waiting generation ∧
      b.generation ≤ generation := by
  unfold Task.blocked at h
  split at h
  next hpc =>
    exact Or.inl ⟨hpc, Notify.tokens_of_waiting (of_decide_eq_true h)⟩
  next generation hpc =>
    refine Or.inr ⟨generation, hpc, ?_⟩
    have hpending := of_decide_eq_true h
    unfold Barrier.pollWait at hpending
    split at hpending
    next => cases hpending
    next hge => omega
  next => cases h

/-- A blocked task has a peer that is neither blocked nor gone. -/
theorem Inv.peer_runs (h : Inv side term me peer b) (hme : me.blocked b = true) :
    peer.pc ≠ .returned ∧ peer.blocked b ≠ true := by
  have hme := Task.blocked_cases hme
  cases h.gate with
  | late hgen hlate hpeer =>
    rcases hme with ⟨hpc, -⟩ | ⟨generation, hpc, hge⟩
    · rw [hpc] at hlate
      exact hlate.elim
    · rw [hpc] at hlate
      have : generation = 0 := hlate
      omega
  | early hn hgen harrived hearly hpeer =>
    refine ⟨?_, ?_⟩
    · intro hpc
      rw [hpc] at hpeer
      exact hpeer
    · intro hblocked
      rcases hme with ⟨hpc, htokens⟩ | ⟨generation, hpc, -⟩ <;>
        rcases Task.blocked_cases hblocked with ⟨hpc', htokens'⟩ | ⟨generation', hpc', -⟩
      · -- both wait for a notification
        have hball := h.ball
        rw [hpc, hpc', htokens, htokens'] at hball
        cases side <;> exact absurd hball (Nat.lt_irrefl 0)
      · have := h.peers.told (by rw [hpc']; exact Eq.refl _) (by
          rw [hpc, Side.other_other]
          cases side <;> exact Eq.refl _)
        omega
      · have := h.mine.told (by rw [hpc]; exact Eq.refl _) (by
          rw [hpc']
          cases side <;> exact Eq.refl _)
        omega
      · -- both are at the barrier, which opens for two
        have hlt := b.arrived_lt
        rw [harrived, hpc, hpc', hn] at hlt
        exact absurd hlt (Nat.lt_irrefl 2)

end Step

/-! ## Pairs -/

/-- The invariant of a pair. -/
def Pair.Inv (term : Bool) (p : Pair) : Prop := Csgb.Inv .socket1 term p.socket1 p.socket2 p.barrier

/-- It holds of a pair that has been spawned. -/
theorem Pair.inv_spawned : Pair.spawned.Inv false := by
  refine ⟨⟨Nat.le_refl _, fun hc => (by cases hc), fun ht => (by cases ht)⟩,
    ⟨Nat.le_refl _, fun hc => (by cases hc), fun ht => (by cases ht)⟩, Nat.one_pos, ?_⟩
  exact .early (Eq.refl _) (Eq.refl _) (Eq.refl _) trivial trivial

theorem Pair.run_inv {side : Side} {term : Bool} {p p' : Pair} {yields : Bool} (h : p.Inv term)
    (hrun : p.run side term = some (p', yields)) : p'.Inv term := by
  unfold Pair.run at hrun
  cases side with
  | socket1 =>
    obtain ⟨⟨⟨me, peer, b⟩, y⟩, hstep, heq⟩ := Option.map_eq_some_iff.mp hrun
    obtain ⟨rfl, -⟩ := Prod.mk.inj heq
    exact Csgb.run_inv h hstep
  | socket2 =>
    obtain ⟨⟨⟨me, peer, b⟩, y⟩, hstep, heq⟩ := Option.map_eq_some_iff.mp hrun
    obtain ⟨rfl, -⟩ := Prod.mk.inj heq
    exact (Csgb.run_inv h.swap hstep).swap

/-- The term flag is set. -/
theorem Pair.Inv.terminate {p : Pair} {term : Bool} (h : p.Inv term) : p.Inv true :=
  ⟨⟨h.mine.fed, fun _ => Eq.refl _, h.mine.told⟩, ⟨h.peers.fed, fun _ => Eq.refl _, h.peers.told⟩,
    h.ball, h.gate⟩

theorem Pair.Inv.task {p : Pair} {term : Bool} (h : p.Inv term) (side : Side) :
    Csgb.Inv side term (p.task side) (p.task side.other) p.barrier := by
  cases side with
  | socket1 => exact h
  | socket2 => exact h.swap

/-- A pair of which it holds is not deadlocked. -/
theorem Pair.Inv.not_deadlocked {p : Pair} {term : Bool} (h : p.Inv term) : ¬ p.Deadlocked := by
  rintro ⟨⟨side, hside⟩, hall⟩
  obtain ⟨hpeer, hruns⟩ := (h.task side).peer_runs (hall side hside)
  exact hruns (hall side.other hpeer)

/-! ## The payoff -/

variable {n : Nat} {s : State n}

theorem runSocketAsync_reachable (h : (runSocketAsync n).Reachable s) (c : Fin n) :
    (s.pairs c).Inv s.term := by
  refine h.invariant (P := fun s => ∀ c, (s.pairs c).Inv s.term) ?_ ?_ c
  · rintro s rfl c
    exact Pair.inv_spawned
  · rintro s t - hs ⟨a, hact⟩ c
    cases a with
    | poll c' side =>
      simp only [act] at hact
      split at hact
      next =>
        obtain rfl := Option.some.inj hact
        exact hs c
      next => cases hact
    | terminate =>
      simp only [act] at hact
      split at hact
      next => cases hact
      next =>
        obtain rfl := Option.some.inj hact
        exact (hs c).terminate
    | run =>
      simp only [act] at hact
      split at hact
      next => cases hact
      next c' side hrunning =>
        obtain ⟨⟨p, yields⟩, hrun, rfl⟩ := Option.map_eq_some_iff.mp hact
        show (Function.update s.pairs c' p c).Inv s.term
        by_cases hc : c = c'
        · rw [hc, Function.update_self]
          exact Pair.run_inv (hs c') hrun
        · rw [Function.update_of_ne hc]
          exact hs c

/-- **No blocking read and no deadlock.** In every reachable state of `n` pairs, whenever
the flag is set: a task at its `read` has a byte to read, and the tasks of a pair that
have not returned are not all waiting. -/
theorem socket_async_safe (n : Nat) (s : State n) (h : (runSocketAsync n).Reachable s) (c : Fin n) :
    (∀ side, ((s.pairs c).task side).pc = .read → ((s.pairs c).task side).queue ≠ []) ∧
      ¬ (s.pairs c).Deadlocked := by
  have hinv := runSocketAsync_reachable h c
  refine ⟨fun side hpc => ?_, hinv.not_deadlocked⟩
  exact (hinv.task side).mine.queue_ne_nil hpc

/-- The flag is set while the first task waits for its echo, and the second task only looks
at it then: it waits at the barrier for the first one, which it has notified. -/
theorem socket_async_safe_cancelled :
    ∃ s, (runSocketAsync 1).Reachable s ∧ (s.pairs 0).socket2.pc = .waiting 0 ∧
      (s.pairs 0).socket1.pc = .notified ∧ ¬ (s.pairs 0).Deadlocked := by
  have hrun : (System.runActions act [.poll 0 .socket1, .run, .run, .run, .run, .terminate,
      .poll 0 .socket2, .run, .run, .run, .run] (State.spawned 1)).isSome = true := rfl
  have hreach : (runSocketAsync 1).Reachable _ :=
    System.reachable_of_runActions (.start (Eq.refl _)) (Option.some_get hrun).symm
  exact ⟨_, hreach, rfl, rfl, (socket_async_safe 1 _ hreach 0).2⟩

end ShouldIAsync.Csgb
