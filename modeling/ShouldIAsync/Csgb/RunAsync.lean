import ShouldIAsync.Csgb.SocketAsyncInv
import ShouldIAsync.Lib.Family

/-!
# `run_async` with the socket pairs

`run_async` spawns all tasks into a local set and blocks on a future that joins them, in whichever
order they end, and adds up what they return; the first `JoinError` is kept instead. It all runs on
one thread: a task is joined while none is being polled.

The executor polls a task that has been woken, and not one that would find itself still waiting. So
once the term flag is set every run ends: all tasks have returned, `run_async` gives the sum of
their counts, and of no pair do the counts differ by more than one (`run_socket_async_ends`). For
what a task does of the socket pair see `SocketAsync`.
-/

namespace ShouldIAsync.Csgb

open ShouldIAsync.Lib ShouldIAsync.Tokio

namespace RunAsync

/-- The future of `block_on`. `rest` are the tasks in the join set; a `result` of `none` is an
error. -/
inductive Main (n : Nat)
  | joining (rest : List (Fin n × Side)) (result : Option Nat)
  | returned (count : Nat)
  -- `expect("join error")`
  | panicked

/-- `block_on` and the tasks it has spawned. -/
structure AsyncState (n : Nat) where
  main : Main n
  tasks : State n

inductive AsyncAction (n : Nat)
  | executor (a : Action n)
  -- `join_next` gives a task
  | joined (task : Fin n × Side)
  -- `join_next` gives none
  | ends

/-- The tasks as they are spawned. -/
def taskIds (n : Nat) : List (Fin n × Side) :=
  (List.finRange n).flatMap fun c => [(c, .socket1), (c, .socket2)]

variable {n : Nat}

/-- The task at its place in its pair. -/
def taskOf (s : State n) (task : Fin n × Side) : Task := (s.pairs task.1).task task.2

/-- `match (&result, joined)` -/
def addJoined (result : Option Nat) (t : Task) : Option Nat :=
  if t.pc = .panicked then none else result.map fun count => count + t.count

/-- The task has been woken, or not polled yet. -/
def woken (s : State n) : Action n → Bool
  | .poll c side => !(taskOf s (c, side)).blocked (s.pairs c).barrier
  | .run | .terminate => true

/-- What it does, or `none` where it cannot happen. -/
def act : AsyncAction n → AsyncState n → Option (AsyncState n)
  | .executor a, s =>
    if woken s.tasks a then
      (Csgb.act a s.tasks).map fun tasks => { s with tasks := tasks }
    else none
  | .joined task, s =>
    match s.main with
    | .joining rest result =>
      if s.tasks.running = none ∧ task ∈ rest ∧ (taskOf s.tasks task).finished = true then
        some { s with main := .joining (rest.erase task) (addJoined result (taskOf s.tasks task)) }
      else none
    | .returned _ | .panicked => none
  | .ends, s =>
    match s.main with
    | .joining [] (some count) =>
      if s.tasks.running = none then some { s with main := .returned count } else none
    | .joining [] none => if s.tasks.running = none then some { s with main := .panicked } else none
    | .joining (_ :: _) _ | .returned _ | .panicked => none

/-- All tasks are spawned and none has run. -/
def start (n : Nat) : AsyncState n := ⟨.joining (taskIds n) (some 0), .spawned n⟩

/-- `run_socket_async(n, term)`, with the future it blocks on. -/
def runAsync (n : Nat) : System (AsyncState n) := .ofActions (fun s => s = start n) act

/-- The runs from when `term` is set. -/
def afterTerm (n : Nat) : System (AsyncState n) where
  init s := (runAsync n).Reachable s ∧ s.tasks.term = true
  step := (runAsync n).step

/-! ## A statement of a task -/

/-- What the next statement of a task can be, where none fails. -/
inductive Statement (side : Side) (term : Bool) (me peer : Task) (b : Barrier) :
    Task → Task → Bool → Prop
  | look (hpc : me.pc = .head) :
    Statement side term me peer b (me.goto (if term then .cancelWrite else side.oneIteration))
      peer false
  | write (hpc : me.pc = .write) :
    Statement side term me peer b (me.goto .notifyOne) (peer.receive me.buf) false
  | notifyOne (hpc : me.pc = .notifyOne) :
    Statement side term me peer b (side.afterNotifyOne me) peer.notifyOne false
  | notified (n : Notify) (hpc : me.pc = .notified) (hpoll : me.notify.pollNotified = (.ready, n)) :
    Statement side term me peer b { me with pc := .read, notify := n } peer false
  | pending (n : Notify) (hpc : me.pc = .notified)
      (hpoll : me.notify.pollNotified = (.pending, n)) :
    Statement side term me peer b { me with notify := n } peer true
  | read (byte : UInt8) (queue : List UInt8) (hpc : me.pc = .read) :
    Statement side term me peer b (side.afterRead { me with buf := byte, queue := queue })
      peer false
  | cancelWrite (hpc : me.pc = .cancelWrite) :
    Statement side term me peer b (me.goto .cancelNotifyOne) (peer.receive me.buf) false
  | cancelNotifyOne (hpc : me.pc = .cancelNotifyOne) :
    Statement side term me peer b (me.goto .cancelWait) peer.notifyOne false
  | cancelWait (generation : Nat) (hpc : me.pc = .cancelWait) :
    Statement side term me peer b (me.goto (.waiting generation)) peer true
  | last (hpc : me.pc = .cancelWait) : Statement side term me peer b (me.goto .returned) peer true
  | leave (generation : Nat) (hpc : me.pc = .waiting generation) :
    Statement side term me peer b (me.goto .returned) peer true
  | stay (generation : Nat) (hpc : me.pc = .waiting generation)
      (hpending : b.pollWait generation = .pending) :
    Statement side term me peer b me peer true

section Statement

variable {side : Side} {term : Bool} {me peer me' peer' : Task} {b b' : Barrier} {yields : Bool}

/-- Each statement of a task is one of `Statement`. -/
theorem statement_of_run (h : Inv side term me peer b)
    (hrun : me.run side term peer b = some ((me', peer', b'), yields)) :
    Statement side term me peer b me' peer' yields := by
  unfold Task.run at hrun
  split at hrun
  next hpc =>
    obtain ⟨⟨rfl, rfl, rfl⟩, rfl⟩ : (_ ∧ _ ∧ _) ∧ _ := by simpa using hrun
    exact .look hpc
  next hpc =>
    rw [h.gate.peer_open (by simp [hpc, Pc.Late])] at hrun
    obtain ⟨⟨rfl, rfl, rfl⟩, rfl⟩ : (_ ∧ _ ∧ _) ∧ _ := by simpa using hrun
    exact .write hpc
  next hpc =>
    obtain ⟨⟨rfl, rfl, rfl⟩, rfl⟩ : (_ ∧ _ ∧ _) ∧ _ := by simpa using hrun
    exact .notifyOne hpc
  next hpc =>
    split at hrun
    next n hpoll =>
      obtain ⟨⟨rfl, rfl, rfl⟩, rfl⟩ : (_ ∧ _ ∧ _) ∧ _ := by simpa using hrun
      exact .notified n hpc hpoll
    next n hpoll =>
      obtain ⟨⟨rfl, rfl, rfl⟩, rfl⟩ : (_ ∧ _ ∧ _) ∧ _ := by simpa using hrun
      exact .pending n hpc hpoll
  next hpc =>
    split at hrun
    next byte queue hqueue =>
      obtain ⟨⟨rfl, rfl, rfl⟩, rfl⟩ : (_ ∧ _ ∧ _) ∧ _ := by simpa using hrun
      exact .read byte queue hpc
    next hqueue => exact absurd hqueue (h.mine.queue_ne_nil hpc)
  next hpc =>
    rw [h.gate.peer_open (by simp [hpc, Pc.Late])] at hrun
    obtain ⟨⟨rfl, rfl, rfl⟩, rfl⟩ : (_ ∧ _ ∧ _) ∧ _ := by simpa using hrun
    exact .cancelWrite hpc
  next hpc =>
    obtain ⟨⟨rfl, rfl, rfl⟩, rfl⟩ : (_ ∧ _ ∧ _) ∧ _ := by simpa using hrun
    exact .cancelNotifyOne hpc
  next hpc =>
    split at hrun
    next b'' hwait =>
      obtain ⟨⟨rfl, rfl, rfl⟩, rfl⟩ : (_ ∧ _ ∧ _) ∧ _ := by simpa using hrun
      exact .last hpc
    next b'' hwait =>
      obtain ⟨⟨rfl, rfl, rfl⟩, rfl⟩ : (_ ∧ _ ∧ _) ∧ _ := by simpa using hrun
      exact .cancelWait b.generation hpc
  next generation hpc =>
    split at hrun
    next hready =>
      obtain ⟨⟨rfl, rfl, rfl⟩, rfl⟩ : (_ ∧ _ ∧ _) ∧ _ := by simpa using hrun
      exact .leave generation hpc
    next hpending =>
      obtain ⟨⟨rfl, rfl, rfl⟩, rfl⟩ : (_ ∧ _ ∧ _) ∧ _ := by simpa using hrun
      exact .stay generation hpc hpending
  next => cases hrun
  next => cases hrun

/-- The peer is sent a byte or a notification, at most. -/
theorem Statement.peer_same (h : Statement side term me peer b me' peer' yields) :
    peer'.pc = peer.pc ∧ peer'.count = peer.count := by
  cases h with
  | _ => exact ⟨rfl, rfl⟩

/-- A task is registered with its `Notify` only while it waits there. -/
def Registered (t : Task) : Prop := t.pc ≠ .notified → t.notify.waiter = .absent

/-- A permit is stored where nobody waits. -/
theorem notifyOne_waiter {n : Notify} (h : n.waiter = .absent) : n.notifyOne.waiter = .absent := by
  unfold Notify.notifyOne
  rw [h]

/-- Who waits is registered, before and after a statement. -/
theorem Statement.registered (h : Statement side term me peer b me' peer' yields)
    (hme : Registered me) (hpeer : Registered peer) : Registered me' ∧ Registered peer' := by
  cases h with
  | look hpc | write hpc | cancelWrite hpc | cancelWait generation hpc | last hpc
  | leave generation hpc =>
    exact ⟨fun _ => hme (by rw [hpc]; exact Pc.noConfusion), hpeer⟩
  | stay generation hpc hpending => exact ⟨hme, hpeer⟩
  | notifyOne hpc =>
    have habsent := hme (by rw [hpc]; exact Pc.noConfusion)
    refine ⟨fun _ => ?_, fun hnot => notifyOne_waiter (hpeer hnot)⟩
    cases side <;> exact habsent
  | cancelNotifyOne hpc =>
    exact ⟨fun _ => hme (by rw [hpc]; exact Pc.noConfusion), fun hnot =>
      notifyOne_waiter (hpeer hnot)⟩
  | notified n hpc hpoll => exact ⟨fun _ => (Notify.pollNotified_ready hpoll).2, hpeer⟩
  | pending n hpc hpoll => exact ⟨fun hnot => absurd hpc hnot, hpeer⟩
  | read byte queue hpc =>
    have habsent := hme (by rw [hpc]; exact Pc.noConfusion)
    refine ⟨fun _ => ?_, hpeer⟩
    cases side <;> exact habsent

/-- A task goes on only if it is not at its end and need not wait. -/
theorem Statement.goes_on (h : Statement side term me peer b me' peer' false)
    (hme : Registered me) :
    me'.finished = false ∧ me'.blocked b' = false := by
  cases h with
  | look hpc =>
    have habsent := hme (by rw [hpc]; exact Pc.noConfusion)
    cases term <;> cases side <;> simp [Task.finished, Task.blocked, Side.oneIteration, habsent]
  | write hpc => exact ⟨rfl, rfl⟩
  | notifyOne hpc =>
    have habsent := hme (by rw [hpc]; exact Pc.noConfusion)
    cases side <;> simp [Task.finished, Task.blocked, Side.afterNotifyOne, habsent]
  | notified n hpc hpoll => exact ⟨rfl, rfl⟩
  | read byte queue hpc => cases side <;> exact ⟨rfl, rfl⟩
  | cancelWrite hpc => exact ⟨rfl, rfl⟩
  | cancelNotifyOne hpc => exact ⟨rfl, rfl⟩

/-! ## What is left to do -/

/-- The statements that a task has left once `term` is set. -/
def left (side : Side) (t : Task) : Nat :=
  match t.pc with
  | .write => match side with
    | .socket1 => 10
    | .socket2 => 7
  | .notifyOne => match side with
    | .socket1 => 9
    | .socket2 => 6
  -- it waits there once at most
  | .notified => (match side with
    | .socket1 => 7
    | .socket2 => 9) + if t.notify.waiter = .absent then 1 else 0
  | .read => match side with
    | .socket1 => 6
    | .socket2 => 8
  | .head => 5
  | .cancelWrite => 4
  | .cancelNotifyOne => 3
  | .cancelWait => 2
  | .waiting _ => 1
  | .returned | .panicked => 0

/-- A permit leaves a task as far from its end as it was. -/
theorem left_notifyOne (side : Side) (t : Task) : left side t.notifyOne = left side t := by
  have hwaiter : t.notify.notifyOne.waiter = .absent ↔ t.notify.waiter = .absent := by
    unfold Notify.notifyOne
    split
    next h => simp [h]
    next h => simp [h]
    next h => simp [h]
  unfold left
  simp only [Task.notifyOne_pc, Task.notifyOne_notify, hwaiter]

/-- A poll that gives pending registers the task. -/
theorem pollNotified_absent {n n' : Notify} (h : n.pollNotified = (.pending, n'))
    (hnot : n.waiter ≠ .waiting) :
    n.waiter = .absent ∧ n'.waiter = .waiting := by
  unfold Notify.pollNotified at h
  split at h
  next hw =>
    split at h
    next => cases h
    next =>
      obtain rfl : _ = n' := (Prod.mk.inj h).2
      exact ⟨hw, rfl⟩
  next hw => exact absurd hw hnot
  next => cases h

/-- A statement of a task that need not wait is one less for it, and none more for its peer. -/
theorem Statement.left_lt (h : Statement side true me peer b me' peer' yields)
    (hawake : me.blocked b = false) :
    left side me' < left side me ∧ left side.other peer' = left side.other peer := by
  cases h with
  | look hpc =>
    rw [if_pos rfl]
    exact ⟨by simp [left, hpc], rfl⟩
  | write hpc => exact ⟨by cases side <;> simp [left, hpc], rfl⟩
  | notifyOne hpc =>
    refine ⟨?_, left_notifyOne _ _⟩
    cases side with
    | socket1 =>
      have hwait : (if me.notify.waiter = .absent then 1 else 0) ≤ 1 := by split <;> decide
      have hbefore : left .socket1 me = 9 := by simp [left, hpc]
      have hafter : left .socket1 (Side.socket1.afterNotifyOne me) =
          7 + if me.notify.waiter = .absent then 1 else 0 := rfl
      omega
    | socket2 => simp [left, hpc, Side.afterNotifyOne]
  | notified n hpc hpoll => exact ⟨by cases side <;> simp only [left, hpc] <;> omega, rfl⟩
  | pending n hpc hpoll =>
    refine ⟨?_, rfl⟩
    have hnot : me.notify.waiter ≠ .waiting := by
      simp only [Task.blocked, hpc, decide_eq_false_iff_not] at hawake
      exact hawake
    obtain ⟨habsent, hwaiting⟩ := pollNotified_absent hpoll hnot
    simp [left, hpc, habsent, hwaiting]
  | read byte queue hpc => exact ⟨by cases side <;> simp [left, hpc, Side.afterRead], rfl⟩
  | cancelWrite hpc => exact ⟨by simp [left, hpc], rfl⟩
  | cancelNotifyOne hpc => exact ⟨by simp [left, hpc], left_notifyOne _ _⟩
  | cancelWait generation hpc => exact ⟨by simp [left, hpc], rfl⟩
  | last hpc => exact ⟨by simp [left, hpc], rfl⟩
  | leave generation hpc => exact ⟨by simp [left, hpc], rfl⟩
  | stay generation hpc hpending =>
    simp only [Task.blocked, hpc, hpending] at hawake
    cases hawake

/-! ## The counts of a pair -/

/-- What the count of a task is going to be once `term` is set. -/
def due (t : Task) : Nat :=
  match t.pc with
  | .write | .notifyOne | .notified | .read => t.count + 1
  | _ => t.count

/-- Once `term` is set no statement changes what the counts are going to be. -/
theorem Statement.due_same (h : Statement side true me peer b me' peer' yields) :
    due me' = due me ∧ due peer' = due peer := by
  refine ⟨?_, ?_⟩
  · cases h with
    | look hpc => simp [due, hpc, Task.goto]
    | stay generation hpc hpending => rfl
    | write hpc | cancelWrite hpc | cancelNotifyOne hpc | cancelWait generation hpc | last hpc
    | leave generation hpc =>
      simp [due, hpc, Task.goto]
    | notified n hpc hpoll => simp [due, hpc]
    | pending n hpc hpoll => simp [due, hpc]
    | notifyOne hpc => cases side <;> simp [due, hpc, Side.afterNotifyOne, Task.goto, Task.counted]
    | read byte queue hpc => cases side <;> simp [due, hpc, Side.afterRead, Task.goto, Task.counted]
  · obtain ⟨hpc, hcount⟩ := h.peer_same
    unfold due
    rw [hpc, hcount]

/-- Before `term` is set: one of the tasks is at work or notified, and the second one has counted
the byte that the first one is notified of. -/
structure Level (first second : Task) : Prop where
  one : first.notify.tokens + Side.socket1.atWork first.pc +
    (second.notify.tokens + Side.socket2.atWork second.pc) = 1
  counts : second.count = first.count + first.notify.tokens + first.pc.taken

/-- The one notification that is sent while the sender alone is at work. -/
theorem tokens_notifyOne {n : Notify} (h : n.tokens = 0) : n.notifyOne.tokens = 1 := by
  have hpos := n.notifyOne_pos
  have hle := n.notifyOne_le
  omega

/-- The two counts stay level over a statement of the first task. -/
theorem Level.first (h : Level me peer) (hnot : me.pc.cancelled = false)
    (hstatement : Statement .socket1 false me peer b me' peer' yields) : Level me' peer' := by
  obtain ⟨hone, hcounts⟩ := h
  cases hstatement with
  | look hpc | write hpc =>
    rw [hpc] at hone hcounts
    exact ⟨hone, hcounts⟩
  | notifyOne hpc =>
    rw [hpc] at hone hcounts
    change me.notify.tokens + 1 + (peer.notify.tokens + Side.socket2.atWork peer.pc) = 1 at hone
    have htokens := tokens_notifyOne (n := peer.notify) (by omega)
    refine ⟨?_, hcounts⟩
    show me.notify.tokens + 0 + (peer.notify.notifyOne.tokens + Side.socket2.atWork peer.pc) = 1
    omega
  | notified n hpc hpoll =>
    obtain ⟨htokens, -⟩ := Notify.pollNotified_ready hpoll
    rw [hpc, htokens] at hone hcounts
    exact ⟨hone, hcounts⟩
  | pending n hpc hpoll =>
    obtain ⟨htokens, htokens'⟩ := Notify.pollNotified_pending hpoll
    rw [htokens, ← htokens'] at hone hcounts
    exact ⟨hone, hcounts⟩
  | read byte queue hpc =>
    rw [hpc] at hone hcounts
    change peer.count = me.count + me.notify.tokens + 1 at hcounts
    refine ⟨hone, ?_⟩
    show peer.count = me.count + 1 + me.notify.tokens + 0
    omega
  | cancelWrite hpc | cancelNotifyOne hpc | cancelWait generation hpc | last hpc
  | leave generation hpc
  | stay generation hpc hpending =>
    rw [hpc] at hnot
    cases hnot

theorem Level.second (h : Level peer me) (hnot : me.pc.cancelled = false)
    (hstatement : Statement .socket2 false me peer b me' peer' yields) : Level peer' me' := by
  obtain ⟨hone, hcounts⟩ := h
  cases hstatement with
  | look hpc | write hpc | read byte queue hpc =>
    rw [hpc] at hone
    exact ⟨hone, hcounts⟩
  | notifyOne hpc =>
    rw [hpc] at hone
    change peer.notify.tokens + Side.socket1.atWork peer.pc + (me.notify.tokens + 1) = 1 at hone
    have hzero : peer.notify.tokens = 0 := by omega
    have htokens := tokens_notifyOne hzero
    refine ⟨?_, ?_⟩
    · show peer.notify.notifyOne.tokens + Side.socket1.atWork peer.pc + (me.notify.tokens + 0) = 1
      omega
    · show me.count + 1 = peer.count + peer.notify.notifyOne.tokens + peer.pc.taken
      omega
  | notified n hpc hpoll =>
    obtain ⟨htokens, -⟩ := Notify.pollNotified_ready hpoll
    rw [hpc, htokens] at hone
    exact ⟨hone, hcounts⟩
  | pending n hpc hpoll =>
    obtain ⟨htokens, htokens'⟩ := Notify.pollNotified_pending hpoll
    rw [htokens, ← htokens'] at hone
    exact ⟨hone, hcounts⟩
  | cancelWrite hpc | cancelNotifyOne hpc | cancelWait generation hpc | last hpc
  | leave generation hpc
  | stay generation hpc hpending =>
    rw [hpc] at hnot
    cases hnot

/-- No task panics: its peer is there while it writes. -/
theorem not_panicked (h : Gate me peer b) : me.pc ≠ .panicked ∧ peer.pc ≠ .panicked := by
  refine ⟨fun hpc => ?_, fun hpc => ?_⟩
  · cases h with
    | early hn hgen harrived hme hpeer =>
      rw [hpc] at hme
      exact hme
    | late hgen hme hpeer =>
      rw [hpc] at hme
      exact hme
  · cases h with
    | early hn hgen harrived hme hpeer =>
      rw [hpc] at hpeer
      exact hpeer
    | late hgen hme hpeer =>
      rw [hpc] at hpeer
      exact hpeer

/-- When `term` is set the counts of a pair are going to differ by one at most. -/
theorem Level.due_le (h : Level me peer) (hgate : Gate me peer b) (hme : me.pc.cancelled = false)
    (hpeer : peer.pc.cancelled = false) : due me ≤ due peer + 1 ∧ due peer ≤ due me + 1 := by
  obtain ⟨hone, hcounts⟩ := h
  obtain ⟨hpanic, hpanic'⟩ := not_panicked hgate
  unfold due
  cases hpc : me.pc <;> cases hpc' : peer.pc <;>
    simp only [hpc, hpc', Side.atWork, Pc.taken, Pc.cancelled, Bool.true_eq_false, ne_eq,
      not_true_eq_false]
      at hone hcounts hme hpeer hpanic hpanic' ⊢ <;>
    omega

/-- A task that is not at its end has a next statement. -/
theorem run_isSome (h : Inv side term me peer b) (hunfinished : me.finished = false) :
    (me.run side term peer b).isSome = true := by
  unfold Task.run
  split
  next => rfl
  next => split <;> rfl
  next => rfl
  next => split <;> rfl
  next hpc =>
    split
    next => rfl
    next hqueue => exact absurd hqueue (h.mine.queue_ne_nil hpc)
  next => rfl
  next => rfl
  next => split <;> rfl
  next => split <;> rfl
  next hpc => simp [Task.finished, hpc] at hunfinished
  next hpc => simp [Task.finished, hpc] at hunfinished

/-- A task that has finished has returned its count. -/
theorem pc_of_finished (h : Gate me peer b) (hfinished : me.finished = true) :
    me.pc = .returned := by
  have hor : me.pc = .returned ∨ me.pc = .panicked := of_decide_eq_true hfinished
  exact hor.resolve_right (not_panicked h).1

end Statement

/-! ## The executor -/

/-- A poll of one side of a pair is a statement of its two tasks. -/
theorem statement_of_pair {p p' : Pair} {side : Side} {term yields : Bool} (h : p.Inv term)
    (hrun : p.run side term = some (p', yields)) :
    Statement side term (p.task side) (p.task side.other) p.barrier (p'.task side)
      (p'.task side.other) yields := by
  unfold Pair.run at hrun
  cases side with
  | socket1 =>
    obtain ⟨⟨⟨me, peer, b⟩, y⟩, hstep, heq⟩ := Option.map_eq_some_iff.mp hrun
    obtain ⟨rfl, rfl⟩ := Prod.mk.inj heq
    exact statement_of_run h hstep
  | socket2 =>
    obtain ⟨⟨⟨me, peer, b⟩, y⟩, hstep, heq⟩ := Option.map_eq_some_iff.mp hrun
    obtain ⟨rfl, rfl⟩ := Prod.mk.inj heq
    exact statement_of_run h.swap hstep

/-- A step of the executor, which polls nobody in vain. -/
inductive Executes (s : State n) : State n → Prop
  | poll (c : Fin n) (side : Side) (hrunning : s.running = none)
      (hunfinished : (taskOf s (c, side)).finished = false)
    (hawake : (taskOf s (c, side)).blocked (s.pairs c).barrier = false) :
    Executes s { s with running := some (c, side) }
  | run (c : Fin n) (side : Side) (p : Pair) (yields : Bool) (hrunning : s.running = some (c, side))
    (hrun : (s.pairs c).run side s.term = some (p, yields)) :
    Executes s { s with
      pairs := Function.update s.pairs c p
      running := if yields then none else s.running }
  | terminate (hterm : s.term = false) : Executes s { s with term := true }

section Executor

variable {s t : State n} {a : Action n}

/-- What the executor does is one of `Executes`. -/
theorem executes_of_act (hwoken : woken s a = true) (hact : Csgb.act a s = some t) :
    Executes s t := by
  cases a with
  | poll c side =>
    simp only [Csgb.act] at hact
    split at hact
    next hpoll =>
      obtain rfl := Option.some.inj hact
      refine .poll c side hpoll.1 hpoll.2 ?_
      unfold woken at hwoken
      simpa using hwoken
    next => cases hact
  | run =>
    simp only [Csgb.act] at hact
    split at hact
    next => cases hact
    next c side hrunning =>
      obtain ⟨⟨p, yields⟩, hrun, rfl⟩ := Option.map_eq_some_iff.mp hact
      exact .run c side p yields hrunning hrun
  | terminate =>
    simp only [Csgb.act] at hact
    split at hact
    next => cases hact
    next hterm =>
      obtain rfl := Option.some.inj hact
      exact .terminate (Bool.eq_false_of_not_eq_true hterm)

/-- What is known of the tasks beyond `Pair.Inv`. -/
structure TasksInv (s : State n) : Prop where
  registered : ∀ task, Registered (taskOf s task)
  awake : ∀ task, s.running = some task →
    (taskOf s task).finished = false ∧ (taskOf s task).blocked (s.pairs task.1).barrier = false
  level : s.term = false → ∀ c, Level (s.pairs c).socket1 (s.pairs c).socket2
  final : s.term = true → ∀ c, due (s.pairs c).socket1 ≤ due (s.pairs c).socket2 + 1 ∧
    due (s.pairs c).socket2 ≤ due (s.pairs c).socket1 + 1

theorem side_eq_or (side side' : Side) : side' = side ∨ side' = side.other := by
  cases side <;> cases side' <;> simp [Side.other]

/-- What is so of the task and its peer is so of both tasks of the pair. -/
theorem forall_side {P : Task → Prop} {p : Pair} {side : Side} (hme : P (p.task side))
    (hpeer : P (p.task side.other)) (side' : Side) : P (p.task side') := by
  rcases side_eq_or side side' with rfl | rfl
  · exact hme
  · exact hpeer

/-- Nobody is cancelled before `term` is set. -/
theorem not_cancelled {p : Pair} {term : Bool} (h : p.Inv term) (hterm : term = false)
    (side : Side) :
    (p.task side).pc.cancelled = false := by
  by_contra hcancelled
  have htrue := (h.task side).mine.cancelled (Bool.not_eq_false _ ▸ hcancelled)
  rw [hterm] at htrue
  cases htrue

/-- The counts of a pair stay level over a statement of either side. -/
theorem Level.statement {p p' : Pair} {side : Side} {yields : Bool} (h : Level p.socket1 p.socket2)
    (hpair : p.Inv false)
    (hstatement : Statement side false (p.task side) (p.task side.other) p.barrier
      (p'.task side) (p'.task side.other) yields) : Level p'.socket1 p'.socket2 := by
  have hnot := not_cancelled hpair rfl side
  cases side with
  | socket1 => exact h.first hnot hstatement
  | socket2 => exact h.second hnot hstatement

/-- Once `term` is set no statement changes what the two counts of a pair are going to be. -/
theorem Statement.pair_due {p p' : Pair} {side : Side} {yields : Bool}
    (hstatement : Statement side true (p.task side) (p.task side.other) p.barrier (p'.task side)
      (p'.task side.other)
      yields) : due p'.socket1 = due p.socket1 ∧ due p'.socket2 = due p.socket2 := by
  cases side with
  | socket1 => exact hstatement.due_same
  | socket2 => exact hstatement.due_same.symm

/-- What the executor does keeps the invariant of the tasks. -/
theorem TasksInv.executes (h : TasksInv s) (hpairs : ∀ c, (s.pairs c).Inv s.term)
    (hstep : Executes s t) :
    TasksInv t := by
  cases hstep with
  | poll c side hrunning hunfinished hawake =>
    refine ⟨h.registered, fun task htask => ?_, h.level, h.final⟩
    obtain rfl := Option.some.inj htask
    exact ⟨hunfinished, hawake⟩
  | terminate hterm =>
    refine ⟨h.registered, h.awake, fun hfalse => absurd hfalse Bool.noConfusion, fun _ c => ?_⟩
    exact (h.level hterm c).due_le (hpairs c).gate (not_cancelled (hpairs c) hterm .socket1)
      (not_cancelled (hpairs c) hterm .socket2)
  | run c side p yields hrunning hrun =>
    have hpair := hpairs c
    have hstatement := statement_of_pair hpair hrun
    have hregistered :=
      hstatement.registered (h.registered (c, side)) (h.registered (c, side.other))
    constructor
    case registered =>
      have hall : ∀ c' side', Registered ((Function.update s.pairs c p c').task side') :=
        (Function.forall_update_iff _ fun _ (q : Pair) => ∀ side', Registered (q.task side')).mpr
          ⟨forall_side hregistered.1 hregistered.2, fun c' _ side' => h.registered (c', side')⟩
      exact fun task => hall task.1 task.2
    case awake =>
      intro task htask
      cases yields with
      | true => cases htask
      | false =>
        obtain rfl := Option.some.inj (hrunning.symm.trans htask)
        unfold taskOf
        dsimp only
        rw [Function.update_self]
        exact hstatement.goes_on (h.registered (c, side))
    case level =>
      intro hterm
      dsimp only at hterm
      rw [hterm] at hstatement hpair
      exact (Function.forall_update_iff _ fun _ (q : Pair) => Level q.socket1 q.socket2).mpr
        ⟨(h.level hterm c).statement hpair hstatement, fun c' _ => h.level hterm c'⟩
    case final =>
      intro hterm
      dsimp only at hterm
      rw [hterm] at hstatement
      obtain ⟨hdue1, hdue2⟩ := hstatement.pair_due
      refine (Function.forall_update_iff _ fun _ (q : Pair) =>
        due q.socket1 ≤ due q.socket2 + 1 ∧ due q.socket2 ≤ due q.socket1 + 1).mpr ⟨?_,
          fun c' _ => h.final hterm c'⟩
      rw [hdue1, hdue2]
      exact h.final hterm c

/-- A task that has returned stays as it is. -/
theorem kept (h : TasksInv s) (hpairs : ∀ c, (s.pairs c).Inv s.term) (hstep : Executes s t)
    {task : Fin n × Side} (hpc : (taskOf s task).pc = .returned) :
    (taskOf t task).pc = .returned ∧ (taskOf t task).count = (taskOf s task).count := by
  cases hstep with
  | poll c side hrunning hunfinished hawake => exact ⟨hpc, rfl⟩
  | terminate hterm => exact ⟨hpc, rfl⟩
  | run c side p yields hrunning hrun =>
    have hstatement := statement_of_pair (hpairs c) hrun
    obtain ⟨c', side'⟩ := task
    unfold taskOf at hpc ⊢
    dsimp only at hpc ⊢
    by_cases hc : c' = c
    · subst hc
      rw [Function.update_self]
      rcases side_eq_or side side' with rfl | rfl
      · -- it would not be polled
        have hunfinished := (h.awake (c', side') hrunning).1
        unfold taskOf at hunfinished
        simp [Task.finished, hpc] at hunfinished
      · obtain ⟨hpc', hcount⟩ := hstatement.peer_same
        exact ⟨hpc'.trans hpc, hcount⟩
    · rw [Function.update_of_ne hc]
      exact ⟨hpc, rfl⟩

/-- How far the tasks of a pair are from their end. -/
def pairLeft (p : Pair) : Nat := left .socket1 p.socket1 + left .socket2 p.socket2

/-- What the tasks have left to do, with the polls that are to come: a statement may end one. -/
def tasksLeft (s : State n) : Nat :=
  2 * ∑ c, pairLeft (s.pairs c) + if s.running = none then 1 else 0

/-- After `term` whatever the executor does brings the tasks nearer to their end. -/
theorem tasksLeft_lt (h : TasksInv s) (hpairs : ∀ c, (s.pairs c).Inv s.term) (hterm : s.term = true)
    (hstep : Executes s t) : tasksLeft t < tasksLeft s := by
  cases hstep with
  | poll c side hrunning hunfinished hawake =>
    unfold tasksLeft
    rw [if_pos hrunning, if_neg (Option.some_ne_none _)]
    exact Nat.lt_succ_self _
  | terminate hfalse =>
    rw [hterm] at hfalse
    cases hfalse
  | run c side p yields hrunning hrun =>
    have hstatement := statement_of_pair (hpairs c) hrun
    rw [hterm] at hstatement
    obtain ⟨hlt, heq⟩ := hstatement.left_lt (h.awake (c, side) hrunning).2
    have hpair : pairLeft p < pairLeft (s.pairs c) := by
      cases side with
      | socket1 => exact Nat.add_lt_add_of_lt_of_le hlt (le_of_eq heq)
      | socket2 => exact Nat.add_lt_add_of_le_of_lt (le_of_eq heq) hlt
    have hsum : ∑ c', pairLeft (Function.update s.pairs c p c') < ∑ c', pairLeft (s.pairs c') :=
      Family.sum_update_lt (w := fun _ => pairLeft) hpair
    have hpolled : s.running ≠ none := by
      rw [hrunning]
      exact Option.some_ne_none _
    have hpoll : ∀ running : Option (Fin n × Side), (if running = none then 1 else 0) ≤ 1 := by
      intro running
      split <;> omega
    have hpolls := hpoll (if yields then none else s.running)
    unfold tasksLeft
    rw [if_neg hpolled]
    dsimp only
    omega

end Executor

/-! ## Joining -/

variable {s t : AsyncState n}

/-- A step of the executor, or of the future it blocks on. -/
theorem act_cases {a : AsyncAction n} (h : act a s = some t) :
    (∃ b, woken s.tasks b = true ∧ Csgb.act b s.tasks = some t.tasks ∧ t.main = s.main) ∨
    (∃ task rest result, s.main = .joining rest result ∧ task ∈ rest ∧
      (taskOf s.tasks task).finished = true ∧
      t.main = .joining (rest.erase task) (addJoined result (taskOf s.tasks task)) ∧
      t.tasks = s.tasks) ∨
    (∃ count, s.main = .joining [] (some count) ∧ t.main = .returned count ∧ t.tasks = s.tasks) ∨
    (s.main = .joining [] none ∧ t.main = .panicked ∧ t.tasks = s.tasks) := by
  cases a with
  | executor b =>
    left
    simp only [act] at h
    split at h
    next hwoken =>
      obtain ⟨tasks, hact, rfl⟩ := Option.map_eq_some_iff.mp h
      exact ⟨b, hwoken, hact, rfl⟩
    next => cases h
  | joined task =>
    right; left
    simp only [act] at h
    split at h
    next rest result hmain =>
      split at h
      next hjoin =>
        obtain rfl := Option.some.inj h
        exact ⟨task, rest, result, hmain, hjoin.2.1, hjoin.2.2, rfl, rfl⟩
      next => cases h
    next => cases h
    next => cases h
  | ends =>
    right; right
    simp only [act] at h
    split at h
    next count hmain =>
      split at h
      next =>
        obtain rfl := Option.some.inj h
        exact Or.inl ⟨count, hmain, rfl, rfl⟩
      next => cases h
    next hmain =>
      split at h
      next =>
        obtain rfl := Option.some.inj h
        exact Or.inr ⟨hmain, rfl, rfl⟩
      next => cases h
    next => cases h
    next => cases h
    next => cases h

/-- The tasks of `run_async` take steps of theirs, or none. -/
theorem refines : System.Refines (runAsync n) (runSocketAsync n) AsyncState.tasks where
  init := by
    rintro s rfl
    rfl
  step := by
    rintro s t - ⟨a, hact⟩
    obtain ⟨b, -, hb, -⟩ | ⟨task, rest, result, -, -, -, -, htasks⟩ | ⟨count, -, -, htasks⟩ |
        ⟨-, -, htasks⟩ :=
      act_cases hact
    · exact Or.inl ⟨b, hb⟩
    · exact Or.inr htasks
    · exact Or.inr htasks
    · exact Or.inr htasks

theorem pairs_inv (h : (runAsync n).Reachable s) (c : Fin n) : (s.tasks.pairs c).Inv s.tasks.term :=
  runSocketAsync_reachable (refines.reachable h) c

theorem tasks_inv (h : (runAsync n).Reachable s) : TasksInv s.tasks := by
  refine h.invariant (P := fun s => TasksInv s.tasks) ?_ ?_
  · rintro s rfl
    refine ⟨fun task _ => ?_, fun task htask => (by cases htask), fun _ c =>
      ⟨rfl, rfl⟩, fun hterm => (by cases hterm)⟩
    obtain ⟨c, side⟩ := task
    cases side <;> rfl
  · rintro s t hs htasks ⟨a, hact⟩
    obtain ⟨b, hwoken, hb, -⟩ | ⟨task, rest, result, -, -, -, -, heq⟩ | ⟨count, -, -, heq⟩ |
        ⟨-, -, heq⟩ :=
      act_cases hact
    · exact htasks.executes (pairs_inv hs) (executes_of_act hwoken hb)
    · exact heq ▸ htasks
    · exact heq ▸ htasks
    · exact heq ▸ htasks

/-- What is known of the tasks that have been joined. -/
def Joined (tasks : State n) : Main n → Prop
  | .joining rest result =>
    ∃ done : List (Fin n × Side), (done ++ rest).Perm (taskIds n) ∧
      (∀ task ∈ done, (taskOf tasks task).pc = .returned) ∧
      result = some (done.map fun task => (taskOf tasks task).count).sum
  | .returned count =>
    (∀ task, (taskOf tasks task).pc = .returned) ∧
      count = ((taskIds n).map fun task => (taskOf tasks task).count).sum
  | .panicked => False

theorem taskIds_mem (task : Fin n × Side) : task ∈ taskIds n := by
  obtain ⟨c, side⟩ := task
  refine List.mem_flatMap.mpr ⟨c, List.mem_finRange c, ?_⟩
  cases side <;> simp

/-- What is known of them stays while the returned tasks stay as they are. -/
theorem Joined.kept {tasks tasks' : State n} {main : Main n} (h : Joined tasks main)
    (hkept : ∀ task, (taskOf tasks task).pc = .returned →
      (taskOf tasks' task).pc = .returned ∧ (taskOf tasks' task).count =
        (taskOf tasks task).count) :
    Joined tasks' main := by
  cases main with
  | joining rest result =>
    obtain ⟨done, hperm, hreturned, rfl⟩ := h
    refine ⟨done, hperm, fun task htask => (hkept task (hreturned task htask)).1, ?_⟩
    rw [List.map_congr_left fun task htask => (hkept task (hreturned task htask)).2]
  | returned count =>
    obtain ⟨hreturned, rfl⟩ := h
    refine ⟨fun task => (hkept task (hreturned task)).1, ?_⟩
    rw [List.map_congr_left fun task _ => (hkept task (hreturned task)).2]
  | panicked => exact h

/-- One more task has been joined. -/
theorem Joined.cons {tasks : State n} {rest : List (Fin n × Side)} {result : Option Nat}
    {task : Fin n × Side} (h : Joined tasks (.joining rest result)) (hmem : task ∈ rest)
    (hpc : (taskOf tasks task).pc = .returned) :
    Joined tasks (.joining (rest.erase task) (addJoined result (taskOf tasks task))) := by
  obtain ⟨done, hperm, hreturned, rfl⟩ := h
  refine ⟨task :: done, ?_, fun task' htask' => ?_, ?_⟩
  · refine (List.perm_middle.symm.trans ?_).trans hperm
    exact (List.perm_cons_erase hmem).symm.append_left done
  · rcases List.mem_cons.mp htask' with rfl | htask'
    · exact hpc
    · exact hreturned task' htask'
  · unfold addJoined
    rw [if_neg (by rw [hpc]; exact Pc.noConfusion), List.map_cons, List.sum_cons, Nat.add_comm]
    rfl

/-- All tasks have been joined. -/
theorem Joined.all {tasks : State n} {result : Option Nat} (h : Joined tasks (.joining [] result)) :
    ∃ count, result = some count ∧ Joined tasks (.returned count) := by
  obtain ⟨done, hperm, hreturned, hresult⟩ := h
  rw [List.append_nil] at hperm
  exact ⟨_, hresult, fun task => hreturned task (hperm.mem_iff.mpr (taskIds_mem task)),
    (hperm.map _).sum_eq⟩

/-- In each run the result so far is that of the tasks that have been joined. -/
theorem joined (h : (runAsync n).Reachable s) : Joined s.tasks s.main := by
  refine h.invariant (P := fun s => Joined s.tasks s.main) ?_ ?_
  · rintro s rfl
    exact ⟨[], .refl _, fun _ hnil => absurd hnil List.not_mem_nil, rfl⟩
  · rintro s t hs hjoined ⟨a, hact⟩
    obtain ⟨b, hwoken, hb, hmain⟩ | ⟨task, rest, result, hmain, hmem, hfinished, hmain', heq⟩ |
      ⟨count, hmain, hmain', heq⟩ | ⟨hmain, -, -⟩ := act_cases hact
    · rw [hmain]
      exact hjoined.kept fun task => kept (tasks_inv hs) (pairs_inv hs) (executes_of_act hwoken hb)
    · rw [hmain] at hjoined
      rw [hmain', heq]
      exact hjoined.cons hmem (pc_of_finished ((pairs_inv hs task.1).task task.2).gate hfinished)
    · rw [hmain] at hjoined
      rw [hmain', heq]
      obtain ⟨count', hcount, hall⟩ := hjoined.all
      rw [Option.some.inj hcount]
      exact hall
    · rw [hmain] at hjoined
      obtain ⟨count, hnone, -⟩ := hjoined.all
      cases hnone

/-! ## After the signal -/

/-- Once set, `term` stays set. -/
theorem Executes.term {s t : State n} (h : Executes s t) (hterm : s.term = true) :
    t.term = true := by
  cases h with
  | poll c side hrunning hunfinished hawake => exact hterm
  | run c side p yields hrunning hrun => exact hterm
  | terminate hfalse => rfl

theorem afterTerm_reachable (h : (afterTerm n).Reachable s) :
    (runAsync n).Reachable s ∧ s.tasks.term = true := by
  refine h.invariant (fun s hs => hs) ?_
  rintro s t - ⟨hs, hterm⟩ ⟨a, hact⟩
  refine ⟨.next hs ⟨a, hact⟩, ?_⟩
  obtain ⟨b, hwoken, hb, -⟩ | ⟨task, rest, result, -, -, -, -, heq⟩ | ⟨count, -, -, heq⟩ |
      ⟨-, -, heq⟩ :=
    act_cases hact
  · exact (executes_of_act hwoken hb).term hterm
  · exact heq ▸ hterm
  · exact heq ▸ hterm
  · exact heq ▸ hterm

/-- What the future of `block_on` has left to do. -/
def mainLeft : Main n → Nat
  | .joining rest _ => rest.length + 1
  | .returned _ | .panicked => 0

/-- How far the run is from its end. -/
def asyncLeft (s : AsyncState n) : Nat := tasksLeft s.tasks + mainLeft s.main

/-- After `term` each step brings the run nearer to its end. -/
theorem step_lt (hs : (afterTerm n).Reachable s) (hstep : (afterTerm n).step s t) :
    asyncLeft t < asyncLeft s := by
  unfold asyncLeft
  obtain ⟨hreach, hterm⟩ := afterTerm_reachable hs
  obtain ⟨a, hact⟩ := hstep
  obtain ⟨b, hwoken, hb, hmain⟩ | ⟨task, rest, result, hmain, hmem, -, hmain', heq⟩ |
    ⟨count, hmain, hmain', heq⟩ | ⟨hmain, hmain', heq⟩ := act_cases hact
  · rw [hmain]
    exact Nat.add_lt_add_right
      (tasksLeft_lt (tasks_inv hreach) (pairs_inv hreach) hterm (executes_of_act hwoken hb)) _
  · rw [heq, hmain, hmain']
    have hlength := List.length_erase_of_mem hmem
    have hpos := List.length_pos_of_mem hmem
    refine Nat.add_lt_add_left ?_ _
    show (rest.erase task).length + 1 < rest.length + 1
    omega
  · rw [heq, hmain, hmain']
    exact Nat.lt_succ_self _
  · rw [heq, hmain, hmain']
    exact Nat.lt_succ_self _

/-- While a task is not at its end the executor can go on. -/
theorem executor_goes_on (hs : (runAsync n).Reachable s) {task : Fin n × Side}
    (hunfinished : (taskOf s.tasks task).finished = false) :
    ∃ b, woken s.tasks b = true ∧ (Csgb.act b s.tasks).isSome = true := by
  cases hrunning : s.tasks.running with
  | some polled =>
    obtain ⟨c, side⟩ := polled
    refine ⟨.run, rfl, ?_⟩
    have hrun := run_isSome ((pairs_inv hs c).task side) ((tasks_inv hs).awake (c, side) hrunning).1
    simp only [Csgb.act, hrunning, Option.isSome_map]
    cases side with
    | socket1 => exact (Option.isSome_map ..).trans hrun
    | socket2 => exact (Option.isSome_map ..).trans hrun
  | none =>
    obtain ⟨c, side⟩ := task
    have hpc : ((s.tasks.pairs c).task side).pc ≠ .returned := by
      intro hpc
      simp [taskOf, Task.finished, hpc] at hunfinished
    have hnot := (pairs_inv hs c).not_deadlocked
    unfold Pair.Deadlocked at hnot
    obtain ⟨side', hpc', hawake⟩ : ∃ side', ((s.tasks.pairs c).task side').pc ≠ .returned ∧
        ((s.tasks.pairs c).task side').blocked (s.tasks.pairs c).barrier = false := by
      by_contra hnone
      refine hnot ⟨⟨side, hpc⟩, fun side' hpc' => ?_⟩
      by_contra hawake
      exact hnone ⟨side', hpc', Bool.eq_false_of_not_eq_true hawake⟩
    have hunfinished' : ((s.tasks.pairs c).task side').finished = false := by
      by_contra hfinished
      exact hpc' (pc_of_finished ((pairs_inv hs c).task side').gate
        (Bool.eq_true_of_not_eq_false hfinished))
    refine ⟨.poll c side', ?_, ?_⟩
    · simp [woken, taskOf, hawake]
    · simp [Csgb.act, hrunning, hunfinished']

/-- After `term` a run that cannot go on has returned a count. -/
theorem ended (hs : (afterTerm n).Reachable s) (hstuck : (afterTerm n).Stuck s) :
    ∃ count, s.main = .returned count := by
  obtain ⟨hreach, -⟩ := afterTerm_reachable hs
  have hjoined := joined hreach
  cases hm : s.main with
  | returned count => exact ⟨count, rfl⟩
  | panicked =>
    rw [hm] at hjoined
    exact hjoined.elim
  | joining rest result =>
    exfalso
    have hfinished : ∀ task, (taskOf s.tasks task).finished = true := by
      intro task
      by_contra hunfinished
      obtain ⟨b, hwoken, hb⟩ := executor_goes_on hreach (Bool.eq_false_of_not_eq_true hunfinished)
      obtain ⟨tasks, htasks⟩ := Option.isSome_iff_exists.mp hb
      refine hstuck { s with tasks := tasks } ⟨.executor b, ?_⟩
      simp only [act, hwoken, if_true, htasks, Option.map_some]
    -- nobody is polled who is at the end
    have hrunning : s.tasks.running = none := by
      by_contra hpolled
      obtain ⟨task, htask⟩ := Option.ne_none_iff_exists'.mp hpolled
      have hunfinished := ((tasks_inv hreach).awake task htask).1
      rw [hfinished task] at hunfinished
      cases hunfinished
    rw [hm] at hjoined
    obtain ⟨done, -, -, hresult⟩ := hjoined
    cases rest with
    | nil =>
      rw [hresult] at hm
      refine hstuck
        { s with main := .returned (done.map fun task => (taskOf s.tasks task).count).sum }
        ⟨.ends, ?_⟩
      simp only [act, hm, hrunning, if_true]
    | cons task rest =>
      let joined :=
        Main.joining ((task :: rest).erase task) (addJoined result (taskOf s.tasks task))
      refine hstuck { s with main := joined } ⟨.joined task, ?_⟩
      simp only [act, hm]
      exact if_pos ⟨hrunning, List.mem_cons_self, hfinished task⟩

/-- What `run_async` gives when all has ended. -/
theorem returned_counts (hs : (afterTerm n).Reachable s) {count : Nat}
    (hmain : s.main = .returned count) :
    count = ∑ c, ((s.tasks.pairs c).socket1.count + (s.tasks.pairs c).socket2.count) ∧
      ∀ c, ((s.tasks.pairs c).socket1.pc = .returned ∧ (s.tasks.pairs c).socket2.pc = .returned) ∧
        (s.tasks.pairs c).socket1.count ≤ (s.tasks.pairs c).socket2.count + 1 ∧
        (s.tasks.pairs c).socket2.count ≤ (s.tasks.pairs c).socket1.count + 1 := by
  obtain ⟨hreach, hterm⟩ := afterTerm_reachable hs
  have hjoined := joined hreach
  rw [hmain] at hjoined
  obtain ⟨hreturned, hcount⟩ := hjoined
  refine ⟨hcount.trans (Family.sum_map_pairs _ _ _), fun c => ?_⟩
  have hpc1 : (s.tasks.pairs c).socket1.pc = .returned := hreturned (c, .socket1)
  have hpc2 : (s.tasks.pairs c).socket2.pc = .returned := hreturned (c, .socket2)
  refine ⟨⟨hpc1, hpc2⟩, ?_⟩
  have hfinal := (tasks_inv hreach).final hterm c
  simpa only [due, hpc1, hpc2] using hfinal

end RunAsync

open RunAsync in
/-- **`run_socket_async` ends after the signal**, in whichever order the executor polls the tasks
that have been woken: all tasks have returned, it gives the sum of their counts, and of no pair do
the counts differ by more than one. -/
theorem run_socket_async_ends (n : Nat) :
    System.EveryRunEnds (afterTerm n) fun s =>
      s.main = .returned
        (∑ c, ((s.tasks.pairs c).socket1.count + (s.tasks.pairs c).socket2.count)) ∧
        ∀ c, ((s.tasks.pairs c).socket1.pc = .returned ∧ (s.tasks.pairs c).socket2.pc = .returned) ∧
          (s.tasks.pairs c).socket1.count ≤ (s.tasks.pairs c).socket2.count + 1 ∧
          (s.tasks.pairs c).socket2.count ≤ (s.tasks.pairs c).socket1.count + 1 := by
  refine System.everyRunEnds_of_measure wellFounded_lt asyncLeft (fun _ _ hs hstep =>
    step_lt hs hstep)
    fun s hs hstuck => ?_
  obtain ⟨count, hmain⟩ := ended hs hstuck
  obtain ⟨rfl, hpairs⟩ := returned_counts hs hmain
  exact ⟨hmain, hpairs⟩

end ShouldIAsync.Csgb
