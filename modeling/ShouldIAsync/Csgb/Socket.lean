import ShouldIAsync.Csgb.Handoff

/-!
# The socket pairs of `run_socket`

The threads of a pair pass a byte back and forth over a `UnixStream::pair()`: the first
writes and then reads, the second reads and then writes. A thread that sees `term` writes
one byte more and returns; the sockets stay open until all threads have. Reads block, and
a signal may interrupt a blocked read once `term` is set, which ends the read without a
byte. Writes do not block: there is never more on the way than a few bytes.

Until `term` is set there is one byte, in one of the queues or with one of the threads
(`tokens`).
-/

namespace ShouldIAsync.Csgb

open ShouldIAsync.Lib

namespace Socket

/-- The next atomic step. -/
inductive Pc
  -- the load of `term`
  | head
  | write
  | read
  -- the write of `on_cancelled`
  | cancelWrite
  | returned
  deriving DecidableEq

/-- A runner of a pair. -/
structure Thread where
  pc : Pc
  count : Nat
  buf : UInt8
  /-- received by the socket -/
  queue : List UInt8

/-- The thread goes on at `pc`. -/
def Thread.goto (pc : Pc) (t : Thread) : Thread := { t with pc := pc }

/-- The end of an iteration. -/
def Thread.counted (t : Thread) : Thread := { t with pc := .head, count := t.count + 1 }

/-- A byte arrives at the socket of the thread. -/
def Thread.receive (b : UInt8) (t : Thread) : Thread := { t with queue := t.queue ++ [b] }

/-- Where an iteration starts: the first thread writes, the second one reads. -/
def firstStatement : Member → Pc
  | .first => .write
  | .second => .read

/-- Where it goes on after its `write`. -/
def afterWrite : Member → Thread → Thread
  | .first => Thread.goto .read
  | .second => Thread.counted

/-- And after its `read`. -/
def afterRead : Member → Thread → Thread
  | .first => Thread.counted
  | .second => Thread.goto .write

/-- A step of the thread `who`. -/
def step (who : Member) (term : Bool) (me peer : Thread) : Option (Thread × Thread) :=
  match me.pc with
  | .head => some (me.goto (if term then .cancelWrite else firstStatement who), peer)
  | .write => some (afterWrite who me, peer.receive me.buf)
  | .read =>
    match me.queue with
    | [] => none
    | b :: queue => some (afterRead who { me with buf := b, queue := queue }, peer)
  | .cancelWrite => some (me.goto .returned, peer.receive me.buf)
  | .returned => none

/-- A blocked `read` returns `Interrupted`, which `read_one_byte` ignores. -/
def interrupt (who : Member) (term : Bool) (me : Thread) : Option Thread :=
  if term = true ∧ me.pc = .read ∧ me.queue = [] then some (afterRead who me) else none

/-- A `SocketRunner` pair. -/
def runner : Runner Thread where
  start := ⟨.head, 0, 0, []⟩
  step := step
  interrupt := interrupt

end Socket

/-- The threads of a pair of `run_socket`. -/
def runSocket : System (Threads Socket.Thread) := Socket.runner.run

namespace Socket

/-! ## The invariant -/

/-- Going to read, and not to write before. -/
def goesToRead : Member → Pc → Bool
  | .first, .read => true
  | .second, .head | .second, .read => true
  | _, _ => false

/-- Going to read without a look at `term` before. -/
def awaits : Member → Pc → Bool
  | .first, .write | .first, .read => true
  | .second, .read => true
  | _, _ => false

/-- The thread has left its loop. -/
def Pc.cancelled : Pc → Bool
  | .cancelWrite | .returned => true
  | _ => false

/-- The thread has returned. -/
def Pc.gone : Pc → Bool
  | .returned => true
  | _ => false

/-- A byte in a queue as a message. -/
def handoff : Handoff Thread where
  full t := t.queue ≠ []
  goesToWait who t := goesToRead who t.pc
  awaits who t := awaits who t.pc
  cancelled t := t.pc.cancelled
  parted _ t := t.pc.gone
  parted_cancelled {_ t} h := by
    cases hpc : t.pc with
    | returned => exact Eq.refl _
    | _ =>
      rw [hpc] at h
      cases h

/-- The token with a thread: after its read, or before its first write. -/
def withThread : Member → Pc → Nat
  | .first, .head | .first, .write => 1
  | .second, .write => 1
  | _, _ => 0

/-- The bytes on the way, and those that the threads are about to write. -/
def tokens (who : Member) (me peer : Thread) : Nat :=
  me.queue.length + peer.queue.length + withThread who me.pc + withThread who.other peer.pc

/-- What holds of the two threads between any two steps. -/
structure Inv (who : Member) (term : Bool) (me peer : Thread) : Prop where
  handoff : handoff.Inv who term me peer
  one : term = false → tokens who me peer = 1

/-- A thread that has received a byte need not wait. -/
theorem receive_full (b : UInt8) (t : Thread) : handoff.full (t.receive b) :=
  List.concat_ne_nil b t.queue

/-- A byte that arrives changes nothing else of what the handoff looks at. -/
theorem receive_keeps (who : Member) (b : UInt8) (t : Thread) : handoff.Keeps who t (t.receive b) :=
  ⟨fun _ => receive_full b t, id, id, id, id⟩

section Step

variable {who : Member} {term : Bool} {me peer me' peer' : Thread}

/-- The invariant does not depend on which of the two is named first. -/
theorem Inv.swap (h : Inv who term me peer) : Inv who.other term peer me := by
  refine ⟨h.handoff.swap, fun hterm => ?_⟩
  have := h.one hterm
  unfold tokens at this ⊢
  rw [Member.other_other]
  omega

/-- At the load of `term`. -/
theorem head_inv (h : Inv who term me peer) (hpc : me.pc = .head) :
    Inv who term (me.goto (if term then .cancelWrite else firstStatement who)) peer := by
  refine ⟨?_, fun hterm => ?_⟩
  · cases who <;> cases term <;>
      refine h.handoff.next ?_ ?_ ?_ ?_ (.refl _ _) <;>
        simp [handoff, hpc, firstStatement, Thread.goto, Pc.cancelled, Pc.gone, awaits, goesToRead]
  · have hone := h.one hterm
    subst hterm
    unfold tokens at hone ⊢
    rw [hpc] at hone
    cases who <;> exact hone

/-- A `write` in the loop keeps the invariant. -/
theorem write_inv (h : Inv who term me peer) (hpc : me.pc = .write) :
    Inv who term (afterWrite who me) (peer.receive me.buf) := by
  refine ⟨?_, fun hterm => ?_⟩
  · cases who <;>
      refine h.handoff.send ?_ ?_ (receive_keeps _ _ _) (receive_full _ _) <;>
        simp [handoff, hpc, afterWrite, Thread.goto, Thread.counted, Pc.cancelled, awaits]
  · have hone := h.one hterm
    unfold tokens at hone ⊢
    rw [hpc] at hone
    cases who <;>
      simp only [withThread, afterWrite, Thread.goto, Thread.counted, Thread.receive,
        List.length_append, List.length_singleton] at hone ⊢ <;>
      omega

/-- The thread leaves its `read`, with or without a byte. -/
theorem read_handoff (h : handoff.Inv who term me peer) (hpc : me.pc = .read) (buf : UInt8)
    (queue : List UInt8) : handoff.Inv who term
      (afterRead who { me with buf := buf, queue := queue }) peer := by
  cases who <;>
    refine h.next ?_ ?_ ?_ ?_ (.refl _ _) <;>
      simp [handoff, hpc, afterRead, Thread.goto, Thread.counted, Pc.cancelled, Pc.gone, awaits,
        goesToRead]

theorem read_inv {b : UInt8} {queue : List UInt8} (h : Inv who term me peer) (hpc : me.pc = .read)
    (hqueue : me.queue = b :: queue) :
    Inv who term (afterRead who { me with buf := b, queue := queue }) peer := by
  refine ⟨read_handoff h.handoff hpc b queue, fun hterm => ?_⟩
  have hone := h.one hterm
  unfold tokens at hone ⊢
  rw [hpc, hqueue] at hone
  cases who <;>
    simp only [withThread, afterRead, Thread.goto, Thread.counted, List.length_cons] at hone ⊢ <;>
    omega

theorem cancelWrite_inv (h : Inv who term me peer) (hpc : me.pc = .cancelWrite) :
    Inv who term (me.goto .returned) (peer.receive me.buf) := by
  have hterm : term = true := h.handoff.mine.cancelled (by
    show me.pc.cancelled = true
    rw [hpc]
    exact Eq.refl _)
  refine ⟨?_, fun hopen => ?_⟩
  · refine h.handoff.send (fun _ => hterm) ?_ (receive_keeps _ _ _) (receive_full _ _)
    intro ha
    cases who <;> cases ha
  · rw [hterm] at hopen
    cases hopen

/-- **Every step of a thread keeps the invariant.** -/
theorem step_inv (h : Inv who term me peer) (hstep : step who term me peer = some (me', peer')) :
    Inv who term me' peer' := by
  unfold step at hstep
  split at hstep
  next hpc =>
    obtain ⟨rfl, rfl⟩ := Prod.mk.inj (Option.some.inj hstep)
    exact head_inv h hpc
  next hpc =>
    obtain ⟨rfl, rfl⟩ := Prod.mk.inj (Option.some.inj hstep)
    exact write_inv h hpc
  next hpc =>
    split at hstep
    next => cases hstep
    next b queue hqueue =>
      obtain ⟨rfl, rfl⟩ := Prod.mk.inj (Option.some.inj hstep)
      exact read_inv h hpc hqueue
  next hpc =>
    obtain ⟨rfl, rfl⟩ := Prod.mk.inj (Option.some.inj hstep)
    exact cancelWrite_inv h hpc
  next => cases hstep

theorem interrupt_inv (h : Inv who term me peer) (hint : interrupt who term me = some me') :
    Inv who term me' peer := by
  unfold interrupt at hint
  split at hint
  next hread =>
    obtain rfl := Option.some.inj hint
    obtain ⟨hterm, hpc, -⟩ := hread
    refine ⟨read_handoff h.handoff hpc me.buf me.queue, fun hopen => ?_⟩
    rw [hterm] at hopen
    cases hopen
  next => cases hint

end Step

/-- The invariant holds at the start and is kept by every step, signal and `terminate`. -/
theorem invariant : runner.Invariant Inv where
  swap := Inv.swap
  start := by
    refine ⟨⟨⟨fun hc => ?_, fun hs => ?_⟩, ⟨fun hc => ?_, fun hs => ?_⟩, Or.inl fun hw => ?_⟩,
      fun _ => Eq.refl _⟩
    · cases hc
    · cases hs
    · cases hc
    · cases hs
    · cases hw
  step := step_inv
  interrupt := interrupt_inv
  terminate h := ⟨h.handoff.terminate, fun hterm => by cases hterm⟩

/-! ## The payoff -/

/-- Blocked in `read` on an empty queue. -/
def Thread.Blocked (t : Thread) : Prop := t.pc = .read ∧ t.queue = []

/-- The peer of a blocked thread is neither blocked nor gone. -/
theorem Inv.peer_runs {who : Member} {term : Bool} {me peer : Thread} (h : Inv who term me peer)
    (hme : me.Blocked) : ¬ peer.Blocked ∧ peer.pc ≠ .returned := by
  obtain ⟨hpc, hqueue⟩ := hme
  refine ⟨?_, ?_⟩
  · rintro ⟨hpc', hqueue'⟩
    rcases h.handoff.signalled with hsig | hsig
    · refine hsig ?_ hqueue
      show goesToRead who me.pc = true
      rw [hpc]
      cases who <;> exact Eq.refl _
    · refine hsig ?_ hqueue'
      show goesToRead who.other peer.pc = true
      rw [hpc']
      cases who <;> exact Eq.refl _
  · intro hgone
    refine h.handoff.peers.parted ?_ ?_ hqueue
    · show peer.pc.gone = true
      rw [hgone]
      exact Eq.refl _
    · show awaits who.other.other me.pc = true
      rw [hpc]
      cases who <;> exact Eq.refl _

/-- **Cancellation strands nobody, and there is one token.** Whenever a thread is blocked,
its peer is not, and has not returned; and until `term` is set exactly one byte is on
its way or about to be written. -/
theorem socket_never_stranded (s : Threads Thread) (h : runSocket.Reachable s) :
    (∀ who, (s.thread who).Blocked →
      ¬ (s.thread who.other).Blocked ∧ (s.thread who.other).pc ≠ .returned) ∧
    (s.term = false → tokens .first s.first s.second = 1) :=
  ⟨fun who => (invariant.reachable h who).peer_runs, (invariant.reachable h .first).one⟩

/-- The second thread has returned with the byte of the first one unread, and the first one
finds the byte of its cancellation. -/
theorem socket_never_stranded_cancelled :
    ∃ s, runSocket.Reachable s ∧ s.second.pc = .returned ∧ s.first.pc = .read ∧
      ¬ s.first.Blocked := by
  have hrun : (System.runActions runner.act [.step .first, .step .first, .terminate, .step .second,
      .step .second] runner.threads).isSome = true := rfl
  have hreach : runSocket.Reachable _ :=
    System.reachable_of_runActions (.start (Eq.refl _)) (Option.some_get hrun).symm
  exact ⟨_, hreach, rfl, rfl, fun hblocked =>
    ((socket_never_stranded _ hreach).1 .first hblocked).2 rfl⟩

end Socket

end ShouldIAsync.Csgb
