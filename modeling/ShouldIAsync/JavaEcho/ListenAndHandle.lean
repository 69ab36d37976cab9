import ShouldIAsync.JavaEcho.Common
import ShouldIAsync.Lib.System
import Mathlib.Algebra.Order.BigOperators.Group.List
import Mathlib.Algebra.Order.Ring.Nat

/-!
# `Server.listenAndHandle`

The server accepts connections until its channel is closed and forks a handler for each in a
`StructuredTaskScope`. Then it gives them some time to end, and leaves the scope: that interrupts
those that are still running, and waits for all of them. A handler ends at its next operation on
the channel once it is interrupted, and closes its channel however it ends. The stop
conditions are fixed to `StopOnFuture`, as `createStopConditions` gives them.

So when `listenAndHandle` has returned or thrown no handler is left, no connection of one is open,
and the counts of the connections do not change any more, which `getStatistics` relies on. The one
connection it may leave open is one whose handler could not be forked. And once the scope is left
all this comes to pass (`listenAndHandle_leaves_nothing`).
-/

namespace ShouldIAsync.JavaEcho.ListenAndHandle

open ShouldIAsync.Lib

/-- What `listenAndHandle` throws. -/
inductive Thrown
  -- an `IOException`, or what `fork` throws
  | exception
  | interruptedException
  | timeoutException
  deriving DecidableEq

/-! ## A handler -/

/-- Where the thread of a handler is. -/
inductive HandlerPc
  | unforked
  | running
  -- at the end of the `try` that has the channel
  | closing
  | done
  deriving DecidableEq

/-- An accepted connection with the `handle` of it. -/
structure Handler where
  pc : HandlerPc
  party : Party := .server
  channelClosed : Bool := false

/-- A connection that has been accepted and no more. -/
def Handler.accepted : Handler := { pc := .unforked }

/-- One whose thread runs. -/
def Handler.forked : Handler := { pc := .running }

/-- What can happen to a handler. -/
inductive HandlerAct
  | advance (peerClosed : Bool)
  | read (incoming : Option JavaStd.Bytes)
  -- an operation on the channel throws
  | ioException
  -- so does the first one of a thread that is interrupted, or its sleep
  | interrupted
  | close

/-- The party is about to read from the channel, or to write to it. -/
def atChannel (stopConditions : StopConditions) (p : Party) : Bool :=
  match p.pc with
  | .firstRead | .reading _ => true
  | .head i => !stopConditions.stopsAt i
  | .returned _ | .threw _ => false

/-- In the body of the `try`, which the party may have left. -/
def Handler.goOn (h : Handler) (p : Party) : Handler :=
  { h with party := p, pc := if p.ended then .closing else .running }

/-- What it does, or `none` where it cannot happen. -/
def Handler.act (stopConditions : StopConditions) (isInterrupted : Bool) (a : HandlerAct)
    (h : Handler) :
    Option Handler :=
  match a, h.pc with
  | .advance peerClosed, .running =>
    if isInterrupted && atChannel stopConditions h.party then none
    else (h.party.advance .server stopConditions peerClosed).map fun (p, _) => h.goOn p
  | .read incoming, .running =>
    if isInterrupted then none else (h.party.read .server stopConditions incoming).map h.goOn
  | .ioException, .running => if atChannel stopConditions h.party then
    some { h with pc := .closing } else none
  | .interrupted, .running => if isInterrupted then some { h with pc := .closing } else none
  | .close, .closing => some { h with pc := .done, channelClosed := true }
  | _, _ => none

/-! ## The server -/

/-- Where the thread that called `listenAndHandle` is. -/
inductive OwnerPc
  | openChannel
  | bind
  | accept
  | fork
  | join
  -- in the `close` of the scope, with what the body threw
  | close (thrown : Option Thrown)
  | ended (thrown : Option Thrown)
  deriving DecidableEq

/-- `listenAndHandle` with its handlers. -/
structure State where
  owner : OwnerPc
  ownerInterrupted : Bool
  -- `serverSocketChannel`
  serverClosed : Bool
  -- the future of the stop conditions is done
  stopped : Bool
  -- of the scope, which has interrupted its threads then
  isShutdown : Bool
  handlers : List Handler

/-- `listenAndHandle` has been called. -/
def start : State where
  owner := .openChannel
  ownerInterrupted := false
  serverClosed := false
  stopped := false
  isShutdown := false
  handlers := []

/-- `StopOnFuture`, as it is now. -/
def State.stopConditions (s : State) : StopConditions := ⟨none, some s.stopped⟩

/-- No thread of the scope is left. -/
def State.allDone (s : State) : Bool := s.handlers.all fun h => h.pc = .done || h.pc = .unforked

inductive Action
  | openChannel
  | openFails
  | bind
  | bindFails
  | accept
  -- a `ClosedChannelException`, also that of a thread interrupted in `accept`
  | acceptClosed
  | acceptFails
  | fork
  | forkFails
  | join
  | joinInterrupted
  | joinTimeout
  -- the `close` of the scope has waited for the threads
  | closeScope
  | handler (i : Nat) (a : HandlerAct)
  -- from outside: the shutdown hook, `close`, and whoever interrupts the owner
  | stop
  | closeServer
  | interruptOwner

/-- The owner leaves the scope, whose `close` shuts it down first of all. -/
def State.leave (s : State) (thrown : Option Thrown) : State :=
  { s with owner := .close thrown, isShutdown := true }

/-- What it does, or `none` where it cannot happen. -/
def act (a : Action) (s : State) : Option State :=
  match a, s.owner with
  | .openChannel, .openChannel => some { s with owner := .bind }
  | .openFails, .openChannel => some { s with owner := .ended (some .exception) }
  | .bind, .bind => if s.serverClosed then none else some { s with owner := .accept }
  | .bindFails, .bind => some { s with owner := .ended (some .exception) }
  | .accept, .accept => if s.serverClosed || s.ownerInterrupted then none
    else some { s with owner := .fork }
  | .acceptClosed, .accept =>
    if s.serverClosed || s.ownerInterrupted then
      some { s with owner := .join, serverClosed := true } else none
  | .acceptFails, .accept => some (s.leave (some .exception))
  | .fork, .fork => some { s with owner := .accept, handlers := s.handlers ++ [.forked] }
  | .forkFails, .fork =>
    some (State.leave { s with handlers := s.handlers ++ [.accepted] } (some .exception))
  | .join, .join => if s.allDone then some (s.leave none) else none
  | .joinInterrupted, .join =>
    if s.ownerInterrupted then some (s.leave (some .interruptedException)) else none
  | .joinTimeout, .join => if s.allDone then none else some (s.leave (some .timeoutException))
  | .closeScope, .close thrown => if s.allDone then some { s with owner := .ended thrown } else none
  | .handler i a, _ =>
    (s.handlers[i]?).bind fun h =>
      (h.act s.stopConditions s.isShutdown a).map fun h' =>
        { s with handlers := s.handlers.set i h' }
  | .stop, _ => if s.stopped then none else some { s with stopped := true }
  -- there is nothing to close before the channel is there
  | .closeServer, .openChannel => none
  | .closeServer, _ => if s.serverClosed then none else some { s with serverClosed := true }
  | .interruptOwner, _ => if s.ownerInterrupted then none
    else some { s with ownerInterrupted := true }
  | _, _ => none

/-- The runs of `listenAndHandle`. -/
def listenAndHandle : System State := System.ofActions (· = start) act

/-- The counts of `connectionMetricsSet`: a handler has its own from its first read on. -/
def State.counts (s : State) : List Nat :=
  s.handlers.filterMap fun h => if h.party.pc = .firstRead then none else some h.party.count

/-! ## What a handler does -/

variable {stopConditions : StopConditions} {isInterrupted : Bool} {a : HandlerAct} {h h' : Handler}

/-- The channel is closed once the thread has ended, and not before. -/
def Handler.Tidy (h : Handler) : Prop := h.channelClosed = true ↔ h.pc = .done

/-- What is left of a handler that is interrupted. -/
def Handler.left (h : Handler) : Nat :=
  match h.pc with
  | .running => 2
  | .closing => 1
  | .unforked | .done => 0

/-- A step of a handler. -/
structure HandlerMove (isInterrupted : Bool) (h h' : Handler) : Prop where
  unforked : h.pc ≠ .unforked
  done : h.pc ≠ .done
  unforked' : h'.pc ≠ .unforked
  tidy : h.Tidy → h'.Tidy
  left : isInterrupted = true → h'.left < h.left

/-- A handler stays in the body of its `try`, or leaves it. -/
theorem move_of_running (hpc : h.pc = .running) (hpc' : h'.pc = .running ∨ h'.pc = .closing)
    (hclosed : h'.channelClosed = h.channelClosed)
    (hleft : isInterrupted = true → h'.pc = .closing) :
    HandlerMove isInterrupted h h' where
  unforked hunforked := by rw [hpc] at hunforked; cases hunforked
  done hdone := by rw [hpc] at hdone; cases hdone
  unforked' hunforked := by
    rw [hunforked] at hpc'
    rcases hpc' with hpc' | hpc'
    · cases hpc'
    · cases hpc'
  tidy htidy := by
    have hopen : ¬ h.channelClosed = true := by
      intro hclosed
      have hdone := htidy.mp hclosed
      rw [hpc] at hdone
      cases hdone
    refine ⟨fun hclosed' => absurd (hclosed ▸ hclosed') hopen, fun hdone => ?_⟩
    rw [hdone] at hpc'
    rcases hpc' with hpc' | hpc'
    · cases hpc'
    · cases hpc'
  left hint := by
    unfold Handler.left
    rw [hpc, hleft hint]
    exact Nat.one_lt_two

/-- A handler goes on or is about to close. -/
theorem goOn_pc (h : Handler) (p : Party) :
    (h.goOn p).pc = .running ∨ (h.goOn p).pc = .closing := by
  unfold Handler.goOn
  split
  · exact Or.inr rfl
  · exact Or.inl rfl

/-- A party that is not at the channel is at its end. -/
theorem advance_ended {p p' : Party} {peerClosed : Bool} {written : JavaStd.Bytes}
    (hat : atChannel stopConditions p = false)
    (hadv : p.advance .server stopConditions peerClosed = some (p', written)) :
    p'.ended = true := by
  unfold Party.advance at hadv
  unfold atChannel at hat
  split at hadv
  next i hpc =>
    simp only [hpc, Bool.not_eq_eq_eq_not, Bool.not_false] at hat
    rw [if_pos hat] at hadv
    obtain ⟨rfl, -⟩ := Prod.mk.inj (Option.some.inj hadv)
    rfl
  all_goals cases hadv

/-- Each action of a handler is one of these. -/
theorem handler_move (hact : h.act stopConditions isInterrupted a = some h') :
    HandlerMove isInterrupted h h' := by
  unfold Handler.act at hact
  split at hact
  next peerClosed hpc =>
    split at hact
    next => cases hact
    next hnot =>
      obtain ⟨⟨p, written⟩, hadv, rfl⟩ := Option.map_eq_some_iff.mp hact
      refine move_of_running hpc (goOn_pc h p) rfl fun hint => ?_
      rw [hint, Bool.true_and] at hnot
      exact if_pos (advance_ended (Bool.eq_false_of_not_eq_true hnot) hadv)
  next incoming hpc =>
    split at hact
    next => cases hact
    next hnot =>
      obtain ⟨p, -, rfl⟩ := Option.map_eq_some_iff.mp hact
      exact move_of_running hpc (goOn_pc h p) rfl fun hint => absurd hint hnot
  next hpc =>
    split at hact
    next =>
      obtain rfl := Option.some.inj hact
      exact move_of_running hpc (Or.inr rfl) rfl fun _ => rfl
    next => cases hact
  next hpc =>
    split at hact
    next =>
      obtain rfl := Option.some.inj hact
      exact move_of_running hpc (Or.inr rfl) rfl fun _ => rfl
    next => cases hact
  next hpc =>
    obtain rfl := Option.some.inj hact
    have hleft : h.left = 1 := by
      unfold Handler.left
      rw [hpc]
    refine ⟨fun hunforked => ?_, fun hdone => ?_, HandlerPc.noConfusion, fun _ =>
      ⟨fun _ => rfl, fun _ => rfl⟩, fun _ => ?_⟩
    · rw [hpc] at hunforked
      cases hunforked
    · rw [hpc] at hdone
      cases hdone
    · rw [hleft]
      exact Nat.zero_lt_one
  next => cases hact

/-! ## The invariant -/

/-- The owner has left the body of the scope, with what that threw. -/
def OwnerPc.left : OwnerPc → Option (Option Thrown)
  | .close thrown | .ended thrown => some thrown
  | .openChannel | .bind | .accept | .fork | .join => none

/-- There is no scope yet. -/
def OwnerPc.opening : OwnerPc → Bool
  | .openChannel | .bind => true
  | .accept | .fork | .join | .close _ | .ended _ => false

/-- The owner has seen that the channel is closed, and nothing was thrown since. -/
def OwnerPc.pastAccept : OwnerPc → Bool
  | .join | .close none | .ended none => true
  | .openChannel | .bind | .accept | .fork | .close (some _) | .ended (some _) => false

/-- The connections without a handler. -/
def State.leaked (s : State) : Nat := s.handlers.countP fun h => h.pc = .unforked

/-- What holds between any two steps. -/
structure Inv (s : State) : Prop where
  tidy : ∀ h ∈ s.handlers, h.Tidy
  opening : s.owner.opening = true → s.handlers = []
  body : s.owner.left = none → s.isShutdown = false ∧ s.leaked = 0
  leaked : s.leaked ≤ 1
  exception : s.leaked = 1 → s.owner.left = some (some .exception)
  close : ∀ thrown, s.owner = .close thrown → s.isShutdown = true
  ended : ∀ thrown, s.owner = .ended thrown → s.allDone = true
  closed : s.owner.pastAccept = true → s.serverClosed = true

variable {s t : State}

theorem inv_start : Inv start where
  tidy h hh := by cases hh
  opening _ := rfl
  body _ := ⟨rfl, rfl⟩
  leaked := Nat.zero_le 1
  exception hone := absurd hone Nat.zero_ne_one
  close _ hclose := by cases hclose
  ended _ hended := by cases hended
  closed hpast := by cases hpast

/-- The owner stays in the body of the scope. -/
theorem Inv.inBody (h : Inv s) (hbody : s.owner.left = none) {pc : OwnerPc} (hpc : pc.left = none)
    (hopening : pc.opening = true → s.handlers = []) {serverClosed : Bool}
    (hclosed : pc.pastAccept = true → serverClosed = true) :
    Inv { s with owner := pc, serverClosed := serverClosed } where
  tidy := h.tidy
  opening := hopening
  body _ := h.body hbody
  leaked := h.leaked
  exception hone := absurd ((h.body hbody).2.symm.trans hone) Nat.zero_ne_one
  close thrown hclose := by
    obtain rfl : pc = .close thrown := hclose
    cases hpc
  ended thrown hended := by
    obtain rfl : pc = .ended thrown := hended
    cases hpc
  closed := hclosed

/-- The owner leaves the body of the scope. -/
theorem Inv.leave (h : Inv s) (hbody : s.owner.left = none) {thrown : Option Thrown}
    (hclosed : thrown = none → s.serverClosed = true) : Inv (s.leave thrown) where
  tidy := h.tidy
  opening hopening := by cases hopening
  body hnone := by cases hnone
  leaked := h.leaked
  exception hone := absurd ((h.body hbody).2.symm.trans hone) Nat.zero_ne_one
  close _ _ := rfl
  ended _ hended := by cases hended
  closed hpast := by
    cases thrown with
    | none => exact hclosed rfl
    | some thrown => cases hpast

/-- One more connection. -/
theorem leaked_snoc (s : State) (h : Handler) :
    State.leaked { s with handlers := s.handlers ++ [h] } =
      s.leaked + if h.pc = .unforked then 1 else 0 := by
  unfold State.leaked
  rw [List.countP_append, List.countP_singleton]
  simp only [decide_eq_true_eq]

theorem tidy_snoc (hs : ∀ h ∈ s.handlers, h.Tidy) {h' : Handler} (htidy : h'.Tidy) :
    ∀ h ∈ s.handlers ++ [h'], h.Tidy := by
  intro h hh
  rcases List.mem_append.mp hh with hh | hh
  · exact hs h hh
  · obtain rfl := List.mem_singleton.mp hh
    exact htidy

/-- A handler that is forked keeps the invariant. -/
theorem Inv.fork (h : Inv s) (hpc : s.owner = .fork) :
    Inv { s with owner := .accept, handlers := s.handlers ++ [.forked] } where
  tidy := tidy_snoc h.tidy ⟨fun hclosed => absurd hclosed Bool.false_ne_true,
    fun hdone => by cases hdone⟩
  opening hopening := by cases hopening
  body _ := ⟨(h.body (hpc ▸ rfl)).1, (leaked_snoc s .forked).trans (h.body (hpc ▸ rfl)).2⟩
  leaked := by
    have hzero := (leaked_snoc s .forked).trans (h.body (hpc ▸ rfl)).2
    exact hzero ▸ Nat.zero_le 1
  exception hone := by
    have hzero := (leaked_snoc s .forked).trans (h.body (hpc ▸ rfl)).2
    exact absurd (hzero.symm.trans hone) Nat.zero_ne_one
  close _ hclose := by cases hclose
  ended _ hended := by cases hended
  closed hpast := by cases hpast

theorem Inv.forkFails (h : Inv s) (hpc : s.owner = .fork) :
    Inv (State.leave { s with handlers := s.handlers ++ [.accepted] } (some .exception)) where
  tidy := tidy_snoc h.tidy ⟨fun hclosed => absurd hclosed Bool.false_ne_true,
    fun hdone => by cases hdone⟩
  opening hopening := by cases hopening
  body hnone := by cases hnone
  leaked := by
    have hone := leaked_snoc s .accepted
    rw [(h.body (hpc ▸ rfl)).2] at hone
    exact le_of_eq hone
  exception _ := rfl
  close _ _ := rfl
  ended _ hended := by cases hended
  closed hpast := by cases hpast

/-- The owner has failed before there was a scope. -/
theorem Inv.fails (h : Inv s) (hpc : s.owner.opening = true) :
    Inv { s with owner := .ended (some .exception) } where
  tidy := h.tidy
  opening hopening := by cases hopening
  body hnone := by cases hnone
  leaked := h.leaked
  exception _ := rfl
  close _ hclose := by cases hclose
  ended _ _ := by
    show s.handlers.all _ = true
    rw [h.opening hpc]
    rfl
  closed hpast := by cases hpast

theorem Inv.closeScope (h : Inv s) {thrown : Option Thrown} (hpc : s.owner = .close thrown)
    (hall : s.allDone = true) :
    Inv { s with owner := .ended thrown } where
  tidy := h.tidy
  opening hopening := by cases hopening
  body hnone := by cases hnone
  leaked := h.leaked
  exception hone := by
    have hleft := h.exception hone
    rw [hpc] at hleft
    exact hleft
  close _ hclose := by cases hclose
  ended _ _ := hall
  closed hpast := by
    refine h.closed ?_
    rw [hpc]
    cases thrown with
    | none => rfl
    | some thrown => cases hpast

/-! ## Steps of the handlers -/

section Set

variable {i : Nat} {h h' : Handler}

/-- What a handler does leaves no other connection open. -/
theorem leaked_set (hget : s.handlers[i]? = some h) (hmove : HandlerMove s.isShutdown h h') :
    State.leaked { s with handlers := s.handlers.set i h' } = s.leaked := by
  obtain ⟨hi, hh⟩ := List.getElem?_eq_some_iff.mp hget
  unfold State.leaked
  rw [List.countP_set hi, hh, if_neg, if_neg, Nat.sub_zero, Nat.add_zero]
  · simpa using hmove.unforked'
  · simpa using hmove.unforked

/-- Where all threads have ended none can move. -/
theorem not_allDone (hget : s.handlers[i]? = some h) (hmove : HandlerMove s.isShutdown h h') :
    s.allDone ≠ true := by
  intro hall
  have hh := List.all_eq_true.mp hall h (List.mem_of_getElem? hget)
  rcases Bool.or_eq_true_iff.mp hh with hdone | hunforked
  · exact hmove.done (of_decide_eq_true hdone)
  · exact hmove.unforked (of_decide_eq_true hunforked)

/-- What a handler does keeps the invariant. -/
theorem Inv.handler (hs : Inv s) (hget : s.handlers[i]? = some h)
    (hmove : HandlerMove s.isShutdown h h') :
    Inv { s with handlers := s.handlers.set i h' } where
  tidy h'' hh'' := by
    rcases List.mem_or_eq_of_mem_set hh'' with hh'' | rfl
    · exact hs.tidy h'' hh''
    · exact hmove.tidy (hs.tidy h (List.mem_of_getElem? hget))
  opening hopening := by
    rw [hs.opening hopening] at hget
    cases hget
  body hnone := ⟨(hs.body hnone).1, (leaked_set hget hmove).trans (hs.body hnone).2⟩
  leaked := (leaked_set hget hmove).symm ▸ hs.leaked
  exception hone := hs.exception ((leaked_set hget hmove).symm.trans hone)
  close := hs.close
  ended thrown hended := absurd (hs.ended thrown hended) (not_allDone hget hmove)
  closed := hs.closed

end Set

/-- What a step of someone who is not a handler leaves as it is. -/
theorem Inv.outside (h : Inv s) {ownerInterrupted serverClosed stopped : Bool}
    (hclosed : s.serverClosed = true → serverClosed = true) :
    Inv { s with
      ownerInterrupted := ownerInterrupted
      serverClosed := serverClosed
      stopped := stopped } where
  tidy := h.tidy
  opening := h.opening
  body := h.body
  leaked := h.leaked
  exception := h.exception
  close := h.close
  ended := h.ended
  closed hpast := hclosed (h.closed hpast)

/-- The step of a handler, as one of the server. -/
theorem handler_cases {i : Nat} {a : HandlerAct} (hact : act (.handler i a) s = some t) :
    ∃ h h', s.handlers[i]? = some h ∧ HandlerMove s.isShutdown h h' ∧
      t = { s with handlers := s.handlers.set i h' } := by
  simp only [act] at hact
  obtain ⟨h, hget, hact⟩ := Option.bind_eq_some_iff.mp hact
  obtain ⟨h', hh', rfl⟩ := Option.map_eq_some_iff.mp hact
  exact ⟨h, h', hget, handler_move hh', rfl⟩

/-- **Every step keeps the invariant.** -/
theorem inv_step {a : Action} (h : Inv s) (hact : act a s = some t) : Inv t := by
  have hcopy := hact
  unfold act at hact
  split at hact
  next hpc =>
    obtain rfl := Option.some.inj hact
    exact h.inBody (hpc ▸ rfl) rfl (fun _ => h.opening (hpc ▸ rfl)) fun hpast => by cases hpast
  next hpc =>
    obtain rfl := Option.some.inj hact
    exact h.fails (hpc ▸ rfl)
  next hpc =>
    split at hact
    · cases hact
    · obtain rfl := Option.some.inj hact
      exact h.inBody (hpc ▸ rfl) rfl (fun hopening => by cases hopening) fun hpast => by cases hpast
  next hpc =>
    obtain rfl := Option.some.inj hact
    exact h.fails (hpc ▸ rfl)
  next hpc =>
    split at hact
    · cases hact
    · obtain rfl := Option.some.inj hact
      exact h.inBody (hpc ▸ rfl) rfl (fun hopening => by cases hopening) fun hpast => by cases hpast
  next hpc =>
    split at hact
    · obtain rfl := Option.some.inj hact
      exact h.inBody (hpc ▸ rfl) rfl (fun hopening => by cases hopening) fun _ => rfl
    · cases hact
  next hpc =>
    obtain rfl := Option.some.inj hact
    exact h.leave (hpc ▸ rfl) fun hnone => by cases hnone
  next hpc =>
    obtain rfl := Option.some.inj hact
    exact h.fork hpc
  next hpc =>
    obtain rfl := Option.some.inj hact
    exact h.forkFails hpc
  next hpc =>
    split at hact
    · obtain rfl := Option.some.inj hact
      exact h.leave (hpc ▸ rfl) fun _ => h.closed (hpc ▸ rfl)
    · cases hact
  next hpc =>
    split at hact
    · obtain rfl := Option.some.inj hact
      exact h.leave (hpc ▸ rfl) fun hnone => by cases hnone
    · cases hact
  next hpc =>
    split at hact
    · cases hact
    · obtain rfl := Option.some.inj hact
      exact h.leave (hpc ▸ rfl) fun hnone => by cases hnone
  next thrown hpc =>
    split at hact
    next hall =>
      obtain rfl := Option.some.inj hact
      exact h.closeScope hpc hall
    next => cases hact
  next =>
    obtain ⟨h₀, h', hget, hmove, rfl⟩ := handler_cases hcopy
    exact h.handler hget hmove
  next =>
    split at hact
    · cases hact
    · obtain rfl := Option.some.inj hact
      exact h.outside id
  next => cases hact
  next =>
    split at hact
    · cases hact
    · obtain rfl := Option.some.inj hact
      exact h.outside fun _ => rfl
  next =>
    split at hact
    · cases hact
    · obtain rfl := Option.some.inj hact
      exact h.outside id
  next => cases hact

theorem inv_of_reachable (h : listenAndHandle.Reachable s) : Inv s := by
  refine h.invariant (fun s hs => hs ▸ inv_start) fun s t _ hs hstep => ?_
  obtain ⟨a, hact⟩ := hstep
  exact inv_step hs hact

/-! ## After the end -/

/-- Nothing changes any more when `listenAndHandle` has ended. -/
theorem step_ended {thrown : Option Thrown} (hs : Inv s) (hended : s.owner = .ended thrown)
    (hstep : listenAndHandle.step s t) : t.owner = .ended thrown ∧ t.handlers = s.handlers := by
  obtain ⟨a, hact⟩ := hstep
  cases a with
  | handler i a =>
    obtain ⟨h, h', hget, hmove, -⟩ := handler_cases hact
    exact absurd (hs.ended thrown hended) (not_allDone hget hmove)
  | stop | closeServer | interruptOwner =>
    simp only [act, hended] at hact
    split at hact
    · cases hact
    · obtain rfl := Option.some.inj hact
      exact ⟨rfl, rfl⟩
  | _ =>
    simp only [act, hended] at hact
    cases hact

theorem run_ended {thrown : Option Thrown} (hs : listenAndHandle.Reachable s)
    (hended : s.owner = .ended thrown)
    (hrun : Relation.ReflTransGen listenAndHandle.step s t) : t.owner = .ended thrown ∧
      t.handlers = s.handlers := by
  induction hrun with
  | refl => exact ⟨hended, rfl⟩
  | @tail u v hrun hstep ih =>
    obtain ⟨howner, hhandlers⟩ := step_ended (inv_of_reachable (hs.trans hrun)) ih.1 hstep
    exact ⟨howner, hhandlers.trans ih.2⟩

/-- A channel that is open has no handler. -/
theorem closed_of_allDone (hs : Inv s) (hall : s.allDone = true) (h : Handler)
    (hh : h ∈ s.handlers) :
    h.channelClosed = true ∨ h.pc = .unforked := by
  rcases Bool.or_eq_true_iff.mp (List.all_eq_true.mp hall h hh) with hdone | hunforked
  · exact Or.inl ((hs.tidy h hh).mpr (of_decide_eq_true hdone))
  · exact Or.inr (of_decide_eq_true hunforked)

/-! ## Leaving the scope -/

/-- The runs from where the owner leaves the scope. -/
def leaving : System State where
  init s := listenAndHandle.Reachable s ∧ ∃ thrown, s.owner = .close thrown
  step := listenAndHandle.step

/-- What the owner has still to do. -/
def OwnerPc.toLeave : OwnerPc → Nat
  | .close _ => 1
  | .ended _ | .openChannel | .bind | .accept | .fork | .join => 0

/-- What is left to do in a scope that is shut down. -/
def State.left (s : State) : Nat :=
  s.owner.toLeave + (s.handlers.map Handler.left).sum +
    ((if s.stopped then 0 else 1) + (if s.serverClosed then 0 else 1) +
      (if s.ownerInterrupted then 0 else 1))

/-- A sum gets smaller with one of its terms. -/
theorem sum_set_lt {l : List Nat} {i n m : Nat} (hget : l[i]? = some m) (hlt : n < m) :
    (l.set i n).sum < l.sum := by
  induction l generalizing i with
  | nil => cases hget
  | cons k l ih =>
    cases i with
    | zero =>
      obtain rfl : k = m := Option.some.inj hget
      rw [List.set_cons_zero, List.sum_cons, List.sum_cons]
      exact Nat.add_lt_add_right hlt _
    | succ i =>
      rw [List.set_cons_succ, List.sum_cons, List.sum_cons]
      exact Nat.add_lt_add_left (ih hget) _

theorem handlers_left_lt {i : Nat} {h h' : Handler} (hget : s.handlers[i]? = some h)
    (hlt : h'.left < h.left) :
    State.left { s with handlers := s.handlers.set i h' } < s.left := by
  have hsum : ((s.handlers.set i h').map Handler.left).sum < (s.handlers.map Handler.left).sum := by
    rw [List.map_set]
    refine sum_set_lt (m := h.left) ?_ hlt
    rw [List.getElem?_map, hget]
    rfl
  unfold State.left
  dsimp only
  omega

/-- The owner leaves the scope. -/
theorem close_left (thrown : Option Thrown) (hpc : s.owner = .close thrown) :
    State.left { s with owner := .ended thrown } < s.left := by
  unfold State.left
  rw [hpc]
  simp only [OwnerPc.toLeave]
  omega

/-- A step in a scope that is shut down. -/
theorem shutdown_step {a : Action} (hs : Inv s) (hshut : s.isShutdown = true)
    (hact : act a s = some t) :
    t.isShutdown = true ∧ t.left < s.left := by
  have hbody : s.owner.left ≠ none := by
    intro hnone
    rw [(hs.body hnone).1] at hshut
    cases hshut
  have hcopy := hact
  unfold act at hact
  split at hact
  case h_13 thrown hpc =>
    split at hact
    · obtain rfl := Option.some.inj hact
      exact ⟨hshut, close_left thrown hpc⟩
    · cases hact
  case h_14 =>
    obtain ⟨h, h', hget, hmove, rfl⟩ := handler_cases hcopy
    exact ⟨hshut, handlers_left_lt hget (hmove.left hshut)⟩
  case h_15 =>
    split at hact
    · cases hact
    next hnot =>
      obtain rfl := Option.some.inj hact
      refine ⟨hshut, ?_⟩
      simp only [State.left, if_neg hnot, if_true]
      omega
  case h_16 => cases hact
  case h_17 =>
    split at hact
    · cases hact
    next hnot =>
      obtain rfl := Option.some.inj hact
      refine ⟨hshut, ?_⟩
      simp only [State.left, if_neg hnot, if_true]
      omega
  case h_18 =>
    split at hact
    · cases hact
    next hnot =>
      obtain rfl := Option.some.inj hact
      refine ⟨hshut, ?_⟩
      simp only [State.left, if_neg hnot, if_true]
      omega
  case h_19 => cases hact
  -- the owner is in the body of the scope, or has not come to it
  all_goals
    rename_i hpc
    exact absurd (hpc ▸ rfl) hbody

theorem leaving_reachable (h : leaving.Reachable s) :
    listenAndHandle.Reachable s ∧ s.isShutdown = true := by
  induction h with
  | start h0 =>
    obtain ⟨hreach, thrown, hclose⟩ := h0
    exact ⟨hreach, (inv_of_reachable hreach).close thrown hclose⟩
  | next _ hstep ih =>
    refine ⟨.next ih.1 hstep, ?_⟩
    obtain ⟨a, hact⟩ := hstep
    exact (shutdown_step (inv_of_reachable ih.1) ih.2 hact).1

/-- While a thread of the scope is left one of them can move. -/
theorem exists_handler_step (hshut : s.isShutdown = true) (hall : s.allDone ≠ true) :
    ∃ t, listenAndHandle.step s t := by
  obtain ⟨h, hh, hpc⟩ : ∃ h ∈ s.handlers, h.pc ≠ .done ∧ h.pc ≠ .unforked := by
    by_contra hnone
    refine hall (List.all_eq_true.mpr fun h hh => ?_)
    by_contra hleft
    refine hnone ⟨h, hh, fun hdone => hleft ?_, fun hunforked => hleft ?_⟩
    · exact Bool.or_eq_true_iff.mpr (Or.inl (decide_eq_true hdone))
    · exact Bool.or_eq_true_iff.mpr (Or.inr (decide_eq_true hunforked))
  obtain ⟨i, hi⟩ := List.mem_iff_getElem?.mp hh
  obtain ⟨a, h', hact⟩ : ∃ a h', h.act s.stopConditions s.isShutdown a = some h' := by
    cases hcase : h.pc with
    | running =>
      exact ⟨.interrupted, { h with pc := .closing }, by simp [Handler.act, hcase, hshut]⟩
    | closing =>
      exact ⟨.close, { h with pc := .done, channelClosed := true }, by simp [Handler.act, hcase]⟩
    | done => exact absurd hcase hpc.1
    | unforked => exact absurd hcase hpc.2
  exact ⟨{ s with handlers := s.handlers.set i h' }, .handler i a, by simp [act, hi, hact]⟩

/-- A run that leaves the scope and cannot go on has ended. -/
theorem ended_of_stuck (hs : listenAndHandle.Reachable s) (hshut : s.isShutdown = true)
    (hstuck : leaving.Stuck s) :
    ∃ thrown, s.owner = .ended thrown := by
  have hall : s.allDone = true := by
    by_contra hnot
    obtain ⟨t, hstep⟩ := exists_handler_step hshut hnot
    exact hstuck t hstep
  cases hpc : s.owner with
  | ended thrown => exact ⟨thrown, rfl⟩
  | close thrown =>
    refine absurd ?_ (hstuck { s with owner := .ended thrown })
    exact ⟨.closeScope, by simp only [act, hpc, hall, if_true]⟩
  | openChannel | bind | accept | fork | join =>
    have hnot := ((inv_of_reachable hs).body (by rw [hpc]; rfl)).1
    rw [hshut] at hnot
    cases hnot

/-- **Once the scope is left every run comes to its end.** -/
theorem leaving_ends : leaving.EveryRunEnds fun s => ∃ thrown, s.owner = .ended thrown := by
  refine System.everyRunEnds_of_measure Nat.lt_wfRel.wf State.left (fun s t hs hstep => ?_)
    fun s hs hstuck => ?_
  · obtain ⟨a, hact⟩ := hstep
    obtain ⟨hreach, hshut⟩ := leaving_reachable hs
    exact (shutdown_step (inv_of_reachable hreach) hshut hact).2
  · obtain ⟨hreach, hshut⟩ := leaving_reachable hs
    exact ended_of_stuck hreach hshut hstuck

/-- Whatever becomes of the server and of its connections: when `listenAndHandle` has ended every
connection that had a handler is closed, at most one had none, and no count changes any more. And
once it leaves its scope it ends. -/
theorem listenAndHandle_leaves_nothing :
    (∀ s thrown, listenAndHandle.Reachable s → s.owner = .ended thrown →
      (∀ h ∈ s.handlers, h.channelClosed = true ∨ h.pc = .unforked) ∧ s.leaked ≤ 1 ∧
        (s.leaked = 1 → thrown = some .exception) ∧ (thrown = none → s.serverClosed = true) ∧
        ∀ t, Relation.ReflTransGen listenAndHandle.step s t →
          t.owner = .ended thrown ∧ t.handlers = s.handlers ∧ t.counts = s.counts) ∧
      leaving.EveryRunEnds fun s => ∃ thrown, s.owner = .ended thrown := by
  refine ⟨fun s thrown hreach hended => ?_, leaving_ends⟩
  have hs : Inv s := inv_of_reachable hreach
  have hleft : s.owner.left = some thrown := by
    rw [hended]
    rfl
  refine ⟨closed_of_allDone hs (hs.ended thrown hended), hs.leaked, fun hone =>
    ?_, fun hnone => ?_, fun t hrun => ?_⟩
  · exact Option.some.inj (hleft.symm.trans (hs.exception hone))
  · refine hs.closed ?_
    rw [hended, hnone]
    rfl
  · obtain ⟨howner, hhandlers⟩ := run_ended hreach hended hrun
    refine ⟨howner, hhandlers, ?_⟩
    unfold State.counts
    rw [hhandlers]

end ShouldIAsync.JavaEcho.ListenAndHandle
