import ShouldIAsync.Lib.Family
import ShouldIAsync.Lib.System
import Mathlib.Algebra.Order.Ring.Int

/-!
# `Client.runClients`

All clients connect in one `StructuredTaskScope`, and run their round trips, after which each
closes its channel, in a second one. Who connected has nobody to close the channel if the first
scope is left by an exception, or if the second one is shut down before the client is forked.
`Orderly` rules out both at the step where they come about, and a run leaves nothing open
exactly if all its steps are orderly (`runClients_closes_iff`).
-/

namespace ShouldIAsync.JavaEcho.RunClients

open ShouldIAsync.Lib

/-- What the threads and `runClients` throw. -/
inductive Thrown
  | interruptedException
  -- `hasCause`: with the last `SocketException`
  | connectRetriesExhaustedException (hasCause : Bool)
  -- any other `IOException` or `RuntimeException`
  | exception
  | executionException (cause : Thrown)
  deriving DecidableEq

/-- The arguments of `connect`. -/
structure ConnectArgs where
  connectSemaphore : Int
  maxRetries : Int

/-- The constructor without arguments. -/
def ConnectArgs.default : ConnectArgs where
  connectSemaphore := 100
  maxRetries := 5

/-! ## One client -/

/-- The `socketChannel` of a client. -/
inductive Channel
  | null
  | opened
  | closed
  deriving DecidableEq

def Channel.close : Channel → Channel
  | .null => .null
  | .opened | .closed => .closed

/-- Where the thread of a subtask is that connects. -/
inductive ConnectPc
  | unforked
  | acquire
  -- at the head of the loop; `lastException != null`
  | loop (i : Nat) (lastException : Bool)
  | sleep (i : Nat)
  -- in the `finally`
  | release (thrown : Option Thrown)
  | completes (thrown : Option Thrown)
  | done (thrown : Option Thrown)
  deriving DecidableEq

/-- And of one that runs the round trips. -/
inductive RoundTripPc
  | unforked
  | running
  | completes (thrown : Option Thrown)
  | done (thrown : Option Thrown)
  deriving DecidableEq

/-- A client with its two threads. -/
structure Client where
  connectPc : ConnectPc := .unforked
  roundTripPc : RoundTripPc := .unforked
  socketChannel : Channel := .null
  deriving DecidableEq

/-- What `SocketChannel.open` does; where it throws it has closed what it opened. -/
inductive OpenResult
  | opened
  | socketException
  | exception
  deriving DecidableEq

/-- What can happen to a thread that connects. -/
inductive ConnectAct
  | acquire
  | openChannel (result : OpenResult)
  | retriesExhausted
  | sleep
  -- the scope interrupts its threads when it is shut down, and others may do so at any time
  | interrupted
  | release
  deriving DecidableEq

/-- `connect`, with the permits of the semaphore. -/
def Client.connect (args : ConnectArgs) (a : ConnectAct) (permits : Int) (c : Client) :
    Option (Int × Client) :=
  match a, c.connectPc with
  | .acquire, .acquire =>
    if 0 < permits then some (permits - 1, { c with connectPc := .loop 0 false }) else none
  | .interrupted, .acquire =>
    some (permits, { c with connectPc := .completes (some .interruptedException) })
  | .openChannel result, .loop i _ =>
    if (i : Int) < args.maxRetries then
      match result with
      | .opened => some (permits, { c with connectPc := .release none, socketChannel := .opened })
      | .socketException => some (permits, { c with connectPc := .sleep i })
      | .exception => some (permits, { c with connectPc := .release (some .exception) })
    else none
  | .retriesExhausted, .loop i lastException =>
    if (i : Int) < args.maxRetries then none
    else some (permits,
      { c with connectPc := .release (some (.connectRetriesExhaustedException lastException)) })
  | .sleep, .sleep i => some (permits, { c with connectPc := .loop (i + 1) true })
  | .interrupted, .sleep _ =>
    some (permits, { c with connectPc := .release (some .interruptedException) })
  | .release, .release thrown => some (permits + 1, { c with connectPc := .completes thrown })
  | _, _ => none

/-! ## The scopes -/

/-- "ClientsConnect" and "Clients" -/
inductive Scope
  | clientsConnect
  | clients
  deriving DecidableEq

/-- No thread of the scope is left that works for the client. -/
def Client.isIdle (c : Client) : Scope → Bool
  | .clientsConnect =>
    match c.connectPc with
    | .unforked | .done _ => true
    | _ => false
  | .clients =>
    match c.roundTripPc with
    | .unforked | .done _ => true
    | _ => false

/-- The scope forks the thread of the client. -/
def Client.fork (c : Client) : Scope → Client
  | .clientsConnect => { c with connectPc := .acquire }
  | .clients => { c with roundTripPc := .running }

/-- Where the caller of `runClients` is. -/
inductive OwnerPc
  -- about to fork for client `next`, and to join when there is none
  | body (scope : Scope) (next : Nat)
  -- in the `close` of the scope
  | close (scope : Scope) (thrown : Option Thrown)
  | ended (thrown : Option Thrown)
  deriving DecidableEq

/-- `runClients` with its clients. -/
structure State (n : Nat) where
  owner : OwnerPc
  -- of the scope the owner is in
  isShutdown : Bool
  firstException : Option Thrown
  connectSemaphore : Int
  clients : Fin n → Client

variable {n : Nat}

/-- `runClients` has been called. -/
def start (args : ConnectArgs) (n : Nat) : State n where
  owner := .body .clientsConnect 0
  isShutdown := false
  firstException := none
  connectSemaphore := args.connectSemaphore
  clients := fun _ => {}

/-- `ShutdownOnFailure.handleComplete`, which a scope calls unless it is shut down. -/
def State.handleComplete (s : State n) (thrown : Option Thrown) : State n :=
  if s.isShutdown then s else
  match thrown, s.firstException with
  | some e, none => { s with firstException := some e, isShutdown := true }
  | _, _ => s

inductive Action (n : Nat)
  | fork
  | join
  -- the owner is interrupted in `join`
  | joinInterrupted
  -- `close` has waited for the threads
  | close
  | connect (c : Fin n) (a : ConnectAct)
  | connectCompletes (c : Fin n)
  -- `Common.roundTripLoop` is over, and the channel closed
  | roundTripLoop (c : Fin n) (thrown : Option Thrown)
  | roundTripCompletes (c : Fin n)

/-- A scope that is shut down forks nothing. `close` shuts it down first of all, so this is done
in the step to it. -/
def act (args : ConnectArgs) : Action n → State n → Option (State n)
  | .fork, s =>
    match s.owner with
    | .body scope next =>
      if h : next < n then
        some { s with
          owner := .body scope (next + 1)
          clients := if s.isShutdown then s.clients
            else Function.update s.clients ⟨next, h⟩ ((s.clients ⟨next, h⟩).fork scope) }
      else none
    | _ => none
  | .join, s =>
    match s.owner with
    | .body scope next =>
      if n ≤ next ∧ (s.isShutdown = true ∨ ∀ c, (s.clients c).isIdle scope = true) then
        -- `throwIfFailed`
        some { s with
          owner := .close scope (s.firstException.map .executionException)
          isShutdown := true }
      else none
    | _ => none
  | .joinInterrupted, s =>
    match s.owner with
    | .body scope next =>
      if n ≤ next then
        some { s with owner := .close scope (some .interruptedException), isShutdown := true }
      else none
    | _ => none
  | .close, s =>
    match s.owner with
    | .close scope thrown =>
      if ∀ c, (s.clients c).isIdle scope = true then
        match scope, thrown with
        | .clientsConnect, none =>
          some { s with owner := .body .clients 0, isShutdown := false, firstException := none }
        | _, _ => some { s with owner := .ended thrown }
      else none
    | _ => none
  | .connect c a, s =>
    ((s.clients c).connect args a s.connectSemaphore).map fun r =>
      { s with connectSemaphore := r.1, clients := Function.update s.clients c r.2 }
  | .connectCompletes c, s =>
    match (s.clients c).connectPc with
    | .completes thrown =>
      let client := { s.clients c with connectPc := .done thrown }
      some ({ s with clients := Function.update s.clients c client }.handleComplete thrown)
    | _ => none
  | .roundTripLoop c thrown, s =>
    match (s.clients c).roundTripPc with
    | .running =>
      let client :=
        { s.clients c with
          roundTripPc := .completes thrown
          socketChannel := (s.clients c).socketChannel.close }
      some { s with clients := Function.update s.clients c client }
    | _ => none
  | .roundTripCompletes c, s =>
    match (s.clients c).roundTripPc with
    | .completes thrown =>
      let client := { s.clients c with roundTripPc := .done thrown }
      some ({ s with clients := Function.update s.clients c client }.handleComplete thrown)
    | _ => none

/-- The runs of `runClients`. -/
def runClients (args : ConnectArgs) (n : Nat) : System (State n) :=
  System.ofActions (· = start args n) (act args)

/-- Every channel is closed and every permit back. -/
def State.Released (args : ConnectArgs) (s : State n) : Prop :=
  (∀ c, (s.clients c).socketChannel ≠ .opened) ∧ s.connectSemaphore = args.connectSemaphore

/-- The first scope is left by an exception, or will be. -/
def State.ConnectFails (s : State n) : Prop :=
  match s.owner with
  | .body .clientsConnect _ => s.isShutdown = true
  | .close .clientsConnect thrown => thrown ≠ none
  | _ => False

/-- The first scope fails only while no channel is open, and then none is opened; a round trip
fails only when all clients are forked. -/
def Orderly : Action n → State n → Prop
  | .connect _ (.openChannel .opened), s => ¬ s.ConnectFails
  | .connectCompletes c, s =>
    match (s.clients c).connectPc with
    | .completes (some _) => ∀ c', (s.clients c').socketChannel ≠ .opened
    | _ => True
  | .joinInterrupted, s =>
    match s.owner with
    | .body .clientsConnect _ => ∀ c, (s.clients c).socketChannel ≠ .opened
    | _ => True
  | .roundTripCompletes c, s =>
    match (s.clients c).roundTripPc with
    | .completes (some _) => ∀ c', (s.clients c').roundTripPc ≠ .unforked
    | _ => True
  | _, _ => True

/-! ## What a client holds -/

/-- The permit of the semaphore a client has. -/
def Client.held (c : Client) : Int :=
  match c.connectPc with
  | .loop _ _ | .sleep _ | .release _ => 1
  | _ => 0

/-- `connect` has returned, or will. -/
def ConnectPc.returns : ConnectPc → Prop
  | .release thrown | .completes thrown | .done thrown => thrown = none
  | _ => False

/-- In the first scope. -/
structure Client.Connecting (c : Client) : Prop where
  roundTripPc : c.roundTripPc = .unforked
  socketChannel : c.socketChannel ≠ .closed
  returns : c.connectPc.returns → c.socketChannel = .opened

/-- In the second scope. -/
structure Client.Connected (c : Client) : Prop where
  connectPc : c.connectPc = .done none
  socketChannel : c.socketChannel =
    match c.roundTripPc with
    | .unforked | .running => .opened
    | .completes _ | .done _ => .closed

/-- A client whose thread is idle holds no permit. -/
theorem Client.held_of_isIdle {c : Client} (h : c.isIdle .clientsConnect = true) : c.held = 0 := by
  unfold Client.isIdle at h
  unfold Client.held
  dsimp only at h
  split at h
  next hpc => rw [hpc]
  next hpc => rw [hpc]
  next => cases h

/-- It has ended without an exception, if it was forked and has not failed. -/
theorem Client.done_of_isIdle {c : Client} (h : c.isIdle .clientsConnect = true)
    (hunforked : c.connectPc ≠ .unforked) (hfailed : ∀ e, c.connectPc ≠ .done (some e)) :
    c.connectPc = .done none := by
  unfold Client.isIdle at h
  dsimp only at h
  split at h
  next hpc => exact (hunforked hpc).elim
  next thrown hpc =>
    cases thrown with
    | none => exact hpc
    | some e => exact (hfailed e hpc).elim
  next => cases h

/-- Where no thread is left, the channel of a client that was never forked is open. -/
theorem Client.Connected.opened_iff {c : Client} (hconnected : c.Connected)
    (h : c.isIdle .clients = true) :
    c.socketChannel = .opened ↔ c.roundTripPc = .unforked := by
  rw [hconnected.socketChannel]
  unfold Client.isIdle at h
  dsimp only at h
  split at h
  next hpc => rw [hpc]; exact iff_of_true rfl rfl
  next thrown hpc =>
    rw [hpc]
    exact iff_of_false (fun h => by cases h) (fun h => by cases h)
  next => cases h

/-- A client whose thread is busy was forked. -/
theorem Client.forked_of_busy {c : Client} (h : c.isIdle .clientsConnect = false) :
    c.connectPc ≠ .unforked := by
  intro hpc
  unfold Client.isIdle at h
  rw [hpc] at h
  cases h

theorem Client.ne_done_of_busy {c : Client} (h : c.isIdle .clientsConnect = false)
    (thrown : Option Thrown) :
    c.connectPc ≠ .done thrown := by
  intro hpc
  unfold Client.isIdle at h
  rw [hpc] at h
  cases h

/-- What a step of `connect` is. -/
structure ConnectStep (a : ConnectAct) (permits permits' : Int) (c c' : Client) : Prop where
  held : permits' + c'.held = permits + c.held
  busy : c.isIdle .clientsConnect = false
  stillBusy : c'.isIdle .clientsConnect = false
  roundTripPc : c'.roundTripPc = c.roundTripPc
  socketChannel : c'.socketChannel = if a = .openChannel .opened then .opened else c.socketChannel
  returns : c'.connectPc.returns → c.connectPc.returns ∨ a = .openChannel .opened

/-- Each action of a thread that connects is one of these. -/
theorem connectStep {args : ConnectArgs} {a : ConnectAct} {permits permits' : Int} {c c' : Client}
    (h : c.connect args a permits = some (permits', c')) : ConnectStep a permits permits' c c' := by
  unfold Client.connect at h
  split at h
  next hpc =>
    split at h
    next =>
      cases h
      refine ⟨?_, ?_, rfl, rfl, rfl, False.elim⟩
      · simp [Client.held, hpc]
      · simp [Client.isIdle, hpc]
    next => cases h
  next hpc =>
    cases h
    refine ⟨?_, ?_, rfl, rfl, rfl, fun hnone => by cases hnone⟩
    · simp [Client.held, hpc]
    · simp [Client.isIdle, hpc]
  next i lastException hpc =>
    split at h
    next =>
      split at h
      next =>
        cases h
        refine ⟨?_, ?_, rfl, rfl, rfl, fun _ => Or.inr rfl⟩
        · simp [Client.held, hpc]
        · simp [Client.isIdle, hpc]
      next =>
        cases h
        refine ⟨?_, ?_, rfl, rfl, rfl, False.elim⟩
        · simp [Client.held, hpc]
        · simp [Client.isIdle, hpc]
      next =>
        cases h
        refine ⟨?_, ?_, rfl, rfl, rfl, fun hnone => by cases hnone⟩
        · simp [Client.held, hpc]
        · simp [Client.isIdle, hpc]
    next => cases h
  next i lastException hpc =>
    split at h
    next => cases h
    next =>
      cases h
      refine ⟨?_, ?_, rfl, rfl, rfl, fun hnone => by cases hnone⟩
      · simp [Client.held, hpc]
      · simp [Client.isIdle, hpc]
  next i hpc =>
    cases h
    refine ⟨?_, ?_, rfl, rfl, rfl, False.elim⟩
    · simp [Client.held, hpc]
    · simp [Client.isIdle, hpc]
  next i hpc =>
    cases h
    refine ⟨?_, ?_, rfl, rfl, rfl, fun hnone => by cases hnone⟩
    · simp [Client.held, hpc]
    · simp [Client.isIdle, hpc]
  next thrown hpc =>
    cases h
    refine ⟨?_, ?_, rfl, rfl, rfl, fun hnone => Or.inl ?_⟩
    · simp [Client.held, hpc]
    · simp [Client.isIdle, hpc]
    · rw [hpc]
      exact hnone
  next => cases h

/-! ## The invariant -/

/-- What holds of the clients, by where the owner is. -/
def State.Phase (s : State n) : Prop :=
  match s.owner with
  | .body .clientsConnect next =>
    (∀ c, (s.clients c).Connecting) ∧ s.firstException.isSome = s.isShutdown ∧
      (s.isShutdown = false → ∀ c, ((s.clients c).connectPc = .unforked ↔ next ≤ c.val) ∧
        ∀ e, (s.clients c).connectPc ≠ .done (some e))
  | .close .clientsConnect thrown =>
    (∀ c, (s.clients c).Connecting) ∧ s.isShutdown = true ∧
      (thrown = none → ∀ c, (s.clients c).connectPc = .done none)
  | .body .clients next =>
    (∀ c, (s.clients c).Connected) ∧ s.firstException.isSome = s.isShutdown ∧
      (s.isShutdown = false → ∀ c, (s.clients c).roundTripPc = .unforked ↔ next ≤ c.val)
  | .close .clients _ => (∀ c, (s.clients c).Connected) ∧ s.isShutdown = true
  | .ended _ => ∀ c, (s.clients c).isIdle .clientsConnect = true ∧
    (s.clients c).isIdle .clients = true

/-- What holds between any two steps. -/
structure Inv (args : ConnectArgs) (s : State n) : Prop where
  permits : s.connectSemaphore + ∑ c, (s.clients c).held = args.connectSemaphore
  phase : s.Phase

/-- Some channel is open that nobody will close. -/
def State.Leaks (s : State n) : Prop :=
  match s.owner with
  | .body .clientsConnect _
  | .close .clientsConnect _ => s.ConnectFails ∧ ∃ c, (s.clients c).socketChannel = .opened
  | .body .clients _
  | .close .clients _ => s.isShutdown = true ∧ ∃ c, (s.clients c).roundTripPc = .unforked
  | .ended _ => ∃ c, (s.clients c).socketChannel = .opened

theorem inv_start (args : ConnectArgs) (n : Nat) : Inv args (start args n) where
  permits := by simp [start, Client.held]
  phase := by
    refine ⟨fun c => ⟨rfl, Channel.noConfusion, False.elim⟩, rfl,
      fun _ c => ⟨iff_of_true rfl (Nat.zero_le _), fun e h => ?_⟩⟩
    cases h

/-! ## Step by step -/

variable {args : ConnectArgs} {s t : State n} {a : Action n}

/-- What there is to show of a step. -/
structure StepOk (args : ConnectArgs) (a : Action n) (s t : State n) : Prop where
  inv : Inv args t
  leaks : t.Leaks ↔ s.Leaks ∨ ¬ Orderly a s

/-- Of a step that is orderly. -/
theorem stepOk_of_leaks_iff (hinv : Inv args t) (horderly : Orderly a s)
    (hleaks : t.Leaks ↔ s.Leaks) :
    StepOk args a s t :=
  ⟨hinv, hleaks.trans (or_iff_left fun hnot => hnot horderly).symm⟩

/-- An update of a client that was forked leaves no other one unforked. -/
theorem exists_unforked_update {clients : Fin n → Client} {c : Fin n} {client : Client}
    (hforked : client.roundTripPc ≠ .unforked ∧ (clients c).roundTripPc ≠ .unforked) :
    (∃ c', (Function.update clients c client c').roundTripPc = .unforked) ↔
      ∃ c', (clients c').roundTripPc = .unforked := by
  rw [Family.exists_update_iff (p := fun c : Client => c.roundTripPc = .unforked) fun hc =>
    (hforked.2 hc).elim, or_iff_right hforked.1]

/-- A client is exchanged for one that holds as many permits more as the semaphore has fewer. -/
theorem permits_update {permits permits' : Int} {clients : Fin n → Client} {c : Fin n}
    {client : Client} (hpermits : permits + ∑ c, (clients c).held = args.connectSemaphore)
    (hheld : permits' + client.held = permits + (clients c).held) :
    permits' + ∑ c', (Function.update clients c client c').held = args.connectSemaphore := by
  have hsum := Family.sum_update_add (f := clients) (i := c) (x := client) fun _ c => c.held
  omega

theorem le_iff_of_ne {next : Nat} {hnext : next < n} {c : Fin n} (hc : c ≠ ⟨next, hnext⟩) :
    next ≤ c.val ↔ next + 1 ≤ c.val :=
  ⟨fun hle => Nat.lt_of_le_of_ne hle fun he => hc (Fin.ext he.symm), Nat.le_of_succ_le⟩

theorem act_fork (hinv : Inv args s) (hact : act args .fork s = some t) :
    StepOk args .fork s t := by
  obtain ⟨owner, isShutdown, firstException, permits, clients⟩ := s
  obtain ⟨hpermits, hphase⟩ := hinv
  unfold act at hact
  dsimp only at hact
  split at hact
  next scope next =>
    split at hact
    next hnext =>
      cases hact
      cases scope with
      | clientsConnect =>
        obtain ⟨hconnecting, hexc, hopen⟩ := hphase
        cases isShutdown with
        | true =>
          exact stepOk_of_leaks_iff ⟨hpermits, hconnecting, hexc, fun hs => by cases hs⟩
            trivial Iff.rfl
        | false =>
          obtain ⟨hunforked, -⟩ := hopen rfl ⟨next, hnext⟩
          have hpc : (clients ⟨next, hnext⟩).connectPc = .unforked := hunforked.mpr (Nat.le_refl _)
          refine stepOk_of_leaks_iff ⟨?_, ?_, hexc, fun _ => ?_⟩ trivial ?_
          · exact permits_update hpermits (by simp [Client.held, Client.fork, hpc])
          · refine (Function.forall_update_iff clients fun _ c => c.Connecting).mpr ⟨?_,
              fun c _ => hconnecting c⟩
            exact ⟨(hconnecting _).roundTripPc, (hconnecting _).socketChannel, False.elim⟩
          · intro c
            by_cases hc : c = ⟨next, hnext⟩
            · rw [hc]
              dsimp only
              rw [if_neg Bool.false_ne_true, Function.update_self]
              refine ⟨iff_of_false (fun h => by cases h) (Nat.not_succ_le_self next),
                fun e h => by cases h⟩
            · dsimp only
              rw [if_neg Bool.false_ne_true, Function.update_of_ne hc]
              obtain ⟨hunforked, hfailed⟩ := hopen rfl c
              exact ⟨hunforked.trans (le_iff_of_ne hc), hfailed⟩
          · exact ⟨fun h => (Bool.false_ne_true h.1).elim, fun h => (Bool.false_ne_true h.1).elim⟩
      | clients =>
        obtain ⟨hconnected, hexc, hopen⟩ := hphase
        cases isShutdown with
        | true =>
          exact stepOk_of_leaks_iff ⟨hpermits, hconnected, hexc, fun hs => by cases hs⟩
            trivial Iff.rfl
        | false =>
          have hpc := (hopen rfl ⟨next, hnext⟩).mpr (Nat.le_refl _)
          refine stepOk_of_leaks_iff ⟨?_, ?_, hexc, fun _ => ?_⟩ trivial ?_
          · exact permits_update hpermits (by simp [Client.held, Client.fork])
          · refine (Function.forall_update_iff clients fun _ c => c.Connected).mpr ⟨?_,
              fun c _ => hconnected c⟩
            refine ⟨(hconnected _).connectPc, ?_⟩
            have hchannel := (hconnected ⟨next, hnext⟩).socketChannel
            rw [hpc] at hchannel
            exact hchannel
          · intro c
            by_cases hc : c = ⟨next, hnext⟩
            · rw [hc]
              dsimp only
              rw [if_neg Bool.false_ne_true, Function.update_self]
              exact iff_of_false (fun h => by cases h) (Nat.not_succ_le_self next)
            · dsimp only
              rw [if_neg Bool.false_ne_true, Function.update_of_ne hc]
              exact (hopen rfl c).trans (le_iff_of_ne hc)
          · exact ⟨fun h => (Bool.false_ne_true h.1).elim, fun h => (Bool.false_ne_true h.1).elim⟩
    next => cases hact
  next => cases hact

/-- All clients are forked that ever will be. -/
theorem leaks_of_join {next : Nat} {isShutdown : Bool} {clients : Fin n → Client} (hnext : n ≤ next)
    (hopen : isShutdown = false → ∀ c, (clients c).roundTripPc = .unforked ↔ next ≤ c.val) :
    (true = true ∧ ∃ c, (clients c).roundTripPc = .unforked) ↔
      isShutdown = true ∧ ∃ c, (clients c).roundTripPc = .unforked := by
  cases isShutdown with
  | true => exact Iff.rfl
  | false =>
    refine iff_of_false ?_ fun h => Bool.false_ne_true h.1
    rintro ⟨-, c, hc⟩
    have := (hopen rfl c).mp hc
    omega

theorem act_join (hinv : Inv args s) (hact : act args .join s = some t) :
    StepOk args .join s t := by
  obtain ⟨owner, isShutdown, firstException, permits, clients⟩ := s
  obtain ⟨hpermits, hphase⟩ := hinv
  unfold act at hact
  dsimp only at hact
  split at hact
  next scope next =>
    split at hact
    next hjoin =>
      cases hact
      obtain ⟨hnext, hjoin⟩ := hjoin
      cases scope with
      | clientsConnect =>
        obtain ⟨hconnecting, hexc, hopen⟩ := hphase
        refine stepOk_of_leaks_iff ⟨hpermits, hconnecting, rfl, fun hnone c =>
          ?_⟩ trivial (and_congr_left' ?_)
        · have hnone : firstException = none := Option.map_eq_none_iff.mp hnone
          have hshutdown : isShutdown = false := hexc.symm.trans (by rw [hnone]; rfl)
          have hidle := hjoin.resolve_left (ne_true_of_eq_false hshutdown) c
          obtain ⟨hunforked, hfailed⟩ := hopen hshutdown c
          exact Client.done_of_isIdle hidle (fun h => by have := hunforked.mp h; omega) hfailed
        · show firstException.map Thrown.executionException ≠ none ↔ isShutdown = true
          rw [← show firstException.isSome = isShutdown from hexc, ne_eq, Option.map_eq_none_iff,
            Option.isSome_iff_ne_none]
      | clients =>
        obtain ⟨hconnected, hexc, hopen⟩ := hphase
        refine stepOk_of_leaks_iff ⟨hpermits, hconnected, rfl⟩ trivial ?_
        exact leaks_of_join hnext hopen
    next => cases hact
  next => cases hact

theorem act_joinInterrupted (hinv : Inv args s) (hact : act args .joinInterrupted s = some t) :
    StepOk args .joinInterrupted s t := by
  obtain ⟨owner, isShutdown, firstException, permits, clients⟩ := s
  obtain ⟨hpermits, hphase⟩ := hinv
  unfold act at hact
  dsimp only at hact
  split at hact
  next scope next =>
    split at hact
    next hnext =>
      cases hact
      cases scope with
      | clientsConnect =>
        refine ⟨⟨hpermits, hphase.1, rfl, fun hnone => by cases hnone⟩, ?_⟩
        show (some Thrown.interruptedException ≠ none ∧ ∃ c, (clients c).socketChannel = .opened) ↔
          (isShutdown = true ∧ ∃ c, (clients c).socketChannel = .opened) ∨
            ¬ ∀ c, (clients c).socketChannel ≠ .opened
        rw [not_forall_not]
        exact ⟨fun h => Or.inr h.2, fun h => ⟨Option.some_ne_none _, h.elim And.right id⟩⟩
      | clients =>
        obtain ⟨hconnected, hexc, hopen⟩ := hphase
        refine stepOk_of_leaks_iff ⟨hpermits, hconnected, rfl⟩ trivial ?_
        exact leaks_of_join hnext hopen
    next => cases hact
  next => cases hact

theorem act_close (hinv : Inv args s) (hact : act args .close s = some t) :
    StepOk args .close s t := by
  obtain ⟨owner, isShutdown, firstException, permits, clients⟩ := s
  obtain ⟨hpermits, hphase⟩ := hinv
  unfold act at hact
  dsimp only at hact
  split at hact
  next scope thrown =>
    split at hact
    next hidle =>
      cases scope with
      | clientsConnect =>
        obtain ⟨hconnecting, -, hdone⟩ := hphase
        cases thrown with
        | none =>
          cases hact
          refine stepOk_of_leaks_iff ⟨hpermits, fun c =>
            ⟨hdone rfl c, ?_⟩, rfl, fun _ c => ?_⟩ trivial ?_
          · show (clients c).socketChannel = match (clients c).roundTripPc with
              | .unforked | .running => .opened
              | .completes _ | .done _ => .closed
            rw [show (clients c).roundTripPc = _ from (hconnecting c).roundTripPc]
            exact (hconnecting c).returns
              (by rw [show (clients c).connectPc = _ from hdone rfl c]; rfl)
          · exact iff_of_true (hconnecting c).roundTripPc (Nat.zero_le _)
          · exact ⟨fun h => (Bool.false_ne_true h.1).elim, fun h => (h.1 rfl).elim⟩
        | some e =>
          cases hact
          refine stepOk_of_leaks_iff ⟨hpermits, fun c => ⟨hidle c, ?_⟩⟩ trivial ?_
          · unfold Client.isIdle
            rw [show (clients c).roundTripPc = _ from (hconnecting c).roundTripPc]
          · exact ⟨fun h => ⟨Option.some_ne_none _, h⟩, And.right⟩
      | clients =>
        obtain ⟨hconnected, hshutdown⟩ := hphase
        cases hact
        refine stepOk_of_leaks_iff ⟨hpermits, fun c => ⟨?_, hidle c⟩⟩ trivial ?_
        · unfold Client.isIdle
          rw [show (clients c).connectPc = _ from (hconnected c).connectPc]
        · show (∃ c, (clients c).socketChannel = .opened) ↔ isShutdown = true ∧
            ∃ c, (clients c).roundTripPc = .unforked
          rw [and_iff_right hshutdown]
          exact exists_congr fun c => (hconnected c).opened_iff (hidle c)
    next => cases hact
  next => cases hact

/-- When it is orderly to connect. -/
theorem orderly_connect {c : Fin n} {a : ConnectAct} :
    Orderly (.connect c a) s ↔ (a = .openChannel .opened → ¬ s.ConnectFails) := by
  unfold Orderly
  split
  next heq =>
    cases heq
    exact ⟨fun h _ => h, fun h => h rfl⟩
  next heq => cases heq
  next heq => cases heq
  next heq => cases heq
  next hne _ _ _ =>
    refine iff_of_true trivial fun ha => ?_
    rw [ha] at hne
    exact (hne c rfl).elim

/-- When the end of a connect is not. -/
theorem not_orderly_connectCompletes {c : Fin n} {thrown : Option Thrown}
    (hpc : (s.clients c).connectPc = .completes thrown) :
    ¬ Orderly (.connectCompletes c) s ↔
      thrown.isSome = true ∧ ∃ c', (s.clients c').socketChannel = .opened := by
  unfold Orderly
  dsimp only
  rw [hpc]
  cases thrown with
  | none => exact iff_of_false (fun h => h trivial) (fun h => Bool.false_ne_true h.1)
  | some e => exact not_forall_not.trans (and_iff_right rfl).symm

/-- When the end of the round trips is not. -/
theorem not_orderly_roundTripCompletes {c : Fin n} {thrown : Option Thrown}
    (hpc : (s.clients c).roundTripPc = .completes thrown) :
    ¬ Orderly (.roundTripCompletes c) s ↔ thrown.isSome = true ∧ ∃ c', (s.clients c').roundTripPc =
      .unforked := by
  unfold Orderly
  dsimp only
  rw [hpc]
  cases thrown with
  | none => exact iff_of_false (fun h => h trivial) (fun h => Bool.false_ne_true h.1)
  | some e => exact not_forall_not.trans (and_iff_right rfl).symm

/-- A failure shuts the scope down, if nothing has yet. -/
theorem handleComplete_spec (s : State n) (thrown : Option Thrown)
    (hexc : s.isShutdown = false → s.firstException = none) :
    ∃ firstException,
      s.handleComplete thrown =
        { s with isShutdown := s.isShutdown || thrown.isSome, firstException := firstException } ∧
      (s.firstException.isSome = s.isShutdown →
          firstException.isSome = (s.isShutdown || thrown.isSome)) := by
  obtain ⟨owner, isShutdown, firstException, permits, clients⟩ := s
  unfold State.handleComplete
  cases isShutdown with
  | true => exact ⟨firstException, rfl, id⟩
  | false =>
    obtain rfl : firstException = none := hexc rfl
    cases thrown with
    | none => exact ⟨none, rfl, id⟩
    | some e => exact ⟨some e, rfl, fun _ => rfl⟩

/-- An exception shuts the scope down. -/
theorem State.Phase.firstException (hphase : s.Phase) (hrunning : ∀ thrown, s.owner ≠ .ended thrown)
    (hs : s.isShutdown = false) : s.firstException = none := by
  have hnone : s.firstException.isSome = s.isShutdown → s.firstException = none := fun hexc =>
    Option.not_isSome_iff_eq_none.mp (ne_true_of_eq_false (hexc.trans hs))
  obtain ⟨owner, isShutdown, firstException, permits, clients⟩ := s
  match owner, hphase with
  | .body .clientsConnect _, ⟨_, hexc, _⟩ => exact hnone hexc
  | .body .clients _, ⟨_, hexc, _⟩ => exact hnone hexc
  | .close .clientsConnect _, ⟨_, hshutdown, _⟩ => exact (ne_true_of_eq_false hs hshutdown).elim
  | .close .clients _, ⟨_, hshutdown⟩ => exact (ne_true_of_eq_false hs hshutdown).elim
  | .ended thrown, _ => exact (hrunning thrown rfl).elim

/-- A thread that connects is in the first scope, which has not succeeded. -/
theorem State.Phase.connecting (hphase : s.Phase) {c : Fin n}
    (hbusy : (s.clients c).isIdle .clientsConnect = false) :
    (∃ next, s.owner = .body .clientsConnect next) ∨
      ∃ e, s.owner = .close .clientsConnect (some e) := by
  have hconnected : ¬ (s.clients c).connectPc = .done none := by
    intro hdone
    unfold Client.isIdle at hbusy
    rw [hdone] at hbusy
    cases hbusy
  obtain ⟨owner, isShutdown, firstException, permits, clients⟩ := s
  match owner, hphase with
  | .body .clientsConnect next, _ => exact Or.inl ⟨next, rfl⟩
  | .close .clientsConnect (some e), _ => exact Or.inr ⟨e, rfl⟩
  | .close .clientsConnect none, ⟨_, _, hdone⟩ => exact (hconnected (hdone rfl c)).elim
  | .body .clients _, ⟨hall, _⟩ => exact (hconnected (hall c).connectPc).elim
  | .close .clients _, ⟨hall, _⟩ => exact (hconnected (hall c).connectPc).elim
  | .ended _, hidle => exact (Bool.false_ne_true (hbusy.symm.trans (hidle c).1)).elim

/-- And one that runs round trips is in the second. -/
theorem State.Phase.connected (hphase : s.Phase) {c : Fin n}
    (hbusy : (s.clients c).isIdle .clients = false) :
    (∃ next, s.owner = .body .clients next) ∨ ∃ thrown, s.owner = .close .clients thrown := by
  have hconnecting : ¬ (s.clients c).Connecting := by
    intro hconnecting
    unfold Client.isIdle at hbusy
    rw [hconnecting.roundTripPc] at hbusy
    cases hbusy
  obtain ⟨owner, isShutdown, firstException, permits, clients⟩ := s
  match owner, hphase with
  | .body .clients next, _ => exact Or.inl ⟨next, rfl⟩
  | .close .clients thrown, _ => exact Or.inr ⟨thrown, rfl⟩
  | .body .clientsConnect _, ⟨hall, _⟩ => exact (hconnecting (hall c)).elim
  | .close .clientsConnect _, ⟨hall, _⟩ => exact (hconnecting (hall c)).elim
  | .ended _, hidle => exact (Bool.false_ne_true (hbusy.symm.trans (hidle c).2)).elim

/-- What a thread of the first scope does with its client: it opens the channel, or fails, or
neither. -/
structure Client.Advances (opens : Prop) (fails : Bool) (c c' : Client) : Prop where
  busy : c.isIdle .clientsConnect = false
  forked : c'.connectPc ≠ .unforked
  roundTripPc : c'.roundTripPc = c.roundTripPc
  socketChannel : opens ∧ c'.socketChannel = .opened ∨ ¬ opens ∧ c'.socketChannel = c.socketChannel
  returns : c'.connectPc.returns → c.connectPc.returns ∨ opens
  failed : ∀ e, c'.connectPc = .done (some e) → fails = true
  notBoth : fails = true → ¬ opens

/-- A thread that connects opens its channel, or does not. -/
theorem ConnectStep.advances {a : ConnectAct} {permits permits' : Int} {c c' : Client}
    (h : ConnectStep a permits permits' c c') : c.Advances (a = .openChannel .opened) false c' where
  busy := h.busy
  forked := Client.forked_of_busy h.stillBusy
  roundTripPc := h.roundTripPc
  socketChannel := by
    have hchannel := h.socketChannel
    by_cases ha : a = .openChannel .opened
    · rw [if_pos ha] at hchannel
      exact Or.inl ⟨ha, hchannel⟩
    · rw [if_neg ha] at hchannel
      exact Or.inr ⟨ha, hchannel⟩
  returns := h.returns
  failed := fun _ hdone => (Client.ne_done_of_busy h.stillBusy _ hdone).elim
  notBoth := fun h => (Bool.false_ne_true h).elim

/-- At its end it fails, or does not. -/
theorem Client.advances_done {c : Client} {thrown : Option Thrown}
    (hpc : c.connectPc = .completes thrown) :
    c.Advances False thrown.isSome { c with connectPc := .done thrown } where
  busy := by
    unfold Client.isIdle
    rw [hpc]
  forked := ConnectPc.noConfusion
  roundTripPc := rfl
  socketChannel := Or.inr ⟨id, rfl⟩
  returns := fun hreturns => Or.inl (by rw [hpc]; exact hreturns)
  failed := fun e hdone => by
    cases hdone
    rfl
  notBoth := fun _ => id

section Advances

variable {opens : Prop} {fails : Bool}

/-- A client that connects goes on to. -/
theorem Client.Advances.connecting {c c' : Client} (h : c.Advances opens fails c')
    (hc : c.Connecting) :
    c'.Connecting := by
  refine ⟨h.roundTripPc.trans hc.roundTripPc, ?_, fun hreturns => ?_⟩
  · rcases h.socketChannel with ⟨-, hchannel⟩ | ⟨-, hchannel⟩
    · rw [hchannel]
      exact Channel.noConfusion
    · rw [hchannel]
      exact hc.socketChannel
  · rcases h.socketChannel with ⟨-, hchannel⟩ | ⟨hnot, hchannel⟩
    · exact hchannel
    · rw [hchannel]
      exact hc.returns ((h.returns hreturns).resolve_right hnot)

/-- The channels are those before, and the one it opens. -/
theorem Client.Advances.opened_iff {clients : Fin n → Client} {c : Fin n} {client : Client}
    (h : (clients c).Advances opens fails client) :
    (∃ c', (Function.update clients c client c').socketChannel = .opened) ↔
      opens ∨ ∃ c', (clients c').socketChannel = .opened := by
  rcases h.socketChannel with ⟨hopens, hchannel⟩ | ⟨hopens, hchannel⟩
  · rw [Family.exists_update_iff (p := fun c : Client => c.socketChannel = .opened) fun _ =>
      hchannel]
    exact iff_of_true (Or.inl hchannel) (Or.inl hopens)
  · rw [Family.exists_update_iff (p := fun c : Client => c.socketChannel = .opened) hchannel.trans,
      or_iff_right hopens]
    exact or_iff_right_of_imp fun hopened => ⟨c, hchannel.symm.trans hopened⟩

/-- Where the first scope has failed (`failed`), or fails with the step, what is open leaks. -/
theorem Client.Advances.leaks_iff {c c' : Client} (h : c.Advances opens fails c')
    {failed failed' isOpen : Prop} (hfailed : failed' ↔ failed ∨ fails = true) :
    failed' ∧ (opens ∨ isOpen) ↔ failed ∧ isOpen ∨ opens ∧ failed ∨ fails = true ∧ isOpen := by
  rw [hfailed]
  constructor
  · rintro ⟨hf | hfails, hopens | hopen⟩
    · exact Or.inr (Or.inl ⟨hopens, hf⟩)
    · exact Or.inl ⟨hf, hopen⟩
    · exact (h.notBoth hfails hopens).elim
    · exact Or.inr (Or.inr ⟨hfails, hopen⟩)
  · rintro (⟨hf, hopen⟩ | ⟨hopens, hf⟩ | ⟨hfails, hopen⟩)
    · exact ⟨Or.inl hf, Or.inr hopen⟩
    · exact ⟨Or.inl hf, Or.inl hopens⟩
    · exact ⟨Or.inr hfails, Or.inr hopen⟩

/-- A step of a thread of the first scope. -/
theorem stepOk_advances {c : Fin n} {client : Client} {permits : Int}
    {firstException : Option Thrown}
    (hinv : Inv args s) (h : (s.clients c).Advances opens fails client)
    (hheld : permits + client.held = s.connectSemaphore + (s.clients c).held)
    (hexc : s.firstException.isSome = s.isShutdown →
      firstException.isSome = (s.isShutdown || fails))
    (horderly : ¬ Orderly a s ↔
      opens ∧ s.ConnectFails ∨ fails = true ∧ ∃ c', (s.clients c').socketChannel = .opened) :
    StepOk args a s ⟨s.owner, s.isShutdown || fails, firstException, permits,
      Function.update s.clients c client⟩ := by
  have hpermits := permits_update hinv.permits hheld
  have hopened := h.opened_iff
  have hwhere := hinv.phase.connecting h.busy
  obtain ⟨owner, isShutdown, firstException', permits', clients⟩ := s
  obtain ⟨-, hphase⟩ := hinv
  have hconnecting' : (∀ c, (clients c).Connecting) →
      ∀ c', (Function.update clients c client c').Connecting :=
    fun hall => (Function.forall_update_iff clients fun _ c => c.Connecting).mpr
      ⟨h.connecting (hall c), fun c' _ => hall c'⟩
  rcases hwhere with ⟨next, rfl⟩ | ⟨e, rfl⟩
  · obtain ⟨hconnecting, hexc', hopen⟩ := hphase
    refine ⟨⟨hpermits, hconnecting' hconnecting, hexc hexc', fun hs => ?_⟩, ?_⟩
    · obtain ⟨hs, hfails⟩ := Bool.or_eq_false_iff.mp hs
      refine (Function.forall_update_iff clients fun c' client =>
        (client.connectPc = .unforked ↔ next ≤ c'.val) ∧ ∀ e, client.connectPc ≠ .done (some e)).mpr
        ⟨⟨?_, fun e hdone => ?_⟩, fun c' _ => hopen hs c'⟩
      · have hforked := Client.forked_of_busy h.busy
        exact iff_of_false h.forked fun hle => hforked ((hopen hs c).1.mpr hle)
      · exact ne_true_of_eq_false hfails (h.failed e hdone)
    · rw [horderly]
      show ((isShutdown || fails) = true ∧
          ∃ c', (Function.update clients c client c').socketChannel = .opened) ↔
        (isShutdown = true ∧ ∃ c', (clients c').socketChannel = .opened) ∨ opens ∧
          isShutdown = true ∨
          fails = true ∧ ∃ c', (clients c').socketChannel = .opened
      rw [hopened]
      exact h.leaks_iff Bool.or_eq_true_iff
  · obtain ⟨hconnecting, hshutdown, -⟩ := hphase
    obtain rfl : isShutdown = true := hshutdown
    refine ⟨⟨hpermits, hconnecting' hconnecting, rfl, fun hnone => by cases hnone⟩, ?_⟩
    rw [horderly]
    show (some e ≠ none ∧ ∃ c', (Function.update clients c client c').socketChannel = .opened) ↔
      (some e ≠ none ∧ ∃ c', (clients c').socketChannel = .opened) ∨ opens ∧ some e ≠ none ∨
        fails = true ∧ ∃ c', (clients c').socketChannel = .opened
    rw [hopened]
    exact h.leaks_iff (or_iff_left_of_imp fun _ => Option.some_ne_none e).symm

end Advances

theorem act_connect {c : Fin n} {a : ConnectAct} (hinv : Inv args s)
    (hact : act args (.connect c a) s = some t) :
    StepOk args (.connect c a) s t := by
  obtain ⟨⟨permits', client⟩, hconnect, rfl⟩ := Option.map_eq_some_iff.mp hact
  have hstep := connectStep hconnect
  have horderly : ¬ Orderly (.connect c a) s ↔ a = .openChannel .opened ∧ s.ConnectFails ∨
      false = true ∧ ∃ c', (s.clients c').socketChannel = .opened := by
    rw [orderly_connect, Classical.not_imp, not_not]
    exact (or_iff_left fun h => Bool.false_ne_true h.1).symm
  have hexc : s.firstException.isSome = s.isShutdown →
      s.firstException.isSome = (s.isShutdown || false) := by
    rw [Bool.or_false]
    exact id
  have hok := stepOk_advances hinv hstep.advances hstep.held hexc horderly
  rwa [Bool.or_false] at hok

theorem act_connectCompletes {c : Fin n} (hinv : Inv args s)
    (hact : act args (.connectCompletes c) s = some t) :
    StepOk args (.connectCompletes c) s t := by
  unfold act at hact
  dsimp only at hact
  split at hact
  next thrown hpc =>
    cases hact
    have hadvances := Client.advances_done hpc
    have hrunning : ∀ thrown, s.owner ≠ .ended thrown := by
      rcases hinv.phase.connecting hadvances.busy with ⟨next, howner⟩ | ⟨e, howner⟩
      · exact fun thrown h => by cases howner.symm.trans h
      · exact fun thrown h => by cases howner.symm.trans h
    obtain ⟨firstException, heq, hexc⟩ := handleComplete_spec
      { s with
        clients := Function.update s.clients c { s.clients c with connectPc := .done thrown } }
      thrown (hinv.phase.firstException hrunning)
    rw [heq]
    refine stepOk_advances hinv hadvances ?_ hexc ?_
    · simp [Client.held, hpc]
    · rw [not_orderly_connectCompletes hpc]
      exact (or_iff_right fun h => h.1).symm
  next => cases hact

/-- A step of a thread of the second scope. -/
theorem stepOk_roundTrip {c : Fin n} {client : Client} {fails : Bool}
    {firstException : Option Thrown}
    (hinv : Inv args s) (hbusy : (s.clients c).isIdle .clients = false)
    (hconnected : (s.clients c).Connected → client.Connected)
    (hheld : client.held = (s.clients c).held)
    (hforked : client.roundTripPc ≠ .unforked ∧ (s.clients c).roundTripPc ≠ .unforked)
    (hexc : s.firstException.isSome = s.isShutdown →
      firstException.isSome = (s.isShutdown || fails))
    (horderly : ¬ Orderly a s ↔ fails = true ∧ ∃ c', (s.clients c').roundTripPc = .unforked) :
    StepOk args a s ⟨s.owner, s.isShutdown || fails, firstException, s.connectSemaphore,
      Function.update s.clients c client⟩ := by
  have hpermits := permits_update hinv.permits (congrArg (s.connectSemaphore + ·) hheld)
  have hunforked := exists_unforked_update hforked
  have hwhere := hinv.phase.connected hbusy
  obtain ⟨owner, isShutdown, firstException', permits, clients⟩ := s
  obtain ⟨-, hphase⟩ := hinv
  have hconnected' : (∀ c, (clients c).Connected) →
      ∀ c', (Function.update clients c client c').Connected :=
    fun hall => (Function.forall_update_iff clients fun _ c => c.Connected).mpr
      ⟨hconnected (hall c), fun c' _ => hall c'⟩
  rcases hwhere with ⟨next, rfl⟩ | ⟨e, rfl⟩
  · obtain ⟨hall, hexc', hopen⟩ := hphase
    refine ⟨⟨hpermits, hconnected' hall, hexc hexc', fun hs => ?_⟩, ?_⟩
    · have hs := (Bool.or_eq_false_iff.mp hs).1
      refine (Function.forall_update_iff clients fun c' client => client.roundTripPc = .unforked ↔
        next ≤ c'.val).mpr
        ⟨?_, fun c' _ => hopen hs c'⟩
      exact iff_of_false hforked.1 fun hle => hforked.2 ((hopen hs c).mpr hle)
    · rw [horderly]
      show ((isShutdown || fails) = true ∧
        ∃ c', (Function.update clients c client c').roundTripPc = .unforked) ↔
        (isShutdown = true ∧ ∃ c', (clients c').roundTripPc = .unforked) ∨
          fails = true ∧ ∃ c', (clients c').roundTripPc = .unforked
      rw [hunforked, Bool.or_eq_true, or_and_right]
  · obtain ⟨hall, hshutdown⟩ := hphase
    obtain rfl : isShutdown = true := hshutdown
    refine ⟨⟨hpermits, hconnected' hall, rfl⟩, ?_⟩
    rw [horderly]
    show (true = true ∧ ∃ c', (Function.update clients c client c').roundTripPc = .unforked) ↔
      (true = true ∧ ∃ c', (clients c').roundTripPc = .unforked) ∨
        fails = true ∧ ∃ c', (clients c').roundTripPc = .unforked
    rw [hunforked, and_iff_right rfl, or_iff_left_of_imp And.right]

theorem act_roundTripLoop {c : Fin n} {thrown : Option Thrown} (hinv : Inv args s)
    (hact : act args (.roundTripLoop c thrown) s = some t) :
    StepOk args (.roundTripLoop c thrown) s t := by
  unfold act at hact
  dsimp only at hact
  split at hact
  next hpc =>
    cases hact
    have hbusy : (s.clients c).isIdle .clients = false := by
      unfold Client.isIdle
      rw [hpc]
    have hforked : (s.clients c).roundTripPc ≠ .unforked := by
      rw [hpc]
      exact RoundTripPc.noConfusion
    have horderly : ¬ Orderly (.roundTripLoop c thrown) s ↔
        false = true ∧ ∃ c', (s.clients c').roundTripPc = .unforked :=
      iff_of_false (fun h => h trivial) fun h => Bool.false_ne_true h.1
    have hconnected : (s.clients c).Connected → Client.Connected { s.clients c with
        roundTripPc := .completes thrown, socketChannel := (s.clients c).socketChannel.close } := by
      intro hconnected
      have hopened := hconnected.socketChannel
      rw [hpc] at hopened
      refine ⟨hconnected.connectPc, ?_⟩
      show (s.clients c).socketChannel.close = .closed
      rw [hopened]
      rfl
    have hexc : s.firstException.isSome = s.isShutdown →
        s.firstException.isSome = (s.isShutdown || false) := by
      rw [Bool.or_false]
      exact id
    have hok :=
      stepOk_roundTrip hinv hbusy hconnected rfl ⟨RoundTripPc.noConfusion, hforked⟩ hexc horderly
    rwa [Bool.or_false] at hok
  next => cases hact

theorem act_roundTripCompletes {c : Fin n} (hinv : Inv args s)
    (hact : act args (.roundTripCompletes c) s = some t) :
    StepOk args (.roundTripCompletes c) s t := by
  unfold act at hact
  dsimp only at hact
  split at hact
  next thrown hpc =>
    cases hact
    have hbusy : (s.clients c).isIdle .clients = false := by
      unfold Client.isIdle
      rw [hpc]
    have hforked : (s.clients c).roundTripPc ≠ .unforked := by
      rw [hpc]
      exact RoundTripPc.noConfusion
    have hrunning : ∀ thrown, s.owner ≠ .ended thrown := by
      rcases hinv.phase.connected hbusy with ⟨next, howner⟩ | ⟨e, howner⟩
      · exact fun thrown h => by cases howner.symm.trans h
      · exact fun thrown h => by cases howner.symm.trans h
    obtain ⟨firstException, heq, hexc⟩ := handleComplete_spec
      { s with
        clients := Function.update s.clients c { s.clients c with roundTripPc := .done thrown } }
      thrown (hinv.phase.firstException hrunning)
    rw [heq]
    refine stepOk_roundTrip hinv hbusy (fun hconnected =>
      ?_) rfl ⟨RoundTripPc.noConfusion, hforked⟩ hexc
      (not_orderly_roundTripCompletes hpc)
    have hclosed := hconnected.socketChannel
    rw [hpc] at hclosed
    exact ⟨hconnected.connectPc, hclosed⟩
  next => cases hact

/-! ## Runs -/

/-- **Each step is as it should be.** -/
theorem act_stepOk (hinv : Inv args s) (hact : act args a s = some t) : StepOk args a s t := by
  cases a with
  | fork => exact act_fork hinv hact
  | join => exact act_join hinv hact
  | joinInterrupted => exact act_joinInterrupted hinv hact
  | close => exact act_close hinv hact
  | connect c a => exact act_connect hinv hact
  | connectCompletes c => exact act_connectCompletes hinv hact
  | roundTripLoop c thrown => exact act_roundTripLoop hinv hact
  | roundTripCompletes c => exact act_roundTripCompletes hinv hact

theorem inv_reachable (h : (runClients args n).Reachable s) : Inv args s := by
  refine h.invariant (fun s hs => ?_) fun s t _ hinv ⟨a, hact⟩ => (act_stepOk hinv hact).inv
  rw [show s = _ from hs]
  exact inv_start args n

/-- At the end only channels can be left. -/
theorem Inv.released_iff {thrown : Option Thrown} (hinv : Inv args s)
    (hend : s.owner = .ended thrown) :
    s.Released args ↔ ¬ s.Leaks := by
  obtain ⟨owner, isShutdown, firstException, permits, clients⟩ := s
  obtain rfl : owner = .ended thrown := hend
  obtain ⟨hpermits, hidle⟩ := hinv
  have hheld : ∑ c, (clients c).held = 0 :=
    Finset.sum_eq_zero fun c _ => Client.held_of_isIdle (hidle c).1
  have hback : permits = args.connectSemaphore := by
    have hpermits : permits + ∑ c, (clients c).held = args.connectSemaphore := hpermits
    omega
  show (∀ c, (clients c).socketChannel ≠ .opened) ∧ permits = args.connectSemaphore ↔
    ¬ ∃ c, (clients c).socketChannel = .opened
  rw [and_iff_left hback, not_exists]

/-- **What `runClients` leaves open**: for every number of clients, whatever becomes of each
`connect` and of each round trip, and in every order, it ends with all channels closed and all
permits back exactly if all steps were orderly. -/
theorem runClients_closes_iff (args : ConnectArgs) (n : Nat) (as : List (Action n)) (s : State n)
    (thrown : Option Thrown) (hrun : System.runActions (act args) as (start args n) = some s)
    (hend : s.owner = .ended thrown) :
    s.Released args ↔ System.AllSteps (act args) Orderly as (start args n) := by
  have hstart : (runClients args n).Reachable (start args n) := .start (Eq.refl _)
  have hinv := inv_reachable (System.reachable_of_runActions hstart hrun)
  have hnone : ¬ (start args n).Leaks := fun h => Bool.false_ne_true h.1
  have hleaks := System.runActions_iff_allSteps (D := State.Leaks)
    (fun a s t hs hact => (act_stepOk (inv_reachable hs) hact).leaks) hstart hrun
  rw [hinv.released_iff hend, hleaks, or_iff_right hnone, not_not]

/-- A client that connects. -/
def connects (c : Fin n) : List (Action n) :=
  [.connect c .acquire, .connect c (.openChannel .opened), .connect c .release, .connectCompletes c]

/-- One that finds no server, five times. -/
def exhausts (c : Fin n) : List (Action n) :=
  .connect c .acquire ::
    (List.replicate 5 [.connect c (.openChannel .socketException), .connect c .sleep]).flatten ++
    [.connect c .retriesExhausted, .connect c .release, .connectCompletes c]

/-- Two clients that connect and run their round trips. -/
def orderlyRun : List (Action 2) :=
  [.fork, .fork] ++ connects 0 ++ connects 1 ++ [.join, .close, .fork, .fork] ++
    [.roundTripLoop 1 none, .roundTripCompletes 1, .roundTripLoop 0 none, .roundTripCompletes 0,
      .join, .close]

theorem runClients_closes_iff_two :
    ∃ s, System.runActions (act .default) orderlyRun (start .default 2) = some s ∧
      (s.Released .default ↔
        System.AllSteps (act .default) Orderly orderlyRun (start .default 2)) := by
  obtain ⟨s, hrun, hend⟩ : ∃ s,
      System.runActions (act .default) orderlyRun (start .default 2) = some s ∧
      s.owner = .ended none := ⟨_, rfl, rfl⟩
  exact ⟨s, hrun, runClients_closes_iff .default 2 orderlyRun s none hrun hend⟩

/-- The first of two clients connects, and then the server goes. -/
def leakingRun : List (Action 2) :=
  [.fork, .fork] ++ connects 0 ++ exhausts 1 ++ [.join, .close]

/-- It ends with the exception of the second client, and the channel of the first one stays open. -/
theorem runClients_leak : ∃ s,
    System.runActions (act .default) leakingRun (start .default 2) = some s ∧
    s.owner = .ended (some (.executionException (.connectRetriesExhaustedException true))) ∧
    (s.clients 0).socketChannel = .opened ∧
    ¬ s.Released .default :=
  ⟨_, rfl, rfl, rfl, fun hreleased => hreleased.1 0 rfl⟩

end ShouldIAsync.JavaEcho.RunClients
