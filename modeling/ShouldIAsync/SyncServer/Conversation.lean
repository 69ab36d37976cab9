import ShouldIAsync.Lib.System
import ShouldIAsync.SyncServer.HandleConnection

/-!
# A `TcpClient` and its `TcpServer`

Each thread of `TcpClient` writes its payload, waits for a reply and checks that the reply is as
long as the payload was. All a thread does starts with a `park`, which nobody ends; it may end by
itself.

The two take turns: as long as the client has not panicked, what is between them is one payload,
cut in pieces perhaps (`Flight`). The server loses none of it, as it is short. But the client reads
once, so it panics if it meets a piece, and only then (`client_lockstep`).

A read gives some of the bytes that are there, at least one; `cut` says that one has left bytes
behind.
-/

namespace ShouldIAsync.SyncServer

open ShouldIAsync.Lib

def numClients : Nat := 10

/-- `format!("thread/{}", thread_id).as_bytes()` -/
def payload (threadId : Nat) : Bytes :=
  ("thread/".toList ++ Nat.toDigits 10 threadId).map fun c => UInt8.ofNat c.toNat

/-- What `BufReader::new(&mut stream).read(&mut buf)` gives of a segment. -/
def received (segment : Bytes) : Bytes := (segment.take bufSize).take maxMessageSize

theorem bufReaderRead_segment {ε : Type} (segment : Bytes) (rest : List (Except ε Bytes))
    (w : Bytes) :
    (bufReaderRead maxMessageSize ⟨.ok segment :: rest, w⟩).1 = .ok (received segment) := rfl

namespace Conversation

/-- Where the client is in `handle_connection`. -/
inductive Client
  | parked
  -- at the `write`, at the `read`
  | writing
  | reading
  -- `assert_eq!` has failed
  | panicked (actualOffset : Nat)
  deriving DecidableEq

/-- The client, and its handler in the server. -/
structure State where
  client : Client
  /-- the replies that have passed the assertion -/
  replies : List Bytes
  /-- on the way to the server, and to the client -/
  up : Bytes
  down : Bytes
  /-- what the server has read and not written yet -/
  held : Option Bytes
  cut : Bool

inductive Action
  | unpark
  | clientWrite
  | clientRead (k : Nat)
  | serverRead (k : Nat)
  | serverWrite

/-- A read of `k` bytes of a queue is possible. -/
def Readable (k : Nat) (queue : Bytes) : Prop := 1 ≤ k ∧ k ≤ queue.length ∧ k ≤ bufSize

instance (k : Nat) (queue : Bytes) : Decidable (Readable k queue) :=
  inferInstanceAs (Decidable (_ ∧ _ ∧ _))

/-- The assertion on the length of the reply. -/
def assertEq (expected : Bytes) (reply : Bytes) (s : State) : State :=
  if expected.length = reply.length then
    { s with client := .writing, replies := s.replies ++ [reply] }
  else { s with client := .panicked reply.length }

/-- What it does, or `none` where it cannot happen. -/
def act (message : Bytes) : Action → State → Option State
  | .unpark, s => if s.client = .parked then some { s with client := .writing } else none
  | .clientWrite, s =>
    if s.client = .writing then some { s with client := .reading, up := s.up ++ message } else none
  | .clientRead k, s =>
    if s.client = .reading ∧ Readable k s.down then
      some (assertEq message (received (s.down.take k))
        { s with down := s.down.drop k, cut := s.cut || decide (k < s.down.length) })
    else none
  | .serverRead k, s =>
    if s.held = none ∧ Readable k s.up then
      some { s with
        held := some (received (s.up.take k)), up := s.up.drop k
        cut := s.cut || decide (k < s.up.length) }
    else none
  | .serverWrite, s => s.held.map fun bytes => { s with held := none, down := s.down ++ bytes }

/-- The connection has been accepted, and nobody has done anything. -/
def start : State := ⟨.parked, [], [], [], none, false⟩

end Conversation

/-- `TcpClient::handle_connection(thread_id, stream)` and the `TcpServer::handle_connection` of the
other end. -/
def conversation (threadId : Nat) : System Conversation.State :=
  .ofActions (fun s => s = Conversation.start) (Conversation.act (payload threadId))

namespace Conversation

variable {message : Bytes} {s t : State}

/-- What is between the client and the server, in order. -/
def State.between (s : State) : Bytes := s.down ++ s.held.getD [] ++ s.up

/-- The message is in one piece. -/
def State.Whole (message : Bytes) (s : State) : Prop :=
  (s.down = [] ∧ s.held = none ∧ s.up = message) ∨
  (s.down = [] ∧ s.held = some message ∧ s.up = []) ∨
    (s.down = message ∧ s.held = none ∧ s.up = [])

/-- What is between the two, by what the client does. -/
def Flight (message : Bytes) (s : State) : Prop :=
  match s.client with
  | .parked | .writing => s.up = [] ∧ s.down = [] ∧ s.held = none
  | .reading => s.between = message ∧ s.held ≠ some [] ∧ (s.cut = false → s.Whole message)
  | .panicked actualOffset => s.cut = true ∧ 1 ≤ actualOffset ∧ actualOffset < message.length

/-- What holds between any two steps. -/
structure Inv (message : Bytes) (s : State) : Prop where
  replies : ∀ reply ∈ s.replies, reply = message
  flight : Flight message s

/-- A segment that fits in the buffer is received whole. -/
theorem received_of_le {segment : Bytes} (h : segment.length ≤ maxMessageSize) :
    received segment = segment := by
  unfold received
  rw [List.take_of_length_le (Nat.le_trans h (by decide)), List.take_of_length_le h]

section Step

variable (hlength : message.length ≤ maxMessageSize)
include hlength

/-- The client has a reply: all of the message, or a piece that makes it panic. -/
theorem clientRead_inv {k : Nat} (h : Inv message s) (hclient : s.client = .reading)
    (hk : Readable k s.down) :
    Inv message (assertEq message (received (s.down.take k))
      { s with down := s.down.drop k, cut := s.cut || decide (k < s.down.length) }) := by
  obtain ⟨hreplies, hflight⟩ := h
  simp only [Flight, hclient] at hflight
  obtain ⟨hbetween, hheld, hwhole⟩ := hflight
  obtain ⟨hk1, hkle, -⟩ := hk
  have hparts : s.down.length + ((s.held.getD []).length + s.up.length) = message.length := by
    rw [← hbetween, State.between, List.length_append, List.length_append, Nat.add_assoc]
  have hlen : (s.down.take k).length = k := List.length_take_of_le hkle
  rw [received_of_le (by omega)]
  unfold assertEq
  split
  next heq =>
    -- all of the message is in the queue
    rw [hlen] at heq
    have hup : s.up = [] := List.eq_nil_of_length_eq_zero (by omega)
    have hgetD : s.held.getD [] = [] := List.eq_nil_of_length_eq_zero (by omega)
    have hdown : s.down = message := by
      rw [State.between, hup, hgetD, List.append_nil, List.append_nil] at hbetween
      exact hbetween
    have hnone : s.held = none := by
      cases hh : s.held with
      | none => rfl
      | some bytes =>
        rw [hh] at hgetD hheld
        exact absurd (congrArg some hgetD) hheld
    refine ⟨fun reply hreply => ?_, hup, List.drop_of_length_le (by omega), hnone⟩
    rcases List.mem_append.mp hreply with hreply | hreply
    · exact hreplies reply hreply
    · rw [List.mem_singleton.mp hreply, ← hdown]
      exact List.take_of_length_le (by omega)
  next hne =>
    rw [hlen] at hne
    refine ⟨hreplies, ?_⟩
    show (s.cut || decide (k < s.down.length)) = true ∧ _
    refine ⟨?_, by omega, by omega⟩
    -- a reply in one piece would have passed
    by_contra hcut
    obtain ⟨hcut, hall⟩ : s.cut = false ∧ s.down.length ≤ k := by simpa using hcut
    rcases hwhole hcut with ⟨hdown, -, -⟩ | ⟨hdown, -, -⟩ | ⟨hdown, -, -⟩
    · rw [hdown] at hkle
      exact absurd (Nat.le_trans hk1 hkle) (by decide)
    · rw [hdown] at hkle
      exact absurd (Nat.le_trans hk1 hkle) (by decide)
    · rw [hdown] at hkle hall
      omega

/-- The server takes a piece of what comes up. -/
theorem serverRead_inv {k : Nat} (h : Inv message s) (hheld : s.held = none)
    (hk : Readable k s.up) :
    Inv message { s with
      held := some (received (s.up.take k)), up := s.up.drop k
      cut := s.cut || decide (k < s.up.length) } := by
  obtain ⟨hreplies, hflight⟩ := h
  obtain ⟨hk1, hkle, -⟩ := hk
  refine ⟨hreplies, ?_⟩
  have hne : s.up ≠ [] := List.ne_nil_of_length_pos (Nat.lt_of_lt_of_le hk1 hkle)
  unfold Flight at hflight ⊢
  dsimp only at hflight ⊢
  cases hclient : s.client with
  | parked =>
    rw [hclient] at hflight
    exact absurd hflight.1 hne
  | writing =>
    rw [hclient] at hflight
    exact absurd hflight.1 hne
  | panicked actualOffset =>
    rw [hclient] at hflight
    obtain ⟨hcut, hoffset⟩ := hflight
    exact ⟨by rw [hcut]; rfl, hoffset⟩
  | reading =>
    rw [hclient] at hflight
    obtain ⟨hbetween, -, hwhole⟩ := hflight
    unfold State.between at hbetween
    rw [hheld, Option.getD_none, List.append_nil] at hbetween
    have hle : s.up.length ≤ message.length := by
      rw [← hbetween, List.length_append]
      omega
    have hreceived : received (s.up.take k) = s.up.take k :=
      received_of_le (by rw [List.length_take_of_le hkle]; omega)
    refine ⟨?_, ?_, fun hcut => ?_⟩
    · show s.down ++ received (s.up.take k) ++ s.up.drop k = message
      rw [hreceived, List.append_assoc, List.take_append_drop]
      exact hbetween
    · show some (received (s.up.take k)) ≠ some []
      rw [hreceived]
      intro hnil
      have := congrArg List.length (Option.some.inj hnil)
      rw [List.length_take_of_le hkle] at this
      exact absurd this (by simp; omega)
    · obtain ⟨hcut, hall⟩ : s.cut = false ∧ s.up.length ≤ k := by simpa using hcut
      right; left
      rcases hwhole hcut with ⟨hdown, -, hup⟩ | ⟨-, hsome, -⟩ | ⟨-, -, hup⟩
      · refine ⟨hdown, ?_, List.drop_of_length_le hall⟩
        show some (received (s.up.take k)) = some message
        rw [hreceived, List.take_of_length_le hall, hup]
      · rw [hheld] at hsome
        cases hsome
      · exact absurd hup hne

omit hlength in
/-- The server writes back what it has read. -/
theorem serverWrite_inv {bytes : Bytes} (h : Inv message s) (hheld : s.held = some bytes) :
    Inv message { s with held := none, down := s.down ++ bytes } := by
  obtain ⟨hreplies, hflight⟩ := h
  refine ⟨hreplies, ?_⟩
  unfold Flight at hflight ⊢
  dsimp only at hflight ⊢
  cases hclient : s.client with
  | parked =>
    rw [hclient, hheld] at hflight
    cases hflight.2.2
  | writing =>
    rw [hclient, hheld] at hflight
    cases hflight.2.2
  | panicked actualOffset =>
    rw [hclient] at hflight
    exact hflight
  | reading =>
    rw [hclient] at hflight
    obtain ⟨hbetween, -, hwhole⟩ := hflight
    unfold State.between at hbetween
    rw [hheld] at hbetween
    refine ⟨?_, fun hnone => (nomatch hnone), fun hcut => ?_⟩
    · show (s.down ++ bytes) ++ [] ++ s.up = message
      rw [List.append_nil]
      exact hbetween
    · right; right
      rcases hwhole hcut with ⟨-, hnone, -⟩ | ⟨hdown, hsome, hup⟩ | ⟨-, hnone, -⟩
      · rw [hheld] at hnone
        cases hnone
      · obtain rfl := Option.some.inj (hheld.symm.trans hsome)
        exact ⟨by rw [hdown]; rfl, rfl, hup⟩
      · rw [hheld] at hnone
        cases hnone

/-- **Every step keeps the invariant.** -/
theorem act_inv {a : Action} (h : Inv message s) (hact : act message a s = some t) :
    Inv message t := by
  cases a with
  | unpark =>
    simp only [act] at hact
    split at hact
    next hclient =>
      obtain rfl := Option.some.inj hact
      obtain ⟨hreplies, hflight⟩ := h
      simp only [Flight, hclient] at hflight
      exact ⟨hreplies, hflight⟩
    next => cases hact
  | clientWrite =>
    simp only [act] at hact
    split at hact
    next hclient =>
      obtain rfl := Option.some.inj hact
      obtain ⟨hreplies, hflight⟩ := h
      simp only [Flight, hclient] at hflight
      obtain ⟨hup, hdown, hheld⟩ := hflight
      refine ⟨hreplies, ?_, ?_, fun _ => Or.inl ⟨hdown, hheld, ?_⟩⟩
      · show s.down ++ s.held.getD [] ++ (s.up ++ message) = message
        rw [hup, hdown, hheld]
        rfl
      · show s.held ≠ some []
        rw [hheld]
        exact fun hnone => nomatch hnone
      · show s.up ++ message = message
        rw [hup]
        rfl
    next => cases hact
  | clientRead k =>
    simp only [act] at hact
    split at hact
    next hread =>
      obtain rfl := Option.some.inj hact
      exact clientRead_inv hlength h hread.1 hread.2
    next => cases hact
  | serverRead k =>
    simp only [act] at hact
    split at hact
    next hread =>
      obtain rfl := Option.some.inj hact
      exact serverRead_inv hlength h hread.1 hread.2
    next => cases hact
  | serverWrite =>
    obtain ⟨bytes, hheld, rfl⟩ := Option.map_eq_some_iff.mp hact
    exact serverWrite_inv h hheld

/-- Somebody can go on while the client waits for its reply. -/
theorem goes_on (hpos : 0 < message.length) (h : Inv message s) (hclient : s.client = .reading) :
    ∃ a t, act message a s = some t := by
  have hflight := h.flight
  simp only [Flight, hclient] at hflight
  obtain ⟨hbetween, -, -⟩ := hflight
  have hparts : s.down.length + ((s.held.getD []).length + s.up.length) = message.length := by
    rw [← hbetween, State.between, List.length_append, List.length_append, Nat.add_assoc]
  have hsize : maxMessageSize ≤ bufSize := by decide
  cases hheld : s.held with
  | some bytes => exact ⟨.serverWrite, _, Option.map_eq_some_iff.mpr ⟨bytes, hheld, rfl⟩⟩
  | none =>
    rw [hheld] at hparts
    have hsum : s.down.length + (0 + s.up.length) = message.length := hparts
    by_cases hdown : s.down.length = 0
    · exact ⟨.serverRead s.up.length, _, if_pos ⟨hheld, by omega, Nat.le_refl _, by omega⟩⟩
    · exact ⟨.clientRead s.down.length, _, if_pos ⟨hclient, by omega, Nat.le_refl _, by omega⟩⟩

end Step

end Conversation

open Conversation

/-- Each payload has eight bytes. -/
theorem payload_length : ∀ {threadId : Nat}, threadId < numClients →
    (payload threadId).length = 8 := by
  unfold numClients
  decide

/-- **Client and server in lock step.** Every reply that has passed the assertion is the payload;
while the client waits, what is between the two is the payload and one of them can go on; and the
client panics only after a read that has left bytes behind, on a reply that is shorter than the
payload. -/
theorem client_lockstep (threadId : Nat) (h : threadId < numClients) (s : Conversation.State)
    (hs : (conversation threadId).Reachable s) :
    (∀ reply ∈ s.replies, reply = payload threadId) ∧
      (s.client = .writing → s.between = []) ∧
      (s.client = .reading → s.between = payload threadId ∧
        ∃ a t, act (payload threadId) a s = some t) ∧
      ∀ actualOffset, s.client = .panicked actualOffset →
        s.cut = true ∧ 1 ≤ actualOffset ∧ actualOffset < (payload threadId).length := by
  have hlength : (payload threadId).length ≤ maxMessageSize := by
    rw [payload_length h]
    decide
  have hpos : 0 < (payload threadId).length := by
    rw [payload_length h]
    decide
  have hinv : Inv (payload threadId) s := by
    refine hs.invariant ?_ ?_
    · rintro s rfl
      exact ⟨fun reply hreply => (nomatch hreply), rfl, rfl, rfl⟩
    · rintro s t - hs ⟨a, hact⟩
      exact act_inv hlength hs hact
  have hflight := hinv.flight
  unfold Flight at hflight
  refine ⟨hinv.replies, fun hclient => ?_, fun hclient => ?_, fun actualOffset hclient => ?_⟩
  · rw [hclient] at hflight
    obtain ⟨hup, hdown, hheld⟩ := hflight
    rw [State.between, hup, hdown, hheld]
    rfl
  · rw [hclient] at hflight
    exact ⟨hflight.1, goes_on hlength hpos hinv hclient⟩
  · rw [hclient] at hflight
    exact hflight

/-- The server has read three bytes of `thread/7`, and the client has met their echo. -/
theorem client_lockstep_cut :
    ∃ s, (conversation 7).Reachable s ∧ s.client = .panicked 3 ∧ s.cut = true ∧ 1 ≤ 3 ∧
      3 < (payload 7).length := by
  have hrun : (System.runActions (act (payload 7)) [.unpark, .clientWrite, .serverRead 3,
    .serverWrite, .clientRead 3]
      start).map State.client = some (.panicked 3) := by decide
  obtain ⟨s, hs, hclient⟩ := Option.map_eq_some_iff.mp hrun
  have hreach : (conversation 7).Reachable s :=
    System.reachable_of_runActions (.start (Eq.refl _)) hs
  exact ⟨s, hreach, hclient, (client_lockstep 7 (by decide) s hreach).2.2.2 3 hclient⟩

end ShouldIAsync.SyncServer
