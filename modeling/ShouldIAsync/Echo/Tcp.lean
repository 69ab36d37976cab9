import ShouldIAsync.Echo.RoundTrip
import ShouldIAsync.Lib.System
import Mathlib.Data.Fintype.Basic

/-!
# Clients and handlers over their connections

`n` clients and the `n` handlers of their connections, each pair joined by two
`Stream`s: FIFO, reliable, and closed by the party that writes to it when it returns.
A `Read` may return any number of the bytes queued, and `io.EOF` once the stream is
closed and empty. All clients meet once, in the wait group of `RunClients`; a `StopCh`
that exists may be closed at any time (`Action.close`).

The context never finishes here. It would when a client or a handler returned an error;
what is proved of the connections up to then does not depend on it.
-/

namespace ShouldIAsync.Echo

open ShouldIAsync.GoStd ShouldIAsync.Lib

/-- One direction of a connection. -/
structure Stream where
  queue : Bytes := []
  closed : Bool := false

/-- The bytes are on their way. -/
def Stream.write (s : Stream) (bytes : Bytes) : Stream := { s with queue := s.queue ++ bytes }

/-- The deferred `conn.Close()` of the party that writes to the stream. -/
def Stream.closeAfter (s : Stream) (p : Party) : Stream :=
  { s with closed := s.closed || p.isReturned }

/-- A client, the handler of its connection, and what is on the way between them. -/
structure Link where
  client : Party
  handler : Party
  up : Stream
  down : Stream

/-- The stop conditions of the clients and of the server. -/
structure Config where
  client : StopConditions
  server : StopConditions

/-- The two ends of a connection. -/
inductive Side
  | client
  | server
  deriving DecidableEq

/-- What a party can do next. -/
inductive Act
  | advance
  | read (k : Nat)
  | eof
  deriving DecidableEq

/-- A party acts on the stream it reads from and the one it writes to. -/
def partyAct (args : LoopArgs) (stopCh pass : Bool) (a : Act) (p : Party) (inp out : Stream) :
    Option (Party × Stream × Stream) :=
  match a with
  | .advance => (p.advance args stopCh pass).map fun (w, p') =>
    (p', inp, (out.write w).closeAfter p')
  | .read k =>
    (p.read args inp.queue k).map fun (p', queue) =>
      (p', { inp with queue := queue }, out.closeAfter p')
  | .eof =>
    if inp.queue = [] ∧ inp.closed then (p.eof args).map fun p' => (p', inp, out.closeAfter p')
    else none

/-- What a connection sees of the rest: which `StopCh` are closed, and whether the
wait group lets the clients pass. -/
structure Env where
  clientStop : Bool
  serverStop : Bool
  pass : Bool

/-- What one end of a connection does. -/
def Link.act (cfg : Config) (env : Env) (side : Side) (a : Act) (l : Link) : Option Link :=
  match side with
  | .client =>
    (partyAct ⟨cfg.client.numIterations, true⟩ env.clientStop env.pass a l.client l.down l.up).map
      fun (p, inp, out) => { l with client := p, down := inp, up := out }
  | .server =>
    (partyAct ⟨cfg.server.numIterations, false⟩ env.serverStop true a l.handler l.up l.down).map
      fun (p, inp, out) => { l with handler := p, up := inp, down := out }

/-- The connections, and what has been stopped. -/
structure State (n : Nat) where
  links : Fin n → Link
  -- the `StopCh` that are closed
  clientStop : Bool
  serverStop : Bool

/-- The wait group has come to zero when every client has called `Done`. -/
def State.env {n : Nat} (s : State n) : Env where
  clientStop := s.clientStop
  serverStop := s.serverStop
  pass := decide (∀ c, (s.links c).client.arrived)

inductive Action (n : Nat)
  | party (c : Fin n) (side : Side) (a : Act)
  | close (side : Side)

/-- What it does, or `none` where it cannot happen. -/
def act (cfg : Config) {n : Nat} : Action n → State n → Option (State n)
  | .party c side a, s =>
    ((s.links c).act cfg s.env side a).map fun l => { s with links := Function.update s.links c l }
  | .close .client, s =>
    if cfg.client.stopCh ∧ s.clientStop = false then some { s with clientStop := true } else none
  | .close .server, s =>
    if cfg.server.stopCh ∧ s.serverStop = false then some { s with serverStop := true } else none

/-- The decimal digits of `i`, as text. -/
def decimal (i : Nat) : Bytes :=
  if i < 10 then [UInt8.ofNat (48 + i)] else decimal (i / 10) ++ [UInt8.ofNat (48 + i % 10)]

/-- `fmt.Sprintf("client%v\n", i)` -/
def clientMessage (i : Nat) : Bytes := [99, 108, 105, 101, 110, 116] ++ decimal i ++ [newline]

/-- All clients have dialled. -/
def start (n : Nat) : State n where
  links c := { client := .client (clientMessage c), handler := .handler, up := {}, down := {} }
  clientStop := false
  serverStop := false

/-- The runs of `n` clients against the server. -/
def echo (cfg : Config) (n : Nat) : System (State n) := System.ofActions (· = start n) (act cfg)

/-! ## Messages -/

/-- One line, with its newline. -/
def IsMessage (m : Bytes) : Prop := ∃ body, m = body ++ [newline] ∧ newline ∉ body

/-- A number has no newline. -/
theorem newline_not_mem_decimal (i : Nat) : newline ∉ decimal i := by
  have hdigit : ∀ d, d < 10 → newline ≠ UInt8.ofNat (48 + d) := by decide
  induction i using Nat.strong_induction_on with
  | _ i ih =>
    unfold decimal
    split
    next hi =>
      rw [List.mem_singleton]
      exact hdigit i hi
    next hi =>
      rw [List.mem_append, List.mem_singleton, not_or]
      exact ⟨ih (i / 10) (by omega), hdigit (i % 10) (by omega)⟩

/-- The message of a client is one line. -/
theorem isMessage_clientMessage (i : Nat) : IsMessage (clientMessage i) := by
  refine ⟨[99, 108, 105, 101, 110, 116] ++ decimal i, rfl, ?_⟩
  rw [List.mem_append, not_or]
  exact ⟨by decide, newline_not_mem_decimal i⟩

/-- A `Read` while one message is on its way: some of it is still missing, or it is
complete and nothing else has come with it. -/
theorem readQueue_message {m queue : Bytes} {c : Collecting newline} {k : Nat} (hm : IsMessage m)
    (h : c.seen ++ queue = m) (hq : queue ≠ []) (hk : k ≠ 0) :
    (∃ c' rest, readQueue c queue k = (.more c', rest) ∧ c'.seen ++ rest = m ∧
      rest.length < queue.length) ∨
    ∃ hr, readQueue c queue k = (.line m [] hr, []) := by
  obtain ⟨body, rfl, hbody⟩ := hm
  have hroom := c.room_pos
  have hpos := List.length_pos_iff.mpr hq
  have hne : queue.take (min k c.room) ≠ [] := by
    rw [ne_eq, List.take_eq_nil_iff, not_or]
    exact ⟨by omega, hq⟩
  unfold readQueue
  generalize hd : c.absorb (queue.take (min k c.room)) _ = r
  cases r with
  | more c' =>
    refine Or.inl ⟨c', _, rfl, ?_, ?_⟩
    · rw [Collecting.absorb_more hd, List.append_assoc, List.take_append_drop, h]
    · rw [List.length_drop]
      omega
  | line tok rest hr =>
    -- the line is the message, and what follows it in the stream is empty
    obtain ⟨hsplit, pre, rfl, hpre, -⟩ := Collecting.absorb_line hd
    have hall : pre ++ newline :: (rest ++ queue.drop (min k c.room)) = body ++ newline :: [] := by
      have hcat := congrArg (· ++ queue.drop (min k c.room)) hsplit
      simp only [List.append_assoc, List.take_append_drop] at hcat
      rw [h] at hcat
      simpa using hcat
    obtain ⟨rfl, hnil⟩ := first_unique hpre hbody hall
    obtain ⟨rfl, hdrop⟩ := List.append_eq_nil_iff.mp hnil
    exact Or.inr ⟨hr, by rw [hdrop]⟩
  | noProgress tok => exact absurd hd (Collecting.absorb_ne_noProgress hne)

end ShouldIAsync.Echo
