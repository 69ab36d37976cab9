import ShouldIAsync.GoStd.Bufio

/-!
# The round trip loop of the echo client and server

`runClient` and `handleConnection` both end in `runRoundTripLoop`: write, read until
newline, count, again. A `Party` is such a goroutine: its program counter and the
count of its `connMetrics`. What it does on its own is `advance`, what a `Read` on
its connection does to it is `read` and `eof`; writes go to whatever the connection
is, so these return the bytes written.

The loop reads through a `bufio.Reader` of its own. `handleConnection` has read the
first line before, through another one (`bufio.NewReader` of a `bufio.Reader` is that
reader); what that one had buffered is gone when the loop starts.

Connections do not fail here: a `Read` returns bytes or `io.EOF`. The errors of a
faulty connection are kept as far as `isErrorRetriable` tells them apart.
-/

namespace ShouldIAsync.Echo

open ShouldIAsync.GoStd

/-! ## Errors -/

/-- What a call on a connection fails with. -/
inductive ConnError
  | eof
  | noProgress
  | connReset
  | brokenPipe
  /-- the connection has been closed on this side, or something else -/
  | closed
  deriving DecidableEq, Repr

/-- The errors of this package, with what they wrap. -/
inductive EchoError
  /-- the context of `Sem.Acquire` is done -/
  | acquire
  | writeBytes (cause : ConnError)
  /-- "ReadBytes. readBytes: '%v': %w" -/
  | readBytes (bytes : Bytes) (cause : ConnError)
  /-- "server unexpected EOF" -/
  | serverUnexpectedEof
  /-- "unexpected EOF.  Should stop on iterations" -/
  | stopOnIterations
  /-- `firstIterationErr` -/
  | firstIteration (cause : EchoError)
  /-- `dialErr` -/
  | dial (cause : ConnError)
  /-- "exhausted %v retries: %w" -/
  | exhausted (maxRetries : Nat) (cause : Option EchoError)
  deriving Repr

/-- `errors.Is(err, cause)` -/
def EchoError.is (cause : ConnError) : EchoError → Bool
  | .readBytes _ c | .writeBytes c => c = cause
  | .acquire | .serverUnexpectedEof | .stopOnIterations => false
  | .firstIteration e => e.is cause
  | .dial c => c = cause
  | .exhausted _ e => match e with
    | none => false
    | some e => e.is cause

/-- `errors.As(err, &fiErr)` -/
def EchoError.isFirstIteration : EchoError → Bool
  | .firstIteration _ => true
  | .exhausted _ (some e) => e.isFirstIteration
  | _ => false

/-- `errors.As(err, &dErr)` -/
def EchoError.isDial : EchoError → Bool
  | .dial _ => true
  | .firstIteration e => e.isDial
  | .exhausted _ (some e) => e.isDial
  | _ => false

def isErrorRetriable (err : Option EchoError) : Bool :=
  match err with
  | none => false
  | some e =>
    (e.is .connReset && e.isFirstIteration) || (e.is .brokenPipe && e.isFirstIteration) || e.isDial

def maxRetries : Nat := 3

/-- The attempts of `runClientWithRetry` from the `i`th on, `left` of them. -/
def retryFrom (runClient : Nat → Option EchoError) : (left i : Nat) → Option EchoError →
    Option EchoError
  | 0, _, err => some (.exhausted maxRetries err)
  | left + 1, i, _ =>
    if isErrorRetriable (runClient i) then retryFrom runClient left (i + 1) (runClient i)
    else runClient i

/-- `runClientWithRetry`, given what its calls of `runClient` return. -/
def runClientWithRetry (runClient : Nat → Option EchoError) : Option EchoError :=
  retryFrom runClient maxRetries 0 none

/-! ## A party -/

/-- What is left in the buffer of a `bufio.Reader`. -/
abbrev Buffered := { buf : Bytes // buf.length ≤ defaultBufSize }

/-- Nothing is in the buffer of the reader. -/
def Buffered.empty : Buffered := ⟨[], Nat.zero_le _⟩

inductive Pc
  -- in the `readBytes` of `handleConnection`
  | firstRead (c : Collecting newline)
  -- at the stop conditions of iteration `i`, with `buf` unread in the loop's reader
  | head (i : Nat) (done : Bool) (bytes : Bytes) (buf : Buffered)
  -- in the `readBytes` of iteration `i`
  | reading (i : Nat) (c : Collecting newline)
  -- in `connectBarrier`, after the first iteration
  | barrier (done : Bool) (bytes : Bytes) (buf : Buffered)
  | returned (err : Option EchoError)

/-- A client in `runClient`, or a handler in `handleConnection`. -/
structure Party where
  pc : Pc
  /-- the count of `cm`, nil before the first iteration is through -/
  count : Option Nat

/-- `StopConditions`: the iterations (0 for no limit) and whether there is a `StopCh`. -/
structure StopConditions where
  numIterations : Nat
  stopCh : Bool

/-- The arguments of `runRoundTripLoop` that decide its course; `connectBarrier` says
whether it is a barrier or `func() {}`. -/
structure LoopArgs where
  numIterations : Nat
  connectBarrier : Bool

/-- `readBytes` after `ReadBytes` has returned `bytes` and `err`: `done`, the bytes and
the error. -/
def readBytes (bytes : Bytes) (err : Option ConnError) : Bool × Bytes × Option EchoError :=
  match err with
  | none => (false, bytes, none)
  | some e => if e = .eof ∧ bytes = [] then (true, bytes, none)
    else (true, bytes, some (.readBytes bytes e))

/-- The rest of iteration `i` after its `readBytes`. -/
def afterRead (args : LoopArgs) (i : Nat) (buf : Buffered) (p : Party) :
    Bool × Bytes × Option EchoError → Party
  | (_, _, some e) => { p with pc := .returned (some (if i = 0 then .firstIteration e else e)) }
  | (done, bytes, none) =>
    if args.numIterations ≠ 0 ∧ done then { p with pc := .returned (some .stopOnIterations) }
    else
      { pc := if i = 0 ∧ args.connectBarrier then .barrier done bytes buf
          else .head (i + 1) done bytes buf
        count := some (p.count.getD 0 + 1) }

/-- Where the `ReadBytes` of iteration `i` stands after a search of the buffer. -/
def collect (args : LoopArgs) (i : Nat) (p : Party) : Collected newline → Party
  | .more c => { p with pc := .reading i c }
  | .line tok rest h => afterRead args i ⟨rest, h⟩ p (readBytes tok none)
  | .noProgress tok => afterRead args i .empty p (readBytes tok (some .noProgress))

/-- `handleConnection` after its own `readBytes`. -/
def afterFirstRead (p : Party) : Bool × Bytes × Option EchoError → Party
  | (_, _, some e) => { p with pc := .returned (some e) }
  | (true, _, none) => { p with pc := .returned (some .serverUnexpectedEof) }
  -- `runRoundTripLoop` starts, with a new reader
  | (false, bytes, none) => { p with pc := .head 0 false bytes .empty }

/-- What the first read makes of what has arrived. -/
def collectFirst (p : Party) : Collected newline → Party
  | .more c => { p with pc := .firstRead c }
  | .line tok _ _ => afterFirstRead p (readBytes tok none)
  | .noProgress tok => afterFirstRead p (readBytes tok (some .noProgress))

/-- What the party does next without its connection, and what it writes. `stopCh` says
whether its `StopCh` is closed, `pass` whether its `connectBarrier` lets it through. -/
def Party.advance (args : LoopArgs) (stopCh pass : Bool) (p : Party) : Option (Bytes × Party) :=
  match p.pc with
  | .head i done bytes buf =>
    if done then some ([], { p with pc := .returned none })
    else if args.numIterations ≠ 0 ∧ args.numIterations ≤ i then
      some ([], { p with pc := .returned none })
    else if stopCh then some ([], { p with pc := .returned none })
    -- `writeBytes`, and `readBytes` as far as the buffer goes
    else some (bytes, collect args i p (Collecting.resume newline buf.1 buf.2))
  | .barrier done bytes buf =>
    if pass then some ([], { p with pc := .head 1 done bytes buf }) else none
  | .firstRead _ | .reading _ _ | .returned _ => none

/-- A `Read` returns the first `k` of the bytes in `queue`, or as many as there is room
for: what becomes of the call, and what is left of the queue. -/
def readQueue (c : Collecting newline) (queue : Bytes) (k : Nat) : Collected newline × Bytes :=
  (c.absorb (queue.take (min k c.room))
    (Nat.le_trans (List.length_take_le ..) (Nat.min_le_right ..)), queue.drop (min k c.room))

/-- A `Read` of the party returns up to `k` bytes, of which there must be one. -/
def Party.read (args : LoopArgs) (queue : Bytes) (k : Nat) (p : Party) : Option (Party × Bytes) :=
  if queue = [] ∨ k = 0 then none
  else
    match p.pc with
    | .firstRead c => some (collectFirst p (readQueue c queue k).1, (readQueue c queue k).2)
    | .reading i c => some (collect args i p (readQueue c queue k).1, (readQueue c queue k).2)
    | .head .. | .barrier .. | .returned _ => none

/-- A `Read` returns `io.EOF`. -/
def Party.eof (args : LoopArgs) (p : Party) : Option Party :=
  match p.pc with
  | .firstRead c => some (afterFirstRead p (readBytes c.seen (some .eof)))
  | .reading i c => some (afterRead args i .empty p (readBytes c.seen (some .eof)))
  | .head .. | .barrier .. | .returned _ => none

/-- The party has returned. -/
def Party.isReturned (p : Party) : Bool :=
  match p.pc with
  | .returned _ => true
  | _ => false

/-- The party has called `Done` on the wait group: on its way into the barrier, or
deferred when it returned without. -/
def Party.arrived (p : Party) : Bool := p.count.isSome || p.isReturned

/-- The start of `handleConnection`. -/
def Party.handler : Party := ⟨.firstRead (.start newline), none⟩

/-- The start of `runClient`, once it has dialled. -/
def Party.client (message : Bytes) : Party := ⟨.head 0 false message .empty, none⟩

end ShouldIAsync.Echo
