import ShouldIAsync.JavaStd.ByteBuffer

/-!
# The round trip loop of the Java echo

`Client.roundTripLoop` and `Server.handle` share `Common.roundTripLoop`: write the bytes,
read the same bytes, record, again. What a message is follows from single calls of
`SocketChannel.read`: the server takes what its first read gives it as the bytes of the
whole conversation, and every later read must give exactly as many.

A `Party` is a thread in one of the two methods. The channel is the caller's: what a read
gives is an argument (`none` for -1), what a write sends is returned. A channel in blocking
mode writes all it is given, or throws when its other end is closed; nothing it gives or
takes is lost. The sleep between two iterations takes no time here.
-/

namespace ShouldIAsync.JavaEcho

open ShouldIAsync.JavaStd

/-! ## `Common.java` -/

/-- The calls of `Preconditions.checkState`. -/
inductive Check
  | iterations
  | readLength
  | readBytes
  | writeLength
  | writeRemaining
  | eof
  deriving DecidableEq, Repr

/-- Its text. -/
def Check.message : Check → String
  | .iterations => "EOF with iterations stop condition"
  | .readLength => "Common::read: incorrect array length"
  | .readBytes => "Common::read: incorrect bytes read"
  | .writeLength => "Common::write: incorrect array length"
  | .writeRemaining => "Common::write: buffer still has bytes remaining after write"
  | .eof => "Server::handle: server should have received EOF"

/-- What a conversation can throw. -/
inductive Thrown
  | illegalState (check : Check)
  | bufferOverflow
  | io
  deriving DecidableEq, Repr

/-- `StopConditions`; of the future it matters whether it is done. -/
structure StopConditions where
  iterations : Option Nat
  stop : Option Bool

def StopConditions.stopOnIterations (iterations : Nat) : StopConditions := ⟨some iterations, none⟩

/-- `StopOnFuture`, of a future nobody completes. -/
def StopConditions.neverStops : StopConditions := ⟨none, some false⟩

/-- `read`, of the bytes the channel gives. -/
def read (buf : ByteBuffer) (expectedBytes incoming : Option Bytes) :
    ByteBuffer × Except Thrown Bool :=
  match incoming with
  | none => (buf.clear, .ok true)
  | some bytes =>
    let buf := buf.clear.fill bytes
    match expectedBytes with
    | none => (buf, .ok false)
    | some expected =>
      if buf.position ≠ expected.length then (buf, .error (.illegalState .readLength))
      else if expected ≠ buf.array.take expected.length then
        (buf, .error (.illegalState .readBytes))
      else (buf, .ok false)

/-- `write`, to a channel whose other end is closed or not. -/
def write (buf : ByteBuffer) (bytes : Bytes) (peerClosed : Bool) :
    ByteBuffer × Except Thrown Bytes :=
  match buf.clear.put bytes with
  | none => (buf.clear, .error .bufferOverflow)
  | some buf =>
    let buf := buf.flip
    let written := buf.content
    if written ≠ [] ∧ peerClosed then (buf, .error .io)
    else if written.length ≠ bytes.length then (buf.drain, .error (.illegalState .writeLength))
    else if buf.drain.hasRemaining then (buf.drain, .error (.illegalState .writeRemaining))
    else (buf.drain, .ok written)

variable {buf : ByteBuffer} {bytes : Bytes}

@[simp] theorem capacity_read (expected incoming : Option Bytes) :
    (read buf expected incoming).1.capacity = buf.capacity := by
  unfold read
  split
  · exact ByteBuffer.capacity_clear
  · split
    · simp
    · simp only
      split_ifs <;> simp

@[simp] theorem capacity_write (peerClosed : Bool) :
    (write buf bytes peerClosed).1.capacity = buf.capacity := by
  unfold write ByteBuffer.put
  split_ifs with h
  · simp only
    split_ifs <;> simp
  · exact ByteBuffer.capacity_clear

/-- What a read of one chunk comes to. -/
def checkRead (expected bytes : Bytes) : Except Thrown Bool :=
  if bytes.length ≠ expected.length then .error (.illegalState .readLength)
  else if expected ≠ bytes then .error (.illegalState .readBytes)
  else .ok false

/-- Where the buffer is big enough, `read` looks at the bytes it was given. -/
theorem read_some (h : bytes.length ≤ buf.capacity) (expected : Bytes) :
    (read buf (some expected) (some bytes)).2 = checkRead expected bytes := by
  obtain ⟨hpos, hfilled⟩ := ByteBuffer.fill_clear h
  unfold read checkRead
  simp only [hpos]
  by_cases hlen : bytes.length = expected.length
  · have htake : (buf.clear.fill bytes).array.take expected.length = bytes := by
      rw [← hlen, ← hpos]
      exact hfilled
    rw [htake, if_neg (not_not_intro hlen), if_neg (not_not_intro hlen)]
    split_ifs <;> rfl
  · rw [if_pos hlen, if_pos hlen]

/-- The bytes that were expected pass the check. -/
@[simp] theorem checkRead_self : checkRead bytes bytes = .ok false := by
  simp [checkRead]

/-- Any other bytes than the expected ones fail a check. -/
theorem checkRead_ne {expected : Bytes} (h : bytes ≠ expected) :
    ∃ check, checkRead expected bytes = .error (.illegalState check) := by
  unfold checkRead
  by_cases hlen : bytes.length ≠ expected.length
  · exact ⟨.readLength, if_pos hlen⟩
  · exact ⟨.readBytes, by rw [if_neg hlen, if_pos h.symm]⟩

/-- At the end of the stream a read gives EOF. -/
theorem read_none (expected : Option Bytes) : read buf expected none = (buf.clear, .ok true) :=
  Eq.refl _

/-- Where the buffer is big enough, all is written. -/
theorem write_eq (h : bytes.length ≤ buf.capacity) (peerClosed : Bool) :
    (write buf bytes peerClosed).2 =
      if bytes ≠ [] ∧ peerClosed then .error .io else .ok bytes := by
  have hcontent : (buf.clear.store bytes h).flip.content = bytes :=
    ByteBuffer.content_flip_store h
  unfold write
  rw [ByteBuffer.put_clear h]
  simp only [hcontent, ByteBuffer.hasRemaining_drain]
  by_cases hio : bytes ≠ [] ∧ peerClosed
  · rw [if_pos hio, if_pos hio]
  · rw [if_neg hio, if_neg hio, if_neg (not_not_intro (Eq.refl _)), if_neg Bool.false_ne_true]

/-! ## A party -/

inductive Pc
  -- in the first read of `Server.handle`
  | firstRead
  -- at the stop conditions of iteration `i`
  | head (i : Nat)
  -- in the `read` of iteration `i`
  | reading (i : Nat)
  | returned (isEOF : Bool)
  | threw (e : Thrown)
  deriving DecidableEq

/-- The capacity both classes allocate. -/
def capacity : Nat := 100

/-- A client in its round trips, or a handler in `handle`. -/
structure Party where
  pc : Pc
  bytes : Bytes
  /-- the count of its connection metrics -/
  count : Nat
  buf : ByteBuffer
  capacity_eq : buf.capacity = capacity

/-- The two ends of a connection. -/
inductive Side
  | client
  | server
  deriving DecidableEq

/-- How the method of a side ends, once its loop has returned. -/
def Side.finish (side : Side) (isEOF : Bool) : Pc :=
  match side with
  | .client => .returned isEOF
  | .server => if isEOF then .returned true else .threw (.illegalState .eof)

/-- The thread has left its method, and so closed its channel. -/
def Party.ended (p : Party) : Bool :=
  match p.pc with
  | .returned _ | .threw _ => true
  | _ => false

/-- `Client.roundTripLoop`, of a client with this name. -/
def Party.client (name : Bytes) : Party where
  pc := .head 0
  bytes := name
  count := 0
  buf := .allocate capacity
  capacity_eq := ByteBuffer.capacity_allocate _

/-- `Server.handle` -/
def Party.server : Party where
  pc := .firstRead
  bytes := []
  count := 0
  buf := .allocate capacity
  capacity_eq := ByteBuffer.capacity_allocate _

/-- The stop conditions at the top of iteration `i`. -/
def StopConditions.stopsAt (stopConditions : StopConditions) (i : Nat) : Bool :=
  (stopConditions.iterations.map fun iters => decide (iters ≤ i)).getD false ||
    stopConditions.stop.getD false

/-- From the top of an iteration to its read, or to the end of the loop. -/
def Party.advance (side : Side) (stopConditions : StopConditions) (peerClosed : Bool) (p : Party) :
    Option (Party × Bytes) :=
  match p.pc with
  | .head i =>
    if stopConditions.stopsAt i then some ({ p with pc := side.finish false }, [])
    else
      let p' := { p with
        buf := (write p.buf p.bytes peerClosed).1
        capacity_eq := (capacity_write peerClosed).trans p.capacity_eq }
      match (write p.buf p.bytes peerClosed).2 with
      | .ok written => some ({ p' with pc := .reading i }, written)
      | .error e => some ({ p' with pc := .threw e }, [])
  | .firstRead | .reading _ | .returned _ | .threw _ => none

/-- The read the party is in returns. -/
def Party.read (side : Side) (stopConditions : StopConditions) (incoming : Option Bytes)
    (p : Party) :
    Option Party :=
  match p.pc with
  | .firstRead =>
    -- at the end of the stream there is nothing before the position
    let buf := (JavaEcho.read p.buf none incoming).1
    some { p with
      pc := .head 0
      bytes := buf.filled
      buf := buf
      capacity_eq := (capacity_read none incoming).trans p.capacity_eq }
  | .reading i =>
    let p' := { p with
      buf := (JavaEcho.read p.buf (some p.bytes) incoming).1
      capacity_eq := (capacity_read (some p.bytes) incoming).trans p.capacity_eq }
    match (JavaEcho.read p.buf (some p.bytes) incoming).2 with
    | .error e => some { p' with pc := .threw e }
    | .ok true =>
      if stopConditions.iterations.isSome then
        some { p' with pc := .threw (.illegalState .iterations) }
      else some { p' with pc := side.finish true }
    | .ok false => some { p' with pc := .head (i + 1), count := p.count + 1 }
  | .head _ | .returned _ | .threw _ => none

/-- What can be seen of a party: its place, its bytes and its count. -/
structure Party.Is (p : Party) (pc : Pc) (bytes : Bytes) (count : Nat) : Prop where
  pc : p.pc = pc
  bytes : p.bytes = bytes
  count : p.count = count

end ShouldIAsync.JavaEcho
