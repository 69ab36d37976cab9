import Mathlib.Algebra.GroupWithZero.Nat
import Mathlib.Data.List.Basic

/-!
# `TcpServer::handle_connection`

The loop makes a `BufReader` and a `BufWriter` in each iteration. The reader fills its buffer of
8 KiB from the socket and hands out 128 bytes at most; what else it has read is dropped with it.
So the server echoes a stream exactly if none of its segments is longer than that
(`handleConnection_echoes_iff`).

The end of the stream is a read of no bytes and no error. The only way out of the loop is an
error of the read (`returns_iff_error`), so it turns for ever once the client has gone.

A read of the socket gives what the next segment has, as much as was asked for, and after the
last one the end of the stream.
-/

namespace ShouldIAsync.SyncServer

/-- What is sent over a connection. -/
abbrev Bytes := List UInt8

def maxMessageSize : Nat := 128

/-- The size of the buffer of a `BufReader`. -/
def bufSize : Nat := 8 * 1024

variable {ε : Type}

/-- A stream: what its reads are going to give, and what has been written. -/
structure TcpStream (ε : Type) where
  incoming : List (Except ε Bytes)
  written : Bytes

/-- `read` into a buffer of `n` bytes -/
def TcpStream.read (n : Nat) (s : TcpStream ε) : Except ε Bytes × TcpStream ε :=
  match s.incoming with
  | [] => (.ok [], s)
  | .error err :: rest => (.error err, { s with incoming := rest })
  | .ok segment :: rest =>
    (.ok (segment.take n),
      { s with incoming := if segment.length ≤ n then rest else .ok (segment.drop n) :: rest })

/-- `BufReader::new(&mut stream).read(&mut buf)`, for a `buf` of `n` bytes, fewer than the reader
buffers. -/
def bufReaderRead (n : Nat) (s : TcpStream ε) : Except ε Bytes × TcpStream ε :=
  let (filled, s) := s.read bufSize
  (filled.map fun bytes => bytes.take n, s)

/-- `BufWriter::new(&mut stream).write(bytes)` and the flush of its drop, which may fail after
`flushed` bytes. -/
def bufWriterWrite (bytes : Bytes) (flushed : Option Nat) (s : TcpStream ε) : TcpStream ε :=
  match flushed with
  | none => { s with written := s.written ++ bytes }
  | some n => { s with written := s.written ++ bytes.take n }

/-- The loop goes on, or has returned with an error. -/
inductive Loop (ε : Type)
  | running (stream : TcpStream ε)
  | returned (err : ε) (stream : TcpStream ε)

/-- One iteration of `handle_connection` -/
def iteration (flushed : Option Nat) (s : TcpStream ε) : Loop ε :=
  match bufReaderRead maxMessageSize s with
  | (.error err, s) => .returned err s
  | (.ok buf, s) => .running (bufWriterWrite buf flushed s)

/-- As many iterations as there are outcomes of their flushes. -/
def handleConnection : List (Option Nat) → TcpStream ε → Loop ε
  | [], s => .running s
  | flushed :: rest, s =>
    match iteration flushed s with
    | .running s => handleConnection rest s
    | .returned err s => .returned err s

/-- A new connection, whose client sends `segments` and then closes. -/
def accepted (ε : Type) (segments : List Bytes) : TcpStream ε := ⟨segments.map .ok, []⟩

/-- No flush fails. -/
def flushes (k : Nat) : List (Option Nat) := List.replicate k none

/-- The stream is consumed, and what has been written then is the stream. -/
structure Echoes (ε : Type) (segments : List Bytes) : Prop where
  consumed : ∃ k s, handleConnection (flushes k) (accepted ε segments) = .running s ∧
    s.incoming = []
  written : ∀ k s, handleConnection (flushes k) (accepted ε segments) = .running s →
    s.incoming = [] →
    s.written = segments.flatten

/-- The loop ends, whatever becomes of the flushes. -/
def Returns (s : TcpStream ε) (flushed : Nat → Option Nat) : Prop :=
  ∃ k err t, handleConnection ((List.range k).map flushed) s = .returned err t

/-! ## One iteration -/

/-- What an iteration leaves of a segment to the next. -/
def remainder (segment : Bytes) : List Bytes :=
  if segment.length ≤ bufSize then [] else [segment.drop bufSize]

/-- At the end of the stream an iteration changes nothing. -/
theorem iteration_nil (flushed : Option Nat) (w : Bytes) :
    iteration flushed (⟨[], w⟩ : TcpStream ε) = .running ⟨[], w⟩ := by
  unfold iteration bufReaderRead TcpStream.read bufWriterWrite
  cases flushed with
  | none => exact congrArg (fun w => Loop.running ⟨[], w⟩) (List.append_nil w)
  | some n =>
    refine congrArg (fun w => Loop.running ⟨[], w⟩) ?_
    show w ++ List.take n [] = w
    rw [List.take_nil, List.append_nil]

/-- A read that fails ends the loop. -/
theorem iteration_error (flushed : Option Nat) (err : ε) (rest : List (Except ε Bytes))
    (w : Bytes) :
    iteration flushed ⟨.error err :: rest, w⟩ = .returned err ⟨rest, w⟩ := rfl

/-- Of a segment the buffer takes the front, and what is left is read next. -/
theorem iteration_ok (flushed : Option Nat) (segment : Bytes) (rest : List (Except ε Bytes))
    (w : Bytes) :
    iteration flushed ⟨.ok segment :: rest, w⟩ =
      .running (bufWriterWrite (segment.take maxMessageSize) flushed
        ⟨(remainder segment).map .ok ++ rest, w⟩) := by
  have htake : (segment.take bufSize).take maxMessageSize = segment.take maxMessageSize := by
    rw [List.take_take]
    rfl
  unfold iteration bufReaderRead TcpStream.read remainder
  dsimp only [Except.map]
  rw [htake]
  split
  next => rfl
  next => rfl

/-! ## What is left to read -/

/-- How many reads it takes, at most. -/
def weight : Except ε Bytes → Nat
  | .error _ => 1
  | .ok segment => segment.length + 1

/-- How many reads are left, at most. -/
def TcpStream.weight (s : TcpStream ε) : Nat := (s.incoming.map SyncServer.weight).sum

@[simp] theorem weight_bufWriterWrite (bytes : Bytes) (flushed : Option Nat) (s : TcpStream ε) :
    (bufWriterWrite bytes flushed s).weight = s.weight := by
  cases flushed <;> rfl

@[simp] theorem incoming_bufWriterWrite (bytes : Bytes) (flushed : Option Nat) (s : TcpStream ε) :
    (bufWriterWrite bytes flushed s).incoming = s.incoming := by
  cases flushed <;> rfl

/-- An iteration that goes on has read from the first segment, if there is one. -/
theorem iteration_running {flushed : Option Nat} {s t : TcpStream ε}
    (h : iteration flushed s = .running t) :
    (∀ err, .error err ∈ t.incoming ↔ .error err ∈ s.incoming) ∧ (s.incoming ≠ [] →
      t.weight < s.weight) := by
  obtain ⟨incoming, w⟩ := s
  match incoming with
  | [] =>
    rw [iteration_nil] at h
    cases h
    exact ⟨fun _ => Iff.rfl, fun hne => (hne rfl).elim⟩
  | .error err :: rest =>
    rw [iteration_error] at h
    cases h
  | .ok segment :: rest =>
    rw [iteration_ok] at h
    cases h
    refine ⟨fun err => ?_, fun _ => ?_⟩
    · rw [incoming_bufWriterWrite, List.mem_append, List.mem_cons]
      refine or_congr (iff_of_false (fun hmem => ?_) fun heq => ?_) Iff.rfl
      · obtain ⟨_, -, heq⟩ := List.mem_map.mp hmem
        cases heq
      · cases heq
    · rw [weight_bufWriterWrite]
      unfold TcpStream.weight remainder
      dsimp only
      split
      next =>
        rw [List.map_nil, List.nil_append, List.map_cons, List.sum_cons, weight]
        omega
      next hlong =>
        simp only [List.map_cons, List.map_nil, List.cons_append, List.nil_append,
          List.sum_cons, weight, List.length_drop]
        have hpos : bufSize = 8192 := rfl
        omega

/-- The loop returns only with an error of a read. -/
theorem iteration_returned {flushed : Option Nat} {s t : TcpStream ε} {err : ε}
    (h : iteration flushed s = .returned err t) : .error err ∈ s.incoming := by
  obtain ⟨incoming, w⟩ := s
  match incoming with
  | [] =>
    rw [iteration_nil] at h
    cases h
  | .error err :: rest =>
    rw [iteration_error] at h
    cases h
    exact List.mem_cons_self
  | .ok segment :: rest =>
    rw [iteration_ok] at h
    cases h

/-! ## The loop -/

/-- **The only way out is an error of the read.** -/
theorem handleConnection_returned {flushed : List (Option Nat)} {s t : TcpStream ε} {err : ε}
    (h : handleConnection flushed s = .returned err t) : .error err ∈ s.incoming := by
  induction flushed generalizing s with
  | nil => cases h
  | cons f rest ih =>
    rw [handleConnection] at h
    split at h
    next u hiter => exact ((iteration_running hiter).1 err).mp (ih h)
    next err' u hiter =>
      cases h
      exact iteration_returned hiter

/-- While it runs no read has failed: all errors are still to come. -/
theorem handleConnection_running {flushed : List (Option Nat)} {s t : TcpStream ε}
    (h : handleConnection flushed s = .running t) (err : ε) : .error err ∈ t.incoming ↔
      .error err ∈ s.incoming := by
  induction flushed generalizing s with
  | nil =>
    cases h
    exact Iff.rfl
  | cons f rest ih =>
    rw [handleConnection] at h
    split at h
    next u hiter => exact (ih h).trans ((iteration_running hiter).1 err)
    next => cases h

/-- Enough iterations consume the stream, or return. -/
theorem handleConnection_consumes (s : TcpStream ε) (flushed : Nat → Option Nat) :
    ∃ k, (∃ t, handleConnection ((List.range k).map flushed) s = .running t ∧ t.incoming = []) ∨
      ∃ err t, handleConnection ((List.range k).map flushed) s = .returned err t := by
  induction hn : s.weight using Nat.strongRecOn generalizing s flushed with
  | _ n ih =>
    by_cases hnil : s.incoming = []
    · exact ⟨0, Or.inl ⟨s, rfl, hnil⟩⟩
    · have hcons : ∀ k, (List.range (k + 1)).map flushed =
          flushed 0 :: (List.range k).map fun i => flushed (i + 1) := by
        intro k
        rw [List.range_succ_eq_map, List.map_cons, List.map_map]
        rfl
      cases hiter : iteration (flushed 0) s with
      | running t =>
        have hlt := (iteration_running hiter).2 hnil
        obtain ⟨k, hk⟩ := ih t.weight (hn ▸ hlt) t (fun i => flushed (i + 1)) rfl
        refine ⟨k + 1, ?_⟩
        rw [hcons, handleConnection, hiter]
        exact hk
      | returned err t =>
        refine ⟨1, Or.inr ⟨err, t, ?_⟩⟩
        rw [hcons, handleConnection, hiter]

/-- So it returns exactly if some read fails. -/
theorem returns_iff_error (s : TcpStream ε) (flushed : Nat → Option Nat) :
    Returns s flushed ↔ ∃ err, .error err ∈ s.incoming := by
  constructor
  · rintro ⟨k, err, t, h⟩
    exact ⟨err, handleConnection_returned h⟩
  · rintro ⟨err, hmem⟩
    obtain ⟨k, ⟨t, hrun, hnil⟩ | hreturned⟩ := handleConnection_consumes s flushed
    · have hleft := (handleConnection_running hrun err).mpr hmem
      rw [hnil] at hleft
      cases hleft
    · exact ⟨k, hreturned⟩

/-- At the end of the stream the loop turns, and does nothing. -/
theorem handleConnection_nil (flushed : List (Option Nat)) (w : Bytes) :
    handleConnection flushed (⟨[], w⟩ : TcpStream ε) = .running ⟨[], w⟩ := by
  induction flushed with
  | nil => rfl
  | cons f rest ih =>
    rw [handleConnection, iteration_nil]
    exact ih

/-- **No thread of a client that has gone ends**: on no stream, in no segmentation, and whatever
becomes of the writes, does the loop return. -/
theorem handleConnection_never_returns (ε : Type) (segments : List Bytes)
    (flushed : Nat → Option Nat) :
    ¬ Returns (accepted ε segments) flushed := by
  rw [returns_iff_error]
  rintro ⟨err, hmem⟩
  obtain ⟨segment, -, heq⟩ := List.mem_map.mp hmem
  cases heq

/-- Not even of one that has sent nothing. -/
theorem handleConnection_spins :
    ¬ ∀ (ε : Type) (segments : List Bytes) (flushed : Nat → Option Nat), Returns
      (accepted ε segments) flushed := by
  intro hall
  obtain ⟨k, err, t, h⟩ := hall Unit [] fun _ => none
  rw [accepted, List.map_nil, handleConnection_nil] at h
  cases h

/-! ## What is written -/

/-- Reading `segments`, the loop has written `got` and has `rest` to read. -/
structure Consumes (segments rest : List Bytes) (got : Bytes) : Prop where
  short : (∀ segment ∈ segments, segment.length ≤ maxMessageSize) →
    got ++ rest.flatten = segments.flatten ∧ ∀ segment ∈ rest, segment.length ≤ maxMessageSize
  length : got.length + rest.flatten.length ≤ segments.flatten.length
  lost : (∃ segment ∈ segments, maxMessageSize < segment.length) →
    got.length + rest.flatten.length < segments.flatten.length ∨ ∃ segment ∈ rest, maxMessageSize <
      segment.length

theorem Consumes.refl (segments : List Bytes) : Consumes segments segments [] where
  short h := ⟨rfl, h⟩
  length := Nat.le_of_eq (Nat.zero_add _)
  lost h := Or.inr h

theorem Consumes.trans {a b c : List Bytes} {got got' : Bytes} (h : Consumes a b got)
    (h' : Consumes b c got') :
    Consumes a c (got ++ got') where
  short hshort := by
    obtain ⟨heq, hb⟩ := h.short hshort
    obtain ⟨heq', hc⟩ := h'.short hb
    rw [List.append_assoc, heq', heq]
    exact ⟨rfl, hc⟩
  length := by
    have hle := h.length
    have hle' := h'.length
    rw [List.length_append]
    omega
  lost hlost := by
    have hle := h.length
    have hle' := h'.length
    rw [List.length_append]
    rcases h.lost hlost with hlt | hb
    · left
      omega
    · rcases h'.lost hb with hlt' | hc
      · left
        omega
      · exact Or.inr hc

/-- One segment is handed out, or a part of it is. -/
theorem consumes_cons (segment : Bytes) (rest : List Bytes) :
    Consumes (segment :: rest) (remainder segment ++ rest) (segment.take maxMessageSize) := by
  have hsize : maxMessageSize = 128 ∧ bufSize = 8192 := ⟨rfl, rfl⟩
  have hremainder : (remainder segment).flatten.length = segment.length - bufSize := by
    unfold remainder
    split
    next => simp only [List.flatten_nil, List.length_nil]; omega
    next => simp only [List.flatten_cons, List.flatten_nil, List.append_nil, List.length_drop]
  refine ⟨fun hshort => ?_, ?_, ?_⟩
  · have hle := hshort segment List.mem_cons_self
    have hnone : remainder segment = [] := if_pos (by omega)
    rw [hnone, List.nil_append, List.take_of_length_le hle, List.flatten_cons]
    exact ⟨rfl, fun s hs => hshort s (List.mem_cons_of_mem _ hs)⟩
  · rw [List.flatten_append, List.flatten_cons, List.length_append, List.length_append,
      List.length_take, hremainder]
    omega
  · rintro ⟨long, hmem, hlong⟩
    rcases List.mem_cons.mp hmem with rfl | hmem
    · left
      rw [List.flatten_append, List.flatten_cons, List.length_append, List.length_append,
        List.length_take, hremainder]
      omega
    · exact Or.inr ⟨long, List.mem_append_right _ hmem, hlong⟩

/-- **What the loop does to a stream**, iteration by iteration. -/
theorem handleConnection_segments (k : Nat) (segments : List Bytes) (w : Bytes) :
    ∃ rest got, handleConnection (flushes k) (⟨segments.map .ok, w⟩ : TcpStream ε) =
      .running ⟨rest.map .ok, w ++ got⟩ ∧ Consumes segments rest got := by
  induction k generalizing segments w with
  | zero =>
    refine ⟨segments, [], ?_, Consumes.refl segments⟩
    rw [List.append_nil]
    rfl
  | succ k ih =>
    match segments with
    | [] =>
      refine ⟨[], [], ?_, Consumes.refl []⟩
      rw [List.map_nil, handleConnection_nil, List.append_nil]
    | segment :: rest =>
      obtain ⟨rest', got, hrun, hconsumes⟩ :=
        ih (remainder segment ++ rest) (w ++ segment.take maxMessageSize)
      refine ⟨rest', segment.take maxMessageSize ++ got, ?_,
        (consumes_cons segment rest).trans hconsumes⟩
      rw [flushes, List.replicate_succ, List.map_cons, handleConnection, iteration_ok,
        ← List.append_assoc, ← hrun, List.map_append]
      rfl

/-- **All that arrives is read in the end.** -/
theorem consumed (ε : Type) (segments : List Bytes) :
    ∃ k s, handleConnection (flushes k) (accepted ε segments) = .running s ∧ s.incoming = [] := by
  obtain ⟨k, hk⟩ := handleConnection_consumes (accepted ε segments) fun _ => none
  have hflushes : (List.range k).map (fun _ => (none : Option Nat)) = flushes k := by
    rw [List.map_const', List.length_range, flushes]
  rw [hflushes] at hk
  rcases hk with ⟨s, hrun, hnil⟩ | ⟨err, t, hreturned⟩
  · exact ⟨k, s, hrun, hnil⟩
  · obtain ⟨segment, -, heq⟩ := List.mem_map.mp (handleConnection_returned hreturned)
    cases heq

/-- Of a longer segment something is lost. -/
theorem not_echoes_of_lt {segments : List Bytes} {segment : Bytes} (hmem : segment ∈ segments)
    (hlong : maxMessageSize < segment.length) : ¬ Echoes ε segments := by
  intro hechoes
  obtain ⟨k, s, hrun, hnil⟩ := hechoes.consumed
  have hwritten := hechoes.written k s hrun hnil
  obtain ⟨rest, got, hrun', hconsumes⟩ := handleConnection_segments (ε := ε) k segments []
  obtain rfl := Loop.running.inj (hrun.symm.trans hrun')
  obtain rfl : rest = [] := List.map_eq_nil_iff.mp hnil
  obtain rfl : got = segments.flatten := hwritten
  rcases hconsumes.lost ⟨segment, hmem, hlong⟩ with hlt | ⟨_, hnone, -⟩
  · exact Nat.lt_irrefl _ hlt
  · cases hnone

/-- **The server echoes a stream exactly if no segment is longer than a message**: of a longer
one it writes 128 bytes for each 8 KiB it reads. -/
theorem handleConnection_echoes_iff (ε : Type) (segments : List Bytes) :
    Echoes ε segments ↔ ∀ segment ∈ segments, segment.length ≤ maxMessageSize := by
  constructor
  · intro hechoes segment hmem
    by_contra hlong
    exact not_echoes_of_lt hmem (Nat.lt_of_not_le hlong) hechoes
  · intro hshort
    refine ⟨consumed ε segments, fun k s hrun hnil => ?_⟩
    obtain ⟨rest, got, hrun', hconsumes⟩ := handleConnection_segments (ε := ε) k segments []
    obtain rfl := Loop.running.inj (hrun.symm.trans hrun')
    obtain rfl : rest = [] := List.map_eq_nil_iff.mp hnil
    exact (List.append_nil got).symm.trans (hconsumes.short hshort).1

/-- A client that sends 129 bytes at once. -/
theorem handleConnection_loses : ¬ ∀ (ε : Type) (segments : List Bytes), Echoes ε segments := by
  intro hall
  refine not_echoes_of_lt List.mem_cons_self ?_ (hall Unit [List.replicate 129 0])
  rw [List.length_replicate]
  decide

end ShouldIAsync.SyncServer
