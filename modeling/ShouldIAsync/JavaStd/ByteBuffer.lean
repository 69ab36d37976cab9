import Mathlib.Data.List.Basic

/-!
# `java.nio.ByteBuffer`

A heap buffer: an array with a position and a limit, which carry their bounds. A channel
that reads moves bytes of the connection into what is left between the two (`fill`), a
channel that writes moves what is there out of it (`content`, `drain`). What was in the
array before stays there, beyond the position.

Users of a cleared buffer need three facts: it takes what fits (`put_clear`), what it
then holds up to its position is what it took (`fill_clear`, `content_flip_store`), and its
capacity does not change.
-/

namespace ShouldIAsync.JavaStd

/-- The bytes of a `byte[]`. -/
abbrev Bytes := List UInt8

structure ByteBuffer where
  array : Bytes
  position : Nat
  limit : Nat
  position_le : position ≤ limit
  limit_le : limit ≤ array.length

namespace ByteBuffer

def capacity (buf : ByteBuffer) : Nat := buf.array.length

def remaining (buf : ByteBuffer) : Nat := buf.limit - buf.position

def hasRemaining (buf : ByteBuffer) : Bool := buf.position < buf.limit

def allocate (capacity : Nat) : ByteBuffer where
  array := List.replicate capacity 0
  position := 0
  limit := capacity
  position_le := Nat.zero_le _
  limit_le := Nat.le_of_eq List.length_replicate.symm

def clear (buf : ByteBuffer) : ByteBuffer where
  array := buf.array
  position := 0
  limit := buf.capacity
  position_le := Nat.zero_le _
  limit_le := Nat.le_refl _

def flip (buf : ByteBuffer) : ByteBuffer where
  array := buf.array
  position := 0
  limit := buf.position
  position_le := Nat.zero_le _
  limit_le := Nat.le_trans buf.position_le buf.limit_le

/-- `src` goes to the position, over what was there. -/
def store (buf : ByteBuffer) (src : Bytes) (h : src.length ≤ buf.remaining) : ByteBuffer where
  array := buf.array.take buf.position ++ src ++ buf.array.drop (buf.position + src.length)
  position := buf.position + src.length
  limit := buf.limit
  position_le := by
    have hle := buf.position_le
    unfold remaining at h
    omega
  limit_le := by
    have hpos := buf.position_le
    have hlim := buf.limit_le
    unfold remaining at h
    simp only [List.length_append, List.length_take, List.length_drop]
    omega

/-- `put(src)`; `none` is the `BufferOverflowException`. -/
def put (buf : ByteBuffer) (src : Bytes) : Option ByteBuffer :=
  if h : src.length ≤ buf.remaining then some (buf.store src h) else none

/-- A channel reads into the buffer as much of `src` as there is room for. -/
def fill (buf : ByteBuffer) (src : Bytes) : ByteBuffer :=
  buf.store (src.take buf.remaining) (by rw [List.length_take]; omega)

/-- What a channel writes out of the buffer. -/
def content (buf : ByteBuffer) : Bytes := (buf.array.take buf.limit).drop buf.position

/-- A channel has written all of it. -/
def drain (buf : ByteBuffer) : ByteBuffer where
  array := buf.array
  position := buf.limit
  limit := buf.limit
  position_le := Nat.le_refl _
  limit_le := buf.limit_le

/-- `Arrays.copyOf(buf.array(), buf.position())` -/
def filled (buf : ByteBuffer) : Bytes := buf.array.take buf.position

variable {buf : ByteBuffer} {src : Bytes}

/-- A buffer has the capacity it was allocated with. -/
@[simp] theorem capacity_allocate (n : Nat) : (allocate n).capacity = n :=
  List.length_replicate

@[simp] theorem capacity_clear : buf.clear.capacity = buf.capacity := Eq.refl _

@[simp] theorem remaining_clear : buf.clear.remaining = buf.capacity := Eq.refl _

/-- A buffer that was cleared is filled with nothing. -/
@[simp] theorem filled_clear : buf.clear.filled = [] := List.take_zero

@[simp] theorem capacity_flip : buf.flip.capacity = buf.capacity := Eq.refl _

@[simp] theorem capacity_drain : buf.drain.capacity = buf.capacity := Eq.refl _

/-- A write that is through leaves nothing. -/
@[simp] theorem hasRemaining_drain : buf.drain.hasRemaining = false := by
  simp [hasRemaining, drain]

/-- Storing bytes keeps the capacity. -/
@[simp] theorem capacity_store (h : src.length ≤ buf.remaining) :
    (buf.store src h).capacity = buf.capacity := by
  have hpos := buf.position_le
  have hlim := buf.limit_le
  unfold remaining at h
  simp only [capacity, store, List.length_append, List.length_take, List.length_drop]
  omega

@[simp] theorem capacity_fill : (buf.fill src).capacity = buf.capacity := capacity_store _

/-- A cleared buffer holds what was stored in it, up to its position. -/
theorem filled_store_clear (h : src.length ≤ buf.clear.remaining) :
    (buf.clear.store src h).filled = src := by
  simp [filled, store, clear]

/-- What fits can be put into a buffer that was cleared. -/
theorem put_clear (h : src.length ≤ buf.capacity) :
    buf.clear.put src = some (buf.clear.store src h) :=
  dif_pos h

/-- What a channel writes after `clear`, `put` and `flip` is what was put. -/
theorem content_flip_store (h : src.length ≤ buf.clear.remaining) :
    (buf.clear.store src h).flip.content = src := by
  simp [content, flip, store, clear]

theorem fill_clear (h : src.length ≤ buf.capacity) :
    (buf.clear.fill src).position = src.length ∧ (buf.clear.fill src).filled = src := by
  have htake : src.take buf.clear.remaining = src := List.take_of_length_le h
  constructor
  · show 0 + (src.take buf.clear.remaining).length = src.length
    rw [htake, Nat.zero_add]
  · unfold fill
    rw [filled_store_clear, htake]

end ByteBuffer

end ShouldIAsync.JavaStd
