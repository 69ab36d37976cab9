import ShouldIAsync.GoStd.Bufio

/-!
# Go's `io.Pipe` and joined errors

`io.Pipe` has no buffer: a `Write` offers its slice on a channel until readers
have taken all of it or the pipe is closed, and returns how much was taken. The
state between two atomic actions is the slice still on offer and the count.

`errors.Join` and `errors.WrapPrefix` are modelled over an arbitrary type of
leaf errors; `leaves` lists what a joined error consists of. `WrapPrefix` is not Go's: it
is from `go-errors`, of which `go.mod` takes a fork. What is assumed of it is that it adds
its message to an error and leaves `nil` as it is.
-/

namespace ShouldIAsync.GoStd

/-! ## Errors -/

/-- An error value: a leaf, one wrapped under a message, or a join, which has at
least one member. -/
inductive Error (ε : Type)
  | leaf (e : ε)
  | wrap (msg : String) (cause : Error ε)
  | join (first : Error ε) (rest : List (Error ε))

namespace Error

variable {ε : Type}

/-- `errors.WrapPrefix(err, msg, 0)` of `go-errors`; `nil` stays `nil`. -/
def wrapPrefix (msg : String) (err : Option (Error ε)) : Option (Error ε) := err.map (.wrap msg)

/-- `errors.Join(errs...)`: `nil` members are dropped, and no members is `nil`. -/
def joinAll (errs : List (Option (Error ε))) : Option (Error ε) :=
  match errs.filterMap id with
  | [] => none
  | e :: es => some (.join e es)

/-- The leaf errors of an error, wrappings and joins undone. -/
def leaves : Error ε → List ε
  | .leaf e => [e]
  | .wrap _ cause => cause.leaves
  | .join first rest => first.leaves ++ rest.flatMap fun e => e.leaves

/-- The leaf errors of a result; none for `nil`. -/
def leavesOf (err : Option (Error ε)) : List ε := err.elim [] leaves

@[simp] theorem leavesOf_none : leavesOf (none : Option (Error ε)) = [] := rfl

@[simp] theorem leavesOf_leaf (e : ε) : leavesOf (some (.leaf e)) = [e] := by
  simp [leavesOf, leaves]

@[simp] theorem wrapPrefix_none (msg : String) :
    wrapPrefix msg (none : Option (Error ε)) = none := rfl

/-- A prefix adds no error and loses none. -/
@[simp] theorem leavesOf_wrapPrefix (msg : String) (err : Option (Error ε)) :
    leavesOf (wrapPrefix msg err) = leavesOf err := by
  cases err with
  | none => rfl
  | some e => simp [wrapPrefix, leavesOf, leaves]

/-- Joining collects the leaves in order. -/
theorem leavesOf_joinAll (errs : List (Option (Error ε))) :
    leavesOf (joinAll errs) = errs.flatMap leavesOf := by
  have hmap : errs.flatMap leavesOf = (errs.filterMap id).flatMap leaves := by
    induction errs with
    | nil => rfl
    | cons err errs ih => cases err <;> simp [ih, leavesOf]
  rw [hmap]
  unfold joinAll
  split
  next h => rw [h]; rfl
  next e es h =>
    rw [h]
    simp only [leavesOf, Option.elim_some, leaves, List.flatMap_cons]

/-- An error consists of something. -/
theorem leaves_ne_nil : ∀ err : Error ε, err.leaves ≠ []
  | .leaf e => by simp [leaves]
  | .wrap msg cause => by
    rw [leaves]
    exact leaves_ne_nil cause
  | .join first rest => by
    rw [leaves]
    exact List.append_ne_nil_of_left_ne_nil (leaves_ne_nil first) _

/-- Only nil has no error in it. -/
@[simp] theorem leavesOf_eq_nil {err : Option (Error ε)} : leavesOf err = [] ↔ err = none := by
  cases err with
  | none => simp
  | some e => simp [leavesOf, leaves_ne_nil e]

end Error

/-! ## The pipe -/

/-- `io.ErrClosedPipe` and `io.EOF` -/
inductive PipeError
  | closedPipe
  | eof
  deriving DecidableEq, Repr

/-- A pipe and the `Write` in progress on it, if any. -/
structure Pipe where
  /-- the slice a `Write` is offering on `wrCh` -/
  offer : Option Bytes := none
  /-- how much of that `Write` has been taken: its `n` -/
  sent : Nat := 0
  readClosed : Bool := false
  writeClosed : Bool := false
  deriving DecidableEq, Repr

/-- How a `Read` goes: it waits, or it takes bytes, or the pipe is closed. -/
inductive ReadResult
  | blocked
  | data (d : Bytes) (after : Pipe)
  | closed (err : PipeError)

namespace Pipe

/-- The `done` channel is closed by whichever end closes first. -/
def done (p : Pipe) : Bool := p.readClosed || p.writeClosed

def readCloseError (p : Pipe) : PipeError :=
  if !p.readClosed && p.writeClosed then .eof else .closedPipe

def closeRead (p : Pipe) : Pipe := { p with readClosed := true }

def closeWrite (p : Pipe) : Pipe := { p with writeClosed := true }

/-- `Write(b)` on an open pipe starts to offer `b`. -/
def offerWrite (p : Pipe) (b : Bytes) : Pipe := { p with offer := some b, sent := 0 }

/-- The `Write` in progress gives up because the pipe was closed. -/
def withdraw (p : Pipe) : Pipe := { p with offer := none }

/-- `Read` into `room` bytes: `copy` takes what fits, and the writer goes on with
the rest of its slice or is through. -/
def read (p : Pipe) (room : Nat) : ReadResult :=
  if p.done then .closed p.readCloseError
  else
    match p.offer with
    | none => .blocked
    | some b =>
      .data (b.take room)
        { p with
          offer := if b.drop room = [] then none else some (b.drop room)
          sent := p.sent + (b.take room).length }

/-! The fields after each of these. -/

@[simp] theorem closeRead_offer (p : Pipe) : p.closeRead.offer = p.offer := rfl
@[simp] theorem closeRead_sent (p : Pipe) : p.closeRead.sent = p.sent := rfl
@[simp] theorem closeRead_readClosed (p : Pipe) : p.closeRead.readClosed = true := rfl
@[simp] theorem closeRead_writeClosed (p : Pipe) : p.closeRead.writeClosed = p.writeClosed := rfl
@[simp] theorem closeWrite_offer (p : Pipe) : p.closeWrite.offer = p.offer := rfl
@[simp] theorem closeWrite_readClosed (p : Pipe) : p.closeWrite.readClosed = p.readClosed := rfl
@[simp] theorem closeWrite_writeClosed (p : Pipe) : p.closeWrite.writeClosed = true := rfl
@[simp] theorem offerWrite_offer (p : Pipe) (b : Bytes) : (p.offerWrite b).offer = some b := rfl
@[simp] theorem offerWrite_sent (p : Pipe) (b : Bytes) : (p.offerWrite b).sent = 0 := rfl
@[simp] theorem offerWrite_readClosed (p : Pipe) (b : Bytes) :
    (p.offerWrite b).readClosed = p.readClosed := rfl
@[simp] theorem offerWrite_writeClosed (p : Pipe) (b : Bytes) :
    (p.offerWrite b).writeClosed = p.writeClosed := rfl
@[simp] theorem withdraw_offer (p : Pipe) : p.withdraw.offer = none := rfl
@[simp] theorem withdraw_readClosed (p : Pipe) : p.withdraw.readClosed = p.readClosed := rfl
@[simp] theorem withdraw_writeClosed (p : Pipe) : p.withdraw.writeClosed = p.writeClosed := rfl

/-- Everything a successful `Read` does: the bytes are the front of the offer,
the writer keeps the rest, and neither end is closed. -/
theorem read_data {p p' : Pipe} {room : Nat} {d : Bytes} (h : p.read room = .data d p') :
    p.done = false ∧ ∃ b, p.offer = some b ∧ d = b.take room ∧
      p'.offer = (if b.drop room = [] then none else some (b.drop room)) ∧
      p'.sent = p.sent + d.length ∧ p'.readClosed = p.readClosed ∧
      p'.writeClosed = p.writeClosed := by
  unfold read at h
  split at h
  · cases h
  next hdone =>
    split at h
    · cases h
    next b hb =>
      cases h
      exact ⟨by simpa using hdone, b, hb, rfl, rfl, rfl, rfl, rfl⟩

/-- A read gives as much as there is room for at most. -/
theorem read_length_le {p p' : Pipe} {room : Nat} {d : Bytes} (h : p.read room = .data d p') :
    d.length ≤ room := by
  obtain ⟨-, b, -, rfl, -⟩ := read_data h
  exact List.length_take_le ..

/-- A read fails only once an end is closed. -/
theorem read_closed {p : Pipe} {room : Nat} {e : PipeError} (h : p.read room = .closed e) :
    p.done = true ∧ e = p.readCloseError := by
  unfold read at h
  split at h
  next hdone =>
    cases h
    exact ⟨hdone, rfl⟩
  · split at h <;> cases h

/-- A read blocks while nothing is offered. -/
theorem read_blocked {p : Pipe} {room : Nat} (h : p.read room = .blocked) :
    p.done = false ∧ p.offer = none := by
  unfold read at h
  split at h
  · cases h
  next hdone =>
    split at h
    next hoff => exact ⟨by simpa using hdone, hoff⟩
    · cases h

/-- The reads that the `Write` in progress can still serve. -/
def weight (p : Pipe) : Nat := p.offer.elim 0 fun b => b.length + 1

/-- A read takes from the offer what it returns. -/
theorem read_weight {p p' : Pipe} {room : Nat} {d : Bytes} (hroom : 0 < room)
    (h : p.read room = .data d p') : p'.weight < p.weight ∧ p'.weight + d.length ≤ p.weight := by
  obtain ⟨-, b, hb, rfl, hoff, -⟩ := read_data h
  unfold weight
  rw [hb, hoff, List.length_take]
  split
  next =>
    simp only [Option.elim_none, Option.elim_some]
    omega
  next hdrop =>
    rw [List.drop_eq_nil_iff] at hdrop
    simp only [Option.elim_some, List.length_drop]
    omega

end Pipe

end ShouldIAsync.GoStd
