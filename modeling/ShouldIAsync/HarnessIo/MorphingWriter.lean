import ShouldIAsync.Lib.System
import ShouldIAsync.GoStd.Pipe

/-!
# `MorphingWriter`: the two goroutines and the switch

`NewMorphingWriter` starts a reader goroutine on the far end of an `io.Pipe`; it
reads up to the delimiter, closes its end, builds the writer `morph` chooses,
forwards the first token and what its `bufio.Reader` had buffered, and closes
`readerDone`. Meanwhile the owner of the `MorphingWriter` calls `Write` for each
chunk and then `Close`. Each goroutine is a program counter and a function from
the state to its next state (`readerStep`, `callerStep`), `none` where it blocks;
a run of `morphingWriter` is any interleaving of the two, and of whatever runs
behind the writers that `morph` returns.

Those writers are a parameter (`Writers`): a `Write` call on one may block, and
may have goroutines of its own behind it. What the `MorphingWriter` calls them
with is recorded in `calls`.

`Write` first polls `readerDone` with a receive in a `select`. Receiving from a
closed channel yields `ok = false`, exactly like the `default` branch, so `ok`
is never true (`polled`); the branch it guards is modelled all the same.
-/

namespace ShouldIAsync.HarnessIo

open ShouldIAsync.Lib ShouldIAsync.GoStd

/-- What the errors in this package come down to. -/
inductive IoError
  | closedPipe
  | eof
  | noProgress
  | shortWrite
  | invalidWrite
  | tooLong
  | other (code : Nat)
  deriving DecidableEq, Repr

/-- An error, with what it wraps or joins. -/
abbrev IoErr := Error IoError

/-- What an `io.Writer`'s `Write` returns: `n` and `err`. -/
abbrev WriteResult := Nat × Option IoErr

/-- The result of a `Write(p)` that took everything. -/
def accepted (p : Bytes) : WriteResult := (p.length, none)

/-- The writers of type `κ` that `morph` can return, over the state `σ` behind
them: entering `Write(p)`, its result once it can return, and the steps of
goroutines behind the writers. -/
structure Writers (κ σ : Type) where
  call : κ → Bytes → σ → σ
  ret : κ → Bytes → σ → Option WriteResult
  background : σ → σ → Prop

/-- Every `Write` takes all its bytes, at once and without help. -/
structure Writers.Accepting {κ σ : Type} (W : Writers κ σ) : Prop where
  ret : ∀ k p x, W.ret k p x = some (accepted p)
  background : ∀ x y, ¬ W.background x y

/-- The reader goroutine after `ReadBytes` has returned, statement by statement. -/
inductive Stage
  | closePipe
  | morph
  | writeToken
  | writingToken
  | copyBuffered (err1 : Option IoErr)
  | copyingBuffered (err1 : Option IoErr)
  | finish (err1 err2 : Option IoErr)
  | returned

/-- The program counter of the reader goroutine. -/
inductive Reader (delim : UInt8)
  -- in `reader.ReadBytes(delim)`
  | readBytes (c : Collecting delim)
  -- past it, with `firstToken` and the bytes left in the buffer
  | switched (stage : Stage) (firstToken buffered : Bytes)

/-- The program counter of the goroutine that owns the writer. -/
inductive Caller
  -- between two calls
  | idle
  -- in `w.pipeWriter.Write(p)`
  | piping (p : Bytes)
  -- at `<-w.readerDone` in `Write(p)`, with the count of the pipe's `Write`
  | waiting (p : Bytes) (n : Nat)
  -- in `w.writer.Write(p)` of `writeDelegate`
  | delegating (p : Bytes) (n : Nat)
  -- at `<-w.readerDone` in `Close`
  | closing
  | closed
  | panicked

/-- The writer with its reader and its caller, over a world `σ` of the morphed writers. -/
structure State (κ σ : Type) (delim : UInt8) where
  pipe : Pipe
  reader : Reader delim
  writer : Option κ
  readerErr : Option IoErr
  readerDone : Bool
  caller : Caller
  -- the chunks still to be written
  todo : List Bytes
  -- what the `Write`s so far returned
  results : List WriteResult
  closeResult : Option (Option IoErr)
  -- the `Write` calls made on morphed writers
  calls : List (κ × Bytes)
  behind : σ

/-- `ok` after `select { case _, ok = <-w.readerDone: default: }`: a receive from
a closed channel sets it to false, and `default` leaves it false. -/
def polled (readerDone : Bool) : Bool :=
  match readerDone with
  | true => false
  | false => false

/-- The second result of `io.CopyN(dst, reader, n)` when the `n` bytes were
buffered, so that one `Write` was made and returned `res`. -/
def copyNError (n : Nat) (res : WriteResult) : Option IoErr :=
  if n < res.1 then some (res.2.getD (.leaf .invalidWrite))
  else if res.1 = n then none
  else some (res.2.getD (.leaf .shortWrite))

section Steps

variable {κ σ : Type} {delim : UInt8} (W : Writers κ σ) (morph : Bytes → κ)

/-- `w.writer.Write(p)` is entered; a nil writer would panic. -/
def callWriter (s : State κ σ delim) (p : Bytes) : Option (State κ σ delim) :=
  s.writer.map fun k => { s with behind := W.call k p s.behind, calls := s.calls ++ [(k, p)] }

/-- The result of the call on the morphed writer, once it can return. -/
def writerResult (s : State κ σ delim) (p : Bytes) : Option WriteResult :=
  s.writer.bind fun k => W.ret k p s.behind

/-- The next action of the reader goroutine. -/
def readerStep (s : State κ σ delim) : Option (State κ σ delim) :=
  match s.reader with
  | .readBytes c =>
    match h : s.pipe.read c.room with
    | .blocked => none
    | .data d pipe =>
      match c.absorb d (Pipe.read_length_le h) with
      | .more c' => some { s with pipe := pipe, reader := .readBytes c' }
      | .line tok rest _ => some { s with pipe := pipe, reader := .switched .closePipe tok rest }
      | .noProgress tok =>
        some { s with
          pipe := pipe
          reader := .switched .closePipe tok []
          readerErr := Error.wrapPrefix "MorphingWriter reader ReadBytes: "
            (some (.leaf .noProgress)) }
    -- `io.EOF` and `io.ErrClosedPipe` are not errors of the reader
    | .closed _ => some { s with reader := .switched .closePipe c.seen [] }
  | .switched stage tok rest =>
    match stage with
    | .closePipe => some { s with pipe := s.pipe.closeRead, reader := .switched .morph tok rest }
    | .morph => some { s with writer := some (morph tok), reader := .switched .writeToken tok rest }
    | .writeToken =>
      if tok = [] then some { s with reader := .switched (.copyBuffered none) tok rest }
      else (callWriter W s tok).map fun t => { t with reader := .switched .writingToken tok rest }
    | .writingToken =>
      (writerResult W s tok).map fun res =>
        { s with reader := .switched (.copyBuffered res.2) tok rest }
    | .copyBuffered err1 =>
      if rest = [] then some { s with reader := .switched (.finish err1 none) tok rest }
      else
        (callWriter W s rest).map fun t =>
          { t with reader := .switched (.copyingBuffered err1) tok rest }
    | .copyingBuffered err1 =>
      (writerResult W s rest).map fun res =>
        { s with reader := .switched (.finish err1 (copyNError rest.length res)) tok rest }
    | .finish err1 err2 =>
      some { s with
        reader := .switched .returned tok rest
        readerErr := Error.joinAll [s.readerErr,
          Error.wrapPrefix "MorphingWriter reader Write firstToken: " err1,
          Error.wrapPrefix "MorphingWriter reader CopyN: " err2]
        readerDone := true }
    | .returned => none

/-- A `Write` returns to the caller. -/
def returnWrite (s : State κ σ delim) (res : WriteResult) : State κ σ delim :=
  { s with caller := .idle, results := s.results ++ [res] }

/-- `writeDelegate(p)` after the pipe took `n` bytes. -/
def writeDelegate (s : State κ σ delim) (p : Bytes) (n : Nat) : State κ σ delim :=
  match s.readerErr with
  | some err => returnWrite s (n + 0, some err)
  | none =>
    match callWriter W s p with
    | some t => { t with caller := .delegating p n }
    | none => { s with caller := .panicked }

/-- The next action of the caller, which writes the chunks in `todo` and closes. -/
def callerStep (s : State κ σ delim) : Option (State κ σ delim) :=
  match s.caller with
  | .idle =>
    match s.todo with
    | [] => some { s with pipe := s.pipe.closeWrite, caller := .closing }
    | p :: todo =>
      if polled s.readerDone then some (writeDelegate W { s with todo := todo } p 0)
      else if s.pipe.done then
        -- the pipe's `Write` returns `0, io.ErrClosedPipe` at once
        some { s with todo := todo, caller := .waiting p 0 }
      else some { s with todo := todo, pipe := s.pipe.offerWrite p, caller := .piping p }
  | .piping p =>
    match s.pipe.offer with
    | none => some (returnWrite s (s.pipe.sent, none))
    | some _ =>
      if s.pipe.done then
        some { s with pipe := s.pipe.withdraw, caller := .waiting p s.pipe.sent }
      else none
  | .waiting p n => if s.readerDone then some (writeDelegate W s p n) else none
  | .delegating p n =>
    (writerResult W s p).map fun res => returnWrite s (n + res.1, res.2)
  | .closing =>
    if s.readerDone then
      some { s with caller := .closed, closeResult := some (Error.joinAll [none, s.readerErr]) }
    else none
  | .closed => none
  | .panicked => none

/-- `GetMorphedWriter()`: `none` stands for its panic. -/
def getMorphedWriter (s : State κ σ delim) : Option (Option κ) :=
  if polled s.readerDone then some s.writer else none

variable (delim) in
/-- `NewMorphingWriter(delim, morph)`, about to be given `chunks` and closed. -/
def initial (chunks : List Bytes) (behind : σ) : State κ σ delim where
  pipe := {}
  reader := .readBytes (.start delim)
  writer := none
  readerErr := none
  readerDone := false
  caller := .idle
  todo := chunks
  results := []
  closeResult := none
  calls := []
  behind := behind

variable (delim) in
/-- The runs of a `MorphingWriter`: any interleaving of its owner, its reader
goroutine and what runs behind the morphed writers. -/
def morphingWriter (chunks : List Bytes) (behind : σ) : System (State κ σ delim) where
  init s := s = initial delim chunks behind
  step s t :=
    readerStep W morph s = some t ∨ callerStep W s = some t ∨
      ∃ x, W.background s.behind x ∧ t = { s with behind := x }

end Steps

end ShouldIAsync.HarnessIo
