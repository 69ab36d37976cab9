import ShouldIAsync.HarnessIo.MorphingWriter

/-!
# The moves of a `MorphingWriter`

What `readerStep` and `callerStep` can do, move by move, for the invariants to go through. Of the
caller there is no move that delegates without `Write` having waited: the poll of `readerDone` never
says yes (`polled_eq_false`).
-/

namespace ShouldIAsync.HarnessIo

open ShouldIAsync.GoStd

variable {κ σ : Type} {delim : UInt8}

/-- A poll never says that the reader is done. -/
theorem polled_eq_false (readerDone : Bool) : polled readerDone = false := by
  cases readerDone <;> rfl

/-- The moves of the reader goroutine. -/
inductive ReaderMove (W : Writers κ σ) (morph : Bytes → κ) (s : State κ σ delim) :
    State κ σ delim → Prop
  | more {c c' : Collecting delim} {d : Bytes} {pipe : Pipe} {hd : d.length ≤ c.room}
      (hreader : s.reader = .readBytes c) (hread : s.pipe.read c.room = .data d pipe)
      (hmore : c.absorb d hd = .more c') :
      ReaderMove W morph s { s with pipe := pipe, reader := .readBytes c' }
  | line {c : Collecting delim} {d tok rest : Bytes} {pipe : Pipe} {hd : d.length ≤ c.room}
      {hrest : rest.length ≤ defaultBufSize}
      (hreader : s.reader = .readBytes c) (hread : s.pipe.read c.room = .data d pipe)
      (hline : c.absorb d hd = .line tok rest hrest) :
      ReaderMove W morph s { s with pipe := pipe, reader := .switched .closePipe tok rest }
  | noProgress {c : Collecting delim} {d tok : Bytes} {pipe : Pipe} {hd : d.length ≤ c.room}
      {err : Option IoErr}
      (hreader : s.reader = .readBytes c) (hread : s.pipe.read c.room = .data d pipe)
      (hnone : c.absorb d hd = .noProgress tok) :
      ReaderMove W morph s
        { s with pipe := pipe, reader := .switched .closePipe tok [], readerErr := err }
  | eof {c : Collecting delim} {e : PipeError}
      (hreader : s.reader = .readBytes c) (hread : s.pipe.read c.room = .closed e) :
      ReaderMove W morph s { s with reader := .switched .closePipe c.seen [] }
  | closePipe {tok rest : Bytes} (hreader : s.reader = .switched .closePipe tok rest) :
      ReaderMove W morph s { s with pipe := s.pipe.closeRead, reader := .switched .morph tok rest }
  | morph {tok rest : Bytes} (hreader : s.reader = .switched .morph tok rest) :
      ReaderMove W morph s
        { s with writer := some (morph tok), reader := .switched .writeToken tok rest }
  | skipToken {rest : Bytes} (hreader : s.reader = .switched .writeToken [] rest) :
      ReaderMove W morph s { s with reader := .switched (.copyBuffered none) [] rest }
  | writeToken {tok rest : Bytes} {k : κ} (hreader : s.reader = .switched .writeToken tok rest)
      (htok : tok ≠ []) (hwriter : s.writer = some k) :
      ReaderMove W morph s { s with
        behind := W.call k tok s.behind
        calls := s.calls ++ [(k, tok)]
        reader := .switched .writingToken tok rest }
  | tokenWritten {tok rest : Bytes} {res : WriteResult}
      (hreader : s.reader = .switched .writingToken tok rest)
      (hres : writerResult W s tok = some res) :
      ReaderMove W morph s { s with reader := .switched (.copyBuffered res.2) tok rest }
  | skipBuffered {tok : Bytes} {err1 : Option IoErr}
      (hreader : s.reader = .switched (.copyBuffered err1) tok []) :
      ReaderMove W morph s { s with reader := .switched (.finish err1 none) tok [] }
  | copyBuffered {tok rest : Bytes} {err1 : Option IoErr} {k : κ}
      (hreader : s.reader = .switched (.copyBuffered err1) tok rest) (hrest : rest ≠ [])
      (hwriter : s.writer = some k) :
      ReaderMove W morph s { s with
        behind := W.call k rest s.behind
        calls := s.calls ++ [(k, rest)]
        reader := .switched (.copyingBuffered err1) tok rest }
  | bufferedCopied {tok rest : Bytes} {err1 : Option IoErr} {res : WriteResult}
      (hreader : s.reader = .switched (.copyingBuffered err1) tok rest)
      (hres : writerResult W s rest = some res) :
      ReaderMove W morph s
        { s with reader := .switched (.finish err1 (copyNError rest.length res)) tok rest }
  | finish {tok rest : Bytes} {err1 err2 : Option IoErr}
      (hreader : s.reader = .switched (.finish err1 err2) tok rest) :
      ReaderMove W morph s { s with
        reader := .switched .returned tok rest
        readerErr := Error.joinAll [s.readerErr,
          Error.wrapPrefix "MorphingWriter reader Write firstToken: " err1,
          Error.wrapPrefix "MorphingWriter reader CopyN: " err2]
        readerDone := true }

/-- Each step of the reader is one of these. -/
theorem readerStep_move {W : Writers κ σ} {morph : Bytes → κ} {s t : State κ σ delim}
    (hstep : readerStep W morph s = some t) : ReaderMove W morph s t := by
  unfold readerStep at hstep
  split at hstep
  next c hreader =>
    split at hstep
    next => cases hstep
    next d pipe hread =>
      split at hstep
      next c' hmore =>
        cases hstep
        exact .more hreader hread hmore
      next tok rest hrest hline =>
        cases hstep
        exact .line hreader hread hline
      next tok hnone =>
        cases hstep
        exact .noProgress hreader hread hnone
    next e hread =>
      cases hstep
      exact .eof hreader hread
  next stage tok rest hreader =>
    split at hstep
    next =>
      cases hstep
      exact .closePipe hreader
    next =>
      cases hstep
      exact .morph hreader
    next =>
      split at hstep
      next htok =>
        cases hstep
        subst htok
        exact .skipToken hreader
      next htok =>
        obtain ⟨u, hcall, rfl⟩ := Option.map_eq_some_iff.mp hstep
        obtain ⟨k, hwriter, rfl⟩ := Option.map_eq_some_iff.mp hcall
        exact .writeToken hreader htok hwriter
    next =>
      obtain ⟨res, hres, rfl⟩ := Option.map_eq_some_iff.mp hstep
      exact .tokenWritten hreader hres
    next err1 =>
      split at hstep
      next hrest =>
        cases hstep
        subst hrest
        exact .skipBuffered hreader
      next hrest =>
        obtain ⟨u, hcall, rfl⟩ := Option.map_eq_some_iff.mp hstep
        obtain ⟨k, hwriter, rfl⟩ := Option.map_eq_some_iff.mp hcall
        exact .copyBuffered hreader hrest hwriter
    next err1 =>
      obtain ⟨res, hres, rfl⟩ := Option.map_eq_some_iff.mp hstep
      exact .bufferedCopied hreader hres
    next err1 err2 =>
      cases hstep
      exact .finish hreader
    next => cases hstep

/-- The moves of the caller. -/
inductive CallerMove (W : Writers κ σ) (s : State κ σ delim) : State κ σ delim → Prop
  | close (hcaller : s.caller = .idle) (htodo : s.todo = []) :
      CallerMove W s { s with pipe := s.pipe.closeWrite, caller := .closing }
  | refused {p : Bytes} {todo : List Bytes} (hcaller : s.caller = .idle)
      (htodo : s.todo = p :: todo)
      (hdone : s.pipe.done = true) : CallerMove W s { s with todo := todo, caller := .waiting p 0 }
  | offer {p : Bytes} {todo : List Bytes} (hcaller : s.caller = .idle) (htodo : s.todo = p :: todo)
      (hopen : s.pipe.done = false) :
      CallerMove W s { s with todo := todo, pipe := s.pipe.offerWrite p, caller := .piping p }
  | piped {p : Bytes} (hcaller : s.caller = .piping p) (hoffer : s.pipe.offer = none) :
      CallerMove W s (returnWrite s (s.pipe.sent, none))
  | withdraw {p b : Bytes} (hcaller : s.caller = .piping p) (hoffer : s.pipe.offer = some b)
      (hdone : s.pipe.done = true) :
      CallerMove W s { s with pipe := s.pipe.withdraw, caller := .waiting p s.pipe.sent }
  | fail {p : Bytes} {n : Nat} {err : IoErr} (hcaller : s.caller = .waiting p n)
      (hdone : s.readerDone = true)
      (herr : s.readerErr = some err) : CallerMove W s (returnWrite s (n + 0, some err))
  | delegate {p : Bytes} {n : Nat} {k : κ} (hcaller : s.caller = .waiting p n)
      (hdone : s.readerDone = true) (herr : s.readerErr = none) (hwriter : s.writer = some k) :
      CallerMove W s { s with
        behind := W.call k p s.behind
        calls := s.calls ++ [(k, p)]
        caller := .delegating p n }
  | nilWriter {p : Bytes} {n : Nat} (hcaller : s.caller = .waiting p n)
      (hdone : s.readerDone = true)
      (herr : s.readerErr = none) (hwriter : s.writer = none) : CallerMove W s
        { s with caller := .panicked }
  | delegated {p : Bytes} {n : Nat} {res : WriteResult} (hcaller : s.caller = .delegating p n)
      (hres : writerResult W s p = some res) : CallerMove W s (returnWrite s (n + res.1, res.2))
  | closed (hcaller : s.caller = .closing) (hdone : s.readerDone = true) :
      CallerMove W s
        { s with caller := .closed, closeResult := some (Error.joinAll [none, s.readerErr]) }

/-- A `Write` that delegates is one of these moves. -/
theorem writeDelegate_move {W : Writers κ σ} {s : State κ σ delim} {p : Bytes} {n : Nat}
    (hcaller : s.caller = .waiting p n) (hdone : s.readerDone = true) :
    CallerMove W s (writeDelegate W s p n) := by
  unfold writeDelegate
  split
  next err herr => exact .fail hcaller hdone herr
  next herr =>
    split
    next t hcall =>
      obtain ⟨k, hwriter, rfl⟩ := Option.map_eq_some_iff.mp hcall
      exact .delegate hcaller hdone herr hwriter
    next hcall => exact .nilWriter hcaller hdone herr (Option.map_eq_none_iff.mp hcall)

/-- Each step of the caller is one of these. -/
theorem callerStep_move {W : Writers κ σ} {s t : State κ σ delim}
    (hstep : callerStep W s = some t) :
    CallerMove W s t := by
  unfold callerStep at hstep
  split at hstep
  next hcaller =>
    split at hstep
    next htodo =>
      cases hstep
      exact .close hcaller htodo
    next p todo htodo =>
      rw [polled_eq_false, if_neg Bool.false_ne_true] at hstep
      split at hstep
      next hdone =>
        cases hstep
        exact .refused hcaller htodo hdone
      next hopen =>
        cases hstep
        exact .offer hcaller htodo (Bool.not_eq_true _ ▸ hopen)
  next p hcaller =>
    split at hstep
    next hoffer =>
      cases hstep
      exact .piped hcaller hoffer
    next b hoffer =>
      split at hstep
      next hdone =>
        cases hstep
        exact .withdraw hcaller hoffer hdone
      next => cases hstep
  next p n hcaller =>
    split at hstep
    next hdone =>
      cases hstep
      exact writeDelegate_move hcaller hdone
    next => cases hstep
  next p n hcaller =>
    obtain ⟨res, hres, rfl⟩ := Option.map_eq_some_iff.mp hstep
    exact .delegated hcaller hres
  next hcaller =>
    split at hstep
    next hdone =>
      cases hstep
      exact .closed hcaller hdone
    next => cases hstep
  next => cases hstep
  next => cases hstep

end ShouldIAsync.HarnessIo
