import ShouldIAsync.HarnessIo.MorphingDelivery

/-!
# Whether a `MorphingWriter` knows that its reader is done

`Write` and `GetMorphedWriter` poll `readerDone` and take the second result of the receive for
"it is closed". It is the opposite: a receive from a closed channel sets it to false, and nothing is
ever sent. So neither ever takes the branch it is to take once the reader is done
(`getMorphedWriter_panics`). `Write` does not depend on it, since the pipe is closed by then and
leads it to `writeDelegate` all the same (`write_after_done`); `GetMorphedWriter` has no other way.

Before that, nothing is wrong: while the reader is not done the writer is not touched
(`callerStep_writer`). The writers that `morph` returns are arbitrary here.
-/

namespace ShouldIAsync.HarnessIo

open ShouldIAsync.Lib ShouldIAsync.GoStd

variable {κ σ : Type} {delim : UInt8} {W : Writers κ σ} {morph : Bytes → κ} {s t : State κ σ delim}

/-- What the poll of `readerDone` is for. -/
structure RecognisesDone (W : Writers κ σ) (morph : Bytes → κ) (s : State κ σ delim) : Prop where
  /-- the writer is there for all to see, and a `Write` goes to it -/
  done : s.readerDone = true →
    (∃ tok rest, s.reader = .switched .returned tok rest ∧
      getMorphedWriter s = some (some (morph tok))) ∧
      ∀ p todo, s.caller = .idle → s.todo = p :: todo →
        callerStep W s = some (writeDelegate W { s with todo := todo } p 0)
  /-- `GetMorphedWriter` panics, and the caller does the same whatever the writer is -/
  notDone : s.readerDone = false → getMorphedWriter s = none ∧
    ∀ writer, callerStep W { s with writer := writer } = (callerStep W s).map fun t =>
      { t with writer := writer }

/-- **`GetMorphedWriter` always panics.** -/
theorem getMorphedWriter_panics (s : State κ σ delim) : getMorphedWriter s = none := by
  unfold getMorphedWriter
  rw [polled_eq_false, if_neg Bool.false_ne_true]

/-! ## When the reader is done -/

/-- What the reader goroutine has done, by where it is. -/
structure ReaderOk (morph : Bytes → κ) (s : State κ σ delim) : Prop where
  done : s.readerDone = true → ∃ tok rest, s.reader = .switched .returned tok rest
  writer : ∀ {stage tok rest}, s.reader = .switched stage tok rest → stage ≠ .closePipe →
    stage ≠ .morph →
    s.writer = some (morph tok)
  pipe : ∀ {stage tok rest}, s.reader = .switched stage tok rest → stage ≠ .closePipe →
    s.pipe.readClosed = true
  delegating : ∀ {p n}, s.caller = .delegating p n → s.readerDone = true

theorem readerOk_initial (morph : Bytes → κ) (chunks : List Bytes) (x : σ) :
    ReaderOk morph (initial delim chunks x) where
  done h := by cases h
  writer h := by cases h
  pipe h := by cases h
  delegating h := by cases h

/-- Between the `morph` and the end only the stage moves. -/
theorem ReaderOk.stage (hok : ReaderOk morph s) {stage stage' : Stage} {tok rest : Bytes}
    (hreader : s.reader = .switched stage tok rest) (hworking : stage.working) (behind : σ)
    (calls : List (κ × Bytes)) :
    ReaderOk morph
      ({ s with behind := behind, calls := calls, reader := .switched stage' tok rest } :
      State κ σ delim) where
  done h := by
    obtain ⟨_, _, hreturned⟩ := hok.done h
    rw [hreader] at hreturned
    cases hreturned
    exact hworking.elim
  writer h _ _ := by
    cases h
    exact hok.writer hreader hworking.ne.1 hworking.ne.2.1
  pipe h _ := by
    cases h
    exact hok.pipe hreader hworking.ne.1
  delegating h := hok.delegating h

/-- While the reader collects, nobody else looks at it. -/
theorem ReaderOk.collecting (hok : ReaderOk morph s) {c : Collecting delim}
    (hreader : s.reader = .readBytes c)
    {reader : Reader delim} (hnext : ∀ {stage tok rest}, reader = .switched stage tok rest →
      stage = .closePipe)
    (pipe : Pipe) (readerErr : Option IoErr) :
    ReaderOk morph { s with pipe := pipe, reader := reader, readerErr := readerErr } where
  done h := by
    obtain ⟨_, _, hreturned⟩ := hok.done h
    rw [hreader] at hreturned
    cases hreturned
  writer h hclosed _ := (hclosed (hnext h)).elim
  pipe h hclosed := (hclosed (hnext h)).elim
  delegating h := hok.delegating h

/-- Before it is done, `readerDone` is not closed. -/
theorem ReaderOk.notDone (hok : ReaderOk morph s) {stage : Stage} {tok rest : Bytes}
    (hreader : s.reader = .switched stage tok rest) (hstage : stage ≠ .returned) :
      ¬ s.readerDone = true := by
  intro hdone
  obtain ⟨_, _, hreturned⟩ := hok.done hdone
  rw [hreader] at hreturned
  cases hreturned
  exact hstage rfl

/-- A step of the reader keeps it. -/
theorem readerOk_readerStep (hok : ReaderOk morph s) (hstep : readerStep W morph s = some t) :
    ReaderOk morph t := by
  cases readerStep_move hstep with
  | more hreader => exact hok.collecting hreader (fun h => by cases h) _ _
  | line hreader => exact hok.collecting hreader (fun h => by cases h; rfl) _ _
  | noProgress hreader => exact hok.collecting hreader (fun h => by cases h; rfl) _ _
  | eof hreader => exact hok.collecting hreader (fun h => by cases h; rfl) _ _
  | closePipe hreader =>
    refine ⟨fun h => (hok.notDone hreader Stage.noConfusion h).elim, fun h _ hmorphed => ?_,
      fun _ _ => rfl, hok.delegating⟩
    cases h
    exact (hmorphed rfl).elim
  | morph hreader =>
    have hpipe := hok.pipe hreader Stage.noConfusion
    refine ⟨fun h =>
      (hok.notDone hreader Stage.noConfusion h).elim, fun h _ _ => ?_, fun _ _ => hpipe,
      hok.delegating⟩
    cases h
    rfl
  | skipToken hreader => exact hok.stage hreader trivial _ _
  | writeToken hreader => exact hok.stage hreader trivial _ _
  | tokenWritten hreader => exact hok.stage hreader trivial _ _
  | skipBuffered hreader => exact hok.stage hreader trivial _ _
  | copyBuffered hreader => exact hok.stage hreader trivial _ _
  | bufferedCopied hreader => exact hok.stage hreader trivial _ _
  | finish hreader =>
    have hwriter := hok.writer hreader Stage.noConfusion Stage.noConfusion
    have hpipe := hok.pipe hreader Stage.noConfusion
    refine ⟨fun _ => ⟨_, _, rfl⟩, fun h _ _ => ?_, fun _ _ => hpipe, fun _ => rfl⟩
    cases h
    exact hwriter

/-- The caller leaves the reader alone, and its end of the pipe as closed as it was. -/
structure CallerStep (s t : State κ σ delim) : Prop where
  reader : t.reader = s.reader
  writer : t.writer = s.writer
  readerDone : t.readerDone = s.readerDone
  pipe : t.pipe.readClosed = s.pipe.readClosed
  delegating : ∀ {p n}, t.caller = .delegating p n → s.readerDone = true

/-- What a step of the caller can do. -/
theorem callerStep_spec (hstep : callerStep W s = some t) : CallerStep s t := by
  cases callerStep_move hstep with
  | close => exact ⟨rfl, rfl, rfl, rfl, fun h => by cases h⟩
  | refused => exact ⟨rfl, rfl, rfl, rfl, fun h => by cases h⟩
  | offer => exact ⟨rfl, rfl, rfl, rfl, fun h => by cases h⟩
  | piped => exact ⟨rfl, rfl, rfl, rfl, fun h => by cases h⟩
  | withdraw => exact ⟨rfl, rfl, rfl, rfl, fun h => by cases h⟩
  | fail => exact ⟨rfl, rfl, rfl, rfl, fun h => by cases h⟩
  | delegate _ hdone => exact ⟨rfl, rfl, rfl, rfl, fun _ => hdone⟩
  | nilWriter => exact ⟨rfl, rfl, rfl, rfl, fun h => by cases h⟩
  | delegated => exact ⟨rfl, rfl, rfl, rfl, fun h => by cases h⟩
  | closed => exact ⟨rfl, rfl, rfl, rfl, fun h => by cases h⟩

theorem readerOk_callerStep (hok : ReaderOk morph s) (hstep : callerStep W s = some t) :
    ReaderOk morph t := by
  obtain ⟨hreader, hwriter, hdone, hpipe, hdelegating⟩ := callerStep_spec hstep
  refine ⟨fun h => ?_, fun h hclosed hmorphed => ?_, fun h hclosed => ?_, fun h => ?_⟩
  · rw [hreader]
    exact hok.done (hdone ▸ h)
  · rw [hwriter]
    exact hok.writer (hreader ▸ h) hclosed hmorphed
  · rw [hpipe]
    exact hok.pipe (hreader ▸ h) hclosed
  · rw [hdone]
    exact hdelegating h

theorem readerOk_reachable {chunks : List Bytes} {x : σ}
    (h : (morphingWriter delim W morph chunks x).Reachable s) :
    ReaderOk morph s := by
  refine h.invariant (fun s hs => ?_) fun s t _ hok hstep => ?_
  · rw [show s = _ from hs]
    exact readerOk_initial morph chunks x
  · rcases hstep with hstep | hstep | ⟨y, -, rfl⟩
    · exact readerOk_readerStep hok hstep
    · exact readerOk_callerStep hok hstep
    · exact ⟨hok.done, hok.writer, hok.pipe, hok.delegating⟩

/-! ## The two polls -/

/-- Before the reader is done the caller does not touch the writer. -/
theorem callerStep_writer (hok : ReaderOk morph s) (hdone : s.readerDone = false)
    (writer : Option κ) :
    callerStep W { s with writer := writer } = (callerStep W s).map fun t =>
      { t with writer := writer } := by
  unfold callerStep
  cases hcaller : s.caller with
  | idle =>
    dsimp only
    cases htodo : s.todo with
    | nil => rfl
    | cons p todo =>
      dsimp only
      rw [polled_eq_false, if_neg Bool.false_ne_true, if_neg Bool.false_ne_true]
      split
      next => rfl
      next => rfl
  | piping p =>
    dsimp only
    split
    next => rfl
    next =>
      split
      next => rfl
      next => rfl
  | waiting p n =>
    dsimp only
    rw [hdone, if_neg Bool.false_ne_true]
    rfl
  | delegating p n =>
    rw [hok.delegating hcaller] at hdone
    cases hdone
  | closing =>
    dsimp only
    rw [hdone, if_neg Bool.false_ne_true]
    rfl
  | closed => rfl
  | panicked => rfl

/-- After that a `Write` finds its pipe closed, and gets to the writer by way of that. -/
theorem write_after_done (hok : ReaderOk morph s) (hdone : s.readerDone = true) {p : Bytes}
    {todo : List Bytes} (hcaller : s.caller = .idle) (htodo : s.todo = p :: todo) :
    ∃ t, callerStep W s = some t ∧ t.caller = .waiting p 0 ∧
      callerStep W t = some (writeDelegate W t p 0) := by
  obtain ⟨tok, rest, hreader⟩ := hok.done hdone
  have hpipe : s.pipe.done = true := by
    unfold Pipe.done
    rw [hok.pipe hreader Stage.noConfusion]
    rfl
  refine ⟨{ s with todo := todo, caller := .waiting p 0 }, ?_, rfl, ?_⟩
  · unfold callerStep
    rw [hcaller]
    dsimp only
    rw [htodo]
    dsimp only
    rw [polled_eq_false, if_neg Bool.false_ne_true, if_pos hpipe]
  · unfold callerStep
    dsimp only
    rw [if_pos hdone]

/-- **A `MorphingWriter` takes its reader for unfinished for ever**: in every reachable state the
poll tells the truth exactly if the reader is not done. -/
theorem recognisesDone_iff (delim : UInt8) (W : Writers κ σ) (morph : Bytes → κ)
    (chunks : List Bytes) (x : σ)
    (s : State κ σ delim) (h : (morphingWriter delim W morph chunks x).Reachable s) :
    RecognisesDone W morph s ↔ s.readerDone = false := by
  constructor
  · intro hrecognises
    rw [← Bool.not_eq_true]
    intro hdone
    obtain ⟨⟨tok, rest, -, hget⟩, -⟩ := hrecognises.done hdone
    rw [getMorphedWriter_panics] at hget
    cases hget
  · intro hdone
    refine ⟨fun h => ?_, fun _ =>
      ⟨getMorphedWriter_panics s, callerStep_writer (readerOk_reachable h) hdone⟩⟩
    rw [hdone] at h
    cases h

/-- A writer that is closed at once: its reader runs to the end. -/
theorem exists_readerDone : ∃ s : State Unit Unit 10,
    (morphingWriter 10 discarding (fun _ => ()) [] ()).Reachable s ∧ s.readerDone = true := by
  have hclose := System.Reachable.next
    (System.Reachable.start (S := morphingWriter 10 discarding (fun _ => ()) [] ()) (Eq.refl _))
    (Or.inr (Or.inl (Eq.refl _)))
  have hread := hclose.next (Or.inl (Eq.refl _))
  have hclosed := hread.next (Or.inl (Eq.refl _))
  have hmorphed := hclosed.next (Or.inl (Eq.refl _))
  have hwritten := hmorphed.next (Or.inl (Eq.refl _))
  have hcopied := hwritten.next (Or.inl (Eq.refl _))
  have hfinished := hcopied.next (Or.inl (Eq.refl _))
  exact ⟨_, hfinished, rfl⟩

/-- Before the first write, and after the end of the reader. -/
theorem recognisesDone_iff_two :
    (RecognisesDone discarding (fun _ => ()) (initial 10 [[104, 10]] ()) ↔
      (initial 10 [[104, 10]] () : State Unit Unit 10).readerDone = false) ∧
    ∃ s : State Unit Unit 10, (morphingWriter 10 discarding (fun _ => ()) [] ()).Reachable s ∧
      s.readerDone = true ∧ (RecognisesDone discarding (fun _ => ()) s ↔ s.readerDone = false) := by
  refine ⟨recognisesDone_iff 10 discarding (fun _ => ()) [[104, 10]] () _ (.start (Eq.refl _)), ?_⟩
  obtain ⟨s, hs, hdone⟩ := exists_readerDone
  exact ⟨s, hs, hdone, recognisesDone_iff 10 discarding (fun _ => ()) [] () s hs⟩

/-- With the reader done the poll does not say so. -/
theorem recognisesDone_closed :
    ¬ ∀ (s : State Unit Unit 10), (morphingWriter 10 discarding (fun _ => ()) [] ()).Reachable s →
      RecognisesDone discarding (fun _ => ()) s := by
  intro hall
  obtain ⟨s, hs, hdone⟩ := exists_readerDone
  obtain ⟨⟨_, _, -, hget⟩, -⟩ := (hall s hs).done hdone
  rw [getMorphedWriter_panics] at hget
  cases hget

end ShouldIAsync.HarnessIo
