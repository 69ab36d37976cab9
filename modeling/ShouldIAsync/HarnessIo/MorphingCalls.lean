import ShouldIAsync.HarnessIo.MorphingDelivery

/-!
# What a `MorphingWriter` does to the writer behind it

`MorphingDelivery.lean` follows the two goroutines to the end of a run; this file
is the view from behind, for writers that have a state and goroutines of their
own. At most one `Write` is in progress on the morphed writer (`pending`): the
reader goroutine makes its calls before it closes `readerDone`, the caller after.
`readerStep_effect` and `callerStep_effect` say what a step of the two is from there:
it does not touch the morphed writer, it lets a call return, or it enters one.
-/

namespace ShouldIAsync.HarnessIo

open ShouldIAsync.Lib ShouldIAsync.GoStd

variable {κ σ : Type} {delim : UInt8}

/-- The `Write` of the caller that is in progress on the morphed writer. -/
def Caller.pending : Caller → Option Bytes
  | .delegating p _ => some p
  | _ => none

/-- The `Write` of the reader goroutine that is in progress on the morphed writer. -/
def Reader.pending : Reader delim → Option Bytes
  | .switched .writingToken tok _ => some tok
  | .switched (.copyingBuffered _) _ rest => some rest
  | _ => none

/-- The `Write` in progress on the morphed writer. -/
def pending (s : State κ σ delim) : Option Bytes := s.reader.pending.or s.caller.pending

/-- What a step of the two goroutines does to the morphed writer. -/
inductive Effect (W : Writers κ σ) (s t : State κ σ delim) : Prop
  | quiet (hbehind : t.behind = s.behind) (hcalls : t.calls = s.calls)
      (hpending : pending t = pending s)
  | returns (hbehind : t.behind = s.behind) (hcalls : t.calls = s.calls) (p : Bytes)
      (hpending : pending s = some p) (hresult : writerResult W s p ≠ none)
      (hdone : pending t = none)
  | enters (k : κ) (p : Bytes) (hp : p ≠ []) (hw : s.writer = some k) (hidle : pending s = none)
      (hpending : pending t = some p) (hbehind : t.behind = W.call k p s.behind)
      (hcalls : t.calls = s.calls ++ [(k, p)])

/-- While the reader goroutine is at work the caller has no call in progress. -/
theorem caller_pending {morph : Bytes → κ} {chunks : List Bytes} {s : State κ σ delim}
    (h : Inv morph chunks s) (hdone : s.readerDone = false) : s.caller.pending = none := by
  cases hc : s.caller with
  | delegating p n =>
    obtain ⟨-, h⟩ := h
    cases hr : s.reader with
    | readBytes c => simp only [hr, Sending, hc, and_false] at h
    | switched stage tok rest =>
      simp only [hr, Handover, hc] at h
      obtain ⟨-, -, -, -, -, -, -, -, -, -, -, -, hd, -⟩ := h
      rw [hdone] at hd
      cases hd
  | _ => rfl

/-- The reader is done when it has returned. -/
theorem stage_of_readerDone {morph : Bytes → κ} {chunks : List Bytes} {s : State κ σ delim}
    {stage : Stage} {tok rest : Bytes} (h : Inv morph chunks s)
    (hr : s.reader = .switched stage tok rest) : s.readerDone = true ↔ stage = .returned := by
  obtain ⟨-, h⟩ := h
  simp only [hr] at h
  obtain ⟨-, -, -, -, -, -, -, hdone, -⟩ := h
  exact hdone

/-- Once `readerDone` is closed the only calls are the caller's. -/
theorem reader_pending {morph : Bytes → κ} {chunks : List Bytes} {s : State κ σ delim}
    (h : Inv morph chunks s) (hdone : s.readerDone = true) : s.reader.pending = none := by
  cases hr : s.reader with
  | readBytes c => simp only [Reader.pending]
  | switched stage tok rest =>
    obtain rfl := (stage_of_readerDone h hr).mp hdone
    simp only [Reader.pending]

/-- Who delegates has seen that the reader is done. -/
theorem readerDone_of_delegating {morph : Bytes → κ} {chunks : List Bytes} {s : State κ σ delim}
    {p : Bytes} {n : Nat} (h : Inv morph chunks s) (hc : s.caller = .delegating p n) :
    s.readerDone = true := by
  by_contra hnd
  have hnone := caller_pending h (by simpa using hnd)
  rw [hc, Caller.pending] at hnone
  cases hnone

/-- The call of the writer that is under way is the pending one. -/
theorem inCall_iff {morph : Bytes → κ} {chunks : List Bytes} {s : State κ σ delim} {p : Bytes}
    (h : Inv morph chunks s) : InCall s p ↔ pending s = some p := by
  constructor
  · rintro (⟨rest, hr⟩ | ⟨tok, err1, hr⟩ | ⟨n, hc⟩)
    · rw [pending, hr, Reader.pending, Option.some_or]
    · rw [pending, hr, Reader.pending, Option.some_or]
    · rw [pending, reader_pending h (readerDone_of_delegating h hc), Option.none_or, hc,
        Caller.pending]
  · intro hp
    rcases Option.or_eq_some_iff.mp hp with hr | ⟨-, hc⟩
    · unfold Reader.pending at hr
      split at hr
      next tok rest hreader =>
        obtain rfl := Option.some.inj hr
        exact Or.inl ⟨rest, hreader⟩
      next err1 tok rest hreader =>
        obtain rfl := Option.some.inj hr
        exact Or.inr (Or.inl ⟨tok, err1, hreader⟩)
      · cases hr
    · unfold Caller.pending at hc
      split at hc
      next q n hcaller =>
        obtain rfl := Option.some.inj hc
        exact Or.inr (Or.inr ⟨n, hcaller⟩)
      · cases hc

/-- A step of the reader goroutine, from behind. -/
theorem readerStep_effect {W : Writers κ σ} {morph : Bytes → κ} {chunks : List Bytes}
    {s t : State κ σ delim} (h : Inv morph chunks s) (hstep : readerStep W morph s = some t) :
    Effect W s t := by
  have hidle : ∀ {stage tok rest}, s.reader = .switched stage tok rest → stage ≠ .returned →
      s.caller.pending = none := by
    intro stage tok rest hr hst
    apply caller_pending h
    cases hd : s.readerDone with
    | false => rfl
    | true => exact absurd ((stage_of_readerDone h hr).mp hd) hst
  -- a step between two statements that are not calls
  have hquiet : ∀ t : State κ σ delim, t.behind = s.behind → t.calls = s.calls →
      t.caller = s.caller → s.reader.pending = none → t.reader.pending = none →
      Effect W s t := by
    intro t hbehind hcalls hc hs ht
    refine .quiet hbehind hcalls ?_
    rw [pending, hc, ht, pending, hs]
  cases readerStep_move hstep with
  | more hr =>
    exact hquiet _ rfl rfl rfl (by simp only [hr, Reader.pending]) (by simp only [Reader.pending])
  | line hr =>
    exact hquiet _ rfl rfl rfl (by simp only [hr, Reader.pending]) (by simp only [Reader.pending])
  | noProgress hr =>
    exact hquiet _ rfl rfl rfl (by simp only [hr, Reader.pending]) (by simp only [Reader.pending])
  | eof hr =>
    exact hquiet _ rfl rfl rfl (by simp only [hr, Reader.pending]) (by simp only [Reader.pending])
  | closePipe hr =>
    exact hquiet _ rfl rfl rfl (by simp only [hr, Reader.pending]) (by simp only [Reader.pending])
  | morph hr =>
    exact hquiet _ rfl rfl rfl (by simp only [hr, Reader.pending]) (by simp only [Reader.pending])
  | skipToken hr =>
    exact hquiet _ rfl rfl rfl (by simp only [hr, Reader.pending]) (by simp only [Reader.pending])
  | @writeToken tok _ k hr htok hw =>
    refine .enters k tok htok hw ?_ ?_ rfl rfl
    · rw [pending, hidle hr Stage.noConfusion, hr, Option.or_none]
      simp only [Reader.pending]
    · simp only [pending, Reader.pending, Option.some_or]
  | @tokenWritten tok _ res hr hres =>
    refine .returns rfl rfl tok ?_ (by rw [hres]; exact Option.some_ne_none _) ?_
    · simp only [pending, hr, Reader.pending, Option.some_or]
    · simp only [pending, Reader.pending, hidle hr Stage.noConfusion, Option.none_or]
  | skipBuffered hr =>
    exact hquiet _ rfl rfl rfl (by simp only [hr, Reader.pending]) (by simp only [Reader.pending])
  | @copyBuffered _ rest _ k hr hrest hw =>
    refine .enters k rest hrest hw ?_ ?_ rfl rfl
    · rw [pending, hidle hr Stage.noConfusion, hr, Option.or_none]
      simp only [Reader.pending]
    · simp only [pending, Reader.pending, Option.some_or]
  | @bufferedCopied _ rest _ res hr hres =>
    refine .returns rfl rfl rest ?_ (by rw [hres]; exact Option.some_ne_none _) ?_
    · simp only [pending, hr, Reader.pending, Option.some_or]
    · simp only [pending, Reader.pending, hidle hr Stage.noConfusion, Option.none_or]
  | finish hr =>
    exact hquiet _ rfl rfl rfl (by simp only [hr, Reader.pending]) (by simp only [Reader.pending])

/-- A chunk that waits to be delegated is one of the chunks. -/
theorem waiting_mem {morph : Bytes → κ} {chunks : List Bytes} {s : State κ σ delim} {p : Bytes}
    {n : Nat} (h : Inv morph chunks s) (hc : s.caller = .waiting p n) : p ∈ chunks := by
  obtain ⟨-, h⟩ := h
  cases hr : s.reader with
  | readBytes c => simp only [hr, Sending, hc, and_false] at h
  | switched stage tok rest =>
    simp only [hr, Handover, hc] at h
    obtain ⟨d, t, n', extra, hsw, -, -, -, -, -, -, -, -, ht, -⟩ := h
    rw [hsw.chunks_eq, ht]
    simp

/-- A step of the caller, from behind. -/
theorem callerStep_effect {W : Writers κ σ} {morph : Bytes → κ} {chunks : List Bytes}
    {s t : State κ σ delim} (hne : ∀ p ∈ chunks, p ≠ []) (h : Inv morph chunks s)
    (hstep : callerStep W s = some t) : Effect W s t := by
  -- a step between two program counters without a call
  have hquiet : ∀ t : State κ σ delim, t.behind = s.behind → t.calls = s.calls →
      t.reader = s.reader → s.caller.pending = none → t.caller.pending = none →
      Effect W s t := by
    intro t hbehind hcalls hr hs ht
    refine .quiet hbehind hcalls ?_
    rw [pending, hr, ht, pending, hs]
  cases callerStep_move hstep with
  | close hc =>
    exact hquiet _ rfl rfl rfl (by simp only [hc, Caller.pending]) (by simp only [Caller.pending])
  | refused hc =>
    exact hquiet _ rfl rfl rfl (by simp only [hc, Caller.pending]) (by simp only [Caller.pending])
  | offer hc =>
    exact hquiet _ rfl rfl rfl (by simp only [hc, Caller.pending]) (by simp only [Caller.pending])
  | piped hc =>
    exact hquiet _ rfl rfl rfl (by simp only [hc, Caller.pending])
      (by simp only [returnWrite, Caller.pending])
  | withdraw hc =>
    exact hquiet _ rfl rfl rfl (by simp only [hc, Caller.pending]) (by simp only [Caller.pending])
  | fail hc =>
    exact hquiet _ rfl rfl rfl (by simp only [hc, Caller.pending])
      (by simp only [returnWrite, Caller.pending])
  | @delegate p n k hc hdone _ hw =>
    have hrp := reader_pending h hdone
    refine .enters k p (hne p (waiting_mem h hc)) hw ?_ ?_ rfl rfl
    · simp only [pending, hrp, hc, Caller.pending, Option.none_or]
    · simp only [pending, hrp, Caller.pending, Option.none_or]
  | nilWriter hc =>
    exact hquiet _ rfl rfl rfl (by simp only [hc, Caller.pending]) (by simp only [Caller.pending])
  | @delegated p n res hc hres =>
    have hrp := reader_pending h (readerDone_of_delegating h hc)
    refine .returns rfl rfl p ?_ (by rw [hres]; exact Option.some_ne_none _) ?_
    · rw [pending, hrp, hc, Caller.pending, Option.none_or]
    · simp only [pending, returnWrite, hrp, Caller.pending, Option.none_or]
  | closed hc =>
    exact hquiet _ rfl rfl rfl (by simp only [hc, Caller.pending]) (by simp only [Caller.pending])

/-- The invariant of the two goroutines does not look behind the morphed writer. -/
theorem Inv.behind {morph : Bytes → κ} {chunks : List Bytes} {s : State κ σ delim}
    (h : Inv morph chunks s) (x : σ) : Inv morph chunks { s with behind := x } := by
  unfold Inv Sending Handover at h ⊢
  exact h

/-! ## The calls so far -/

/-- What has been delegated is the front of what comes after the switch. -/
theorem Handover.extra_prefix {d t extra : List Bytes} {n : Nat} {s : State κ σ delim}
    (h : Handover d t n s extra) : extra <+: t := by
  unfold Handover at h
  split at h
  next => exact ⟨s.todo, h.2.1.symm⟩
  next =>
    rw [h.1]
    exact List.nil_prefix
  next p m _ => exact ⟨p :: s.todo, h.2.2.1.symm⟩
  next =>
    obtain ⟨-, -, deleg, -, -, ht, -⟩ := h
    exact ⟨s.todo, ht.symm⟩
  next => exact h.2.2.1 ▸ List.prefix_rfl
  next => exact h.1 ▸ List.prefix_rfl
  next => exact h.elim

/-- The calls of the reader are the front of the token and the rest. -/
theorem Stage.calls_prefix (tok rest : Bytes) (stage : Stage) :
    (stage.calls tok rest).flatten <+: tok ++ rest := by
  cases stage <;> simp [Stage.calls]

/-- All calls are made on the one writer that `morph` built, and unless a chunk is
cut by the switch they make up a front of the stream. -/
theorem calls_front {morph : Bytes → κ} {chunks : List Bytes} {s : State κ σ delim}
    (h : Inv morph chunks s) :
    ∃ writes : List Bytes, s.calls = writes.map (morph (firstToken delim chunks.flatten), ·) ∧
      (switchFits delim 0 chunks = true → writes.flatten <+: chunks.flatten) := by
  obtain ⟨-, h⟩ := h
  cases hr : s.reader with
  | readBytes c =>
    simp only [hr] at h
    obtain ⟨-, -, hcalls, -⟩ := h
    exact ⟨[], hcalls, fun _ => List.nil_prefix⟩
  | switched stage tok rest =>
    simp only [hr] at h
    obtain ⟨d, t, n, extra, hsw, -, -, -, -, hextra, hcalls, hhand⟩ := h
    refine ⟨stage.calls tok rest ++ extra, by rw [← hsw.tok_eq]; exact hcalls, fun hfits => ?_⟩
    have hread := hsw.read
    rw [hsw.eq_zero_iff.mpr hfits, List.take_zero, List.append_nil] at hread
    have hstream : chunks.flatten = tok ++ rest ++ t.flatten := by
      rw [hread, hsw.chunks_eq, List.flatten_append]
    rw [hstream, List.flatten_append]
    by_cases hst : stage = .returned
    · obtain ⟨u, hu⟩ := hhand.extra_prefix
      refine ⟨u.flatten, ?_⟩
      rw [hst, ← hu, Stage.calls]
      simp
    · rw [hextra hst, List.flatten_nil, List.append_nil]
      exact (Stage.calls_prefix tok rest stage).trans (List.prefix_append _ _)

end ShouldIAsync.HarnessIo
