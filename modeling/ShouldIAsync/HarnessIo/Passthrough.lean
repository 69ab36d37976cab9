import ShouldIAsync.HarnessIo.LogLines

/-!
# What `Close` leaves behind in passthrough mode

A JSON log is passed to the `ScanningWriter`, whose `Write` returns when the
scanning goroutine has *taken* the bytes. `MorphingWriter.Close` waits for its own
reader goroutine and nothing else: the `ScanningWriter` behind it is never closed
and its goroutine not waited for. So when `Close` has returned, the lines are with
the downstream writer exactly if that goroutine happens to have nothing left
(`delivered_iff_drained`), and for every such output there is a run where it has
(`exists_undelivered`): the scheduler that withholds the write of the last line.
The end of an output that does not end in a newline is not even a token for the
scanner, which never sees the end of the stream.
-/

namespace ShouldIAsync.HarnessIo

open ShouldIAsync.Lib ShouldIAsync.GoStd

/-- The lines of the stream have been written downstream, once and in order. -/
def Delivered (chunks : List Bytes) (s : State Output OutputState newline) : Prop :=
  s.behind.scanning.out = (splitLines chunks.flatten).map forwarded

/-- `Close` has returned nil. -/
def ClosedNil (s : State Output OutputState newline) : Prop :=
  s.caller = .closed ∧ s.closeResult = some none

/-- The goroutine has no byte unread and no line in hand. -/
def Drained (s : ScanState) : Prop := s.scanner.data = [] ∧ ∀ bytes, s.pc ≠ .writing bytes

/-- An output that is a JSON log, as the writer is given it. -/
structure JsonOutput (unmarshal : Bytes → Option (Option (List String))) (chunks : List Bytes) :
    Prop where
  nonempty : ∀ p ∈ chunks, p ≠ []
  json : IsJsonLog unmarshal (firstToken newline chunks.flatten)
  short : Short chunks.flatten
  small : ∀ p ∈ chunks, p.length ≤ defaultBufSize
  first : newline ∈ chunks.headD []

/-! ## The scanning goroutine -/

/-- The lines of terminated lines are these lines. -/
theorem splitLines_terminated {ls : List Bytes} (hls : ∀ l ∈ ls, newline ∉ l) (rest : Bytes) :
    splitLines ((ls.map (· ++ [newline])).flatten ++ rest) = ls ++ splitLines rest := by
  induction ls with
  | nil => rw [List.map_nil, List.flatten_nil, List.nil_append, List.nil_append]
  | cons l ls ih =>
    have hl := hls l (List.mem_cons_self ..)
    have htail := ih fun l' hl' => hls l' (List.mem_cons_of_mem _ hl')
    have hsplit : ((l :: ls).map (· ++ [newline])).flatten ++ rest =
        l ++ newline :: ((ls.map (· ++ [newline])).flatten ++ rest) := by simp
    rw [hsplit, splitLines_newline hl, htail, List.cons_append]

/-- Only nothing has no lines. -/
theorem splitLines_eq_nil {s : Bytes} : splitLines s = [] ↔ s = [] := by
  constructor
  · intro h
    rcases splitLines_cases s with hs | ⟨l, rest, hl, rfl⟩
    · by_contra hne
      rw [splitLines_of_not_mem hs hne] at h
      cases h
    · rw [splitLines_newline hl] at h
      cases h
  · rintro rfl
    rw [splitLines]

/-- With nothing on offer, everything is forwarded exactly if nothing is left. -/
theorem ScanInv.forwarded_iff {s : ScanState} {given : Bytes} (h : ScanInv s given)
    (hoff : s.pipe.offer = none) : s.out = (splitLines given).map forwarded ↔ Drained s := by
  obtain ⟨-, -, -, ls, hls, hgiven, hpc⟩ := h
  rw [hoff, Option.getD_none, List.append_nil] at hgiven
  rw [hgiven, splitLines_terminated hls, List.map_append, Drained]
  split at hpc
  next hs =>
    rw [hpc]
    simp [splitLines_eq_nil, hs]
  next loop hs =>
    rw [hpc.1]
    simp [splitLines_eq_nil, hs]
  next bytes hs =>
    -- the line in hand is missing
    constructor
    · intro hout
      rw [hout] at hpc
      have hlen := congrArg List.length hpc
      simp only [List.length_append, List.length_cons, List.length_nil] at hlen
      omega
    · intro hdrained
      exact absurd hs (hdrained.2 bytes)
  all_goals exact hpc.elim

/-- Only a write makes a difference downstream. -/
theorem scanStep_out {split : SplitFunc} {outputDelimeter : Bytes}
    {writer : List Bytes → Bytes → Option IoErr} {s t : ScanState}
    (hstep : scanStep split outputDelimeter writer s = some t) :
    t.out = s.out ∨ ∃ bytes, s.pc = .writing bytes ∧ t.out = s.out ++ [bytes] := by
  cases scanStep_move hstep with
  | token | room | ended | empty | noProgress | fill | closed | close | finish => exact Or.inl rfl
  | written hs | failed hs => exact Or.inr ⟨_, hs, rfl⟩

/-- The goroutine only blocks for want of bytes. -/
theorem ScanInv.blocked {writer : List Bytes → Bytes → Option IoErr} {s : ScanState} {given : Bytes}
    (h : ScanInv s given) (hstep : scanStep scanLines [newline] writer s = none) :
    s.pipe.offer = none := by
  rcases scanStep_eq_none hstep with hs | ⟨-, -, hoffer⟩
  · obtain ⟨-, -, -, ls, -, -, hpc⟩ := h
    rw [hs] at hpc
    exact hpc.elim
  · exact hoffer

/-- With a line in hand and bytes on offer, the line in hand is not the stream's last. -/
theorem ScanInv.more_lines {s : ScanState} {given bytes b : Bytes} (h : ScanInv s given)
    (rest : Bytes) (hpc : s.pc = .writing bytes) (hoff : s.pipe.offer = some b) :
    s.out.length + 1 < (splitLines (given ++ rest)).length := by
  have hb : b ≠ [] := by
    rintro rfl
    exact h.offers hoff
  obtain ⟨-, -, -, ls, hls, hgiven, hlines⟩ := h
  rw [hpc] at hlines
  have hlen := congrArg List.length hlines
  rw [List.length_append, List.length_map, List.length_singleton] at hlen
  have hpos : 0 < (splitLines (s.scanner.data ++ b ++ rest)).length := by
    rw [List.length_pos_iff, ne_eq, splitLines_eq_nil]
    simp [hb]
  have hsplit : splitLines (given ++ rest) = ls ++ splitLines (s.scanner.data ++ b ++ rest) := by
    rw [hgiven, hoff, Option.getD_some, List.append_assoc, List.append_assoc,
      splitLines_terminated hls, List.append_assoc]
  rw [hsplit, List.length_append]
  omega

/-! ## A closed writer -/

section Run

variable {unmarshal : Bytes → Option (Option (List String))} {wrapper : LogWrapper}
  {downstream : List Bytes → Bytes → Option IoErr} {chunks : List Bytes}
  {s t : State Output OutputState newline}

/-- Lines of JSON that fit can be passed on. -/
theorem JsonOutput.passable (h : JsonOutput unmarshal chunks)
    (hdown : ∀ out bytes, downstream out bytes = none) : Passable downstream chunks where
  fits := by
    have hfirst := h.first
    cases hc : chunks with
    | nil =>
      rw [hc] at hfirst
      cases hfirst
    | cons p ps =>
      rw [hc, List.headD_cons] at hfirst
      rw [switchFits]
      split
      next hcut => exact absurd hfirst (cut_eq_none.mp hcut)
      next line rest hcut =>
        have hsmall := h.small p (by rw [hc]; simp)
        rw [decide_eq_true_eq]
        unfold blockEnd
        unfold defaultBufSize at hsmall ⊢
        omega
  short := h.short
  accepts := hdown

/-- There is something to pass on. -/
theorem JsonOutput.stream_ne_nil (h : JsonOutput unmarshal chunks) : chunks.flatten ≠ [] := by
  have hfirst := h.first
  cases hc : chunks with
  | nil =>
    rw [hc] at hfirst
    cases hfirst
  | cons p ps =>
    have hp := h.nonempty p (by rw [hc]; simp)
    simp [hp]

theorem JsonOutput.outputOf (h : JsonOutput unmarshal chunks) :
    outputOf unmarshal chunks.flatten = .passthrough :=
  morphOutput_eq_passthrough.mpr h.json

theorem JsonOutput.reachable (h : JsonOutput unmarshal chunks)
    (hdown : ∀ out bytes, downstream out bytes = none)
    (hs : (createOutputWriter unmarshal wrapper downstream chunks).Reachable s) :
    Inv (morphOutput unmarshal) chunks s ∧ OutputInv wrapper .passthrough s := by
  have := output_reachable h.nonempty (fun _ => h.passable hdown) hs
  rw [h.outputOf] at this
  exact this

/-- When `Close` has returned, the scanning goroutine has been given the whole stream. -/
theorem given_of_closed (h : JsonOutput unmarshal chunks)
    (hfits : switchFits newline 0 chunks = true)
    (hinv : Inv (morphOutput unmarshal) chunks s) (hclosed : s.caller = .closed) :
    scanned s.calls = chunks.flatten ∧ pending s = none := by
  obtain ⟨-, hinv⟩ := hinv
  cases hr : s.reader with
  | readBytes c =>
    simp only [hr, Sending, hclosed] at hinv
    exact hinv.2.2.2.elim
  | switched stage tok rest =>
    simp only [hr, Handover, hclosed] at hinv
    obtain ⟨d, t, n, extra, hsw, -, -, hdone, -, -, hcalls, rfl, -, hrd, -⟩ := hinv
    obtain rfl := hdone.mp hrd
    have hread := hsw.read
    rw [hsw.eq_zero_iff.mpr hfits, List.take_zero, List.append_nil] at hread
    have htok : morphOutput unmarshal tok = .passthrough := by
      rw [hsw.tok_eq]
      exact h.outputOf
    refine ⟨?_, ?_⟩
    · rw [hcalls, htok, scanned_passthrough, Stage.calls, List.flatten_append, List.flatten_append,
        flatten_asWrite, flatten_asWrite, hread, ← List.flatten_append, hsw.chunks_eq]
    · rw [pending, hr, hclosed]
      simp only [Reader.pending, Caller.pending, Option.none_or]

/-- **Close promises nothing about the goroutine.** Once `Close` has returned nil, the
lines are downstream exactly if the goroutine has nothing left. -/
theorem delivered_iff_drained (h : JsonOutput unmarshal chunks)
    (hdown : ∀ out bytes, downstream out bytes = none)
    (hs : (createOutputWriter unmarshal wrapper downstream chunks).Reachable s)
    (hclosed : ClosedNil s) : Delivered chunks s ↔ Drained s.behind.scanning := by
  obtain ⟨hinv, hout⟩ := h.reachable hdown hs
  obtain ⟨hgiven, hidle⟩ := given_of_closed h (h.passable hdown).fits hinv hclosed.1
  have hoff : s.behind.scanning.pipe.offer = none := by
    have := hout.offers
    rw [scanPending, hidle] at this
    exact this
  have hscan := hout.scan
  rw [hgiven] at hscan
  exact hscan.forwarded_iff hoff

/-! ## The scheduler that withholds the last line -/

/-- The runs in which fewer than `n` lines are written downstream. -/
def withholding (S : System (State Output OutputState newline)) (n : Nat) :
    System (State Output OutputState newline) where
  init := S.init
  step s t := S.step s t ∧ t.behind.scanning.out.length < n

/-- A run that withholds is a run. -/
theorem withholding_reachable {S : System (State Output OutputState newline)} {n : Nat}
    (h : (withholding S n).Reachable s) : S.Reachable s := by
  refine h.mono ?_ ?_
  · intro s h0
    exact h0
  · rintro s t ⟨hst, -⟩
    exact hst

/-- The effect on the destination is the one on its scanner. -/
theorem Effect.out_eq (h : Effect (outputs wrapper downstream) s t) :
    t.behind.scanning.out = s.behind.scanning.out := by
  cases h with
  | quiet hbehind => rw [hbehind]
  | returns hbehind => rw [hbehind]
  | enters k p hp hw hidle hpending hbehind =>
    rw [hbehind]
    cases k <;> rfl

/-- Withholding the last line blocks nobody else. -/
theorem withholding_halted (h : JsonOutput unmarshal chunks)
    (hdown : ∀ out bytes, downstream out bytes = none)
    (hinv : Inv (morphOutput unmarshal) chunks s) (hout : OutputInv wrapper .passthrough s)
    (hlt : s.behind.scanning.out.length < (splitLines chunks.flatten).length)
    (hstuck : (withholding (createOutputWriter unmarshal wrapper downstream chunks)
      (splitLines chunks.flatten).length).Stuck s) :
    Halted (outputs wrapper downstream) (morphOutput unmarshal) s ∧
      CallsReturn (outputs wrapper downstream) s := by
  refine ⟨⟨?_, ?_⟩, ?_⟩
  · cases hr : readerStep (outputs wrapper downstream) (morphOutput unmarshal) s with
    | none => rfl
    | some t =>
      refine absurd ⟨Or.inl hr, ?_⟩ (hstuck t)
      rw [(readerStep_effect hinv hr).out_eq]
      exact hlt
  · cases hc : callerStep (outputs wrapper downstream) s with
    | none => rfl
    | some t =>
      refine absurd ⟨Or.inr (Or.inl hc), ?_⟩ (hstuck t)
      rw [(callerStep_effect h.nonempty hinv hc).out_eq]
      exact hlt
  · intro p hcall
    have hp := (inCall_iff hinv).mp hcall
    rw [writerResult, writer_of_pending hinv hp, h.outputOf, Option.bind_some]
    -- a call that cannot return offers bytes, and the goroutine would take them
    suffices hoff : s.behind.scanning.pipe.offer = none by
      rw [(hout.result_iff rfl hp (accepted p)).mpr ⟨hoff, rfl⟩]
      simp
    cases hstep : scanStep scanLines [newline] downstream s.behind.scanning with
    | none => exact hout.scan.blocked hstep
    | some sc =>
      by_contra hoff
      obtain ⟨b, hb⟩ := Option.ne_none_iff_exists'.mp hoff
      refine hstuck { s with behind := { s.behind with scanning := sc } }
        ⟨Or.inr (Or.inr ⟨_, ⟨sc, hstep, rfl⟩, rfl⟩), ?_⟩
      show sc.out.length < _
      rcases scanStep_out hstep with hsame | ⟨bytes, hpc, hwritten⟩
      · rw [hsame]
        exact hlt
      · obtain ⟨writes, hcalls, hfront⟩ := calls_of_inv hinv
        obtain ⟨rest, hrest⟩ := hfront (h.passable hdown).fits
        have hmore := hout.scan.more_lines rest hpc hb
        rw [hcalls, h.outputOf, scanned_passthrough, hrest] at hmore
        rw [hwritten, List.length_append, List.length_singleton]
        exact hmore

/-- **A line left behind.** For every JSON log there is a run in which `Close` returns
nil before the last line is written. -/
theorem exists_undelivered (h : JsonOutput unmarshal chunks)
    (hdown : ∀ out bytes, downstream out bytes = none) :
    ∃ s, (createOutputWriter unmarshal wrapper downstream chunks).Reachable s ∧ ClosedNil s ∧
      ¬ Delivered chunks s := by
  let S := createOutputWriter unmarshal wrapper downstream chunks
  let n := (splitLines chunks.flatten).length
  have hn : 0 < n := by
    rw [List.length_pos_iff, ne_eq, splitLines_eq_nil]
    exact h.stream_ne_nil
  obtain ⟨s, hs, hstuck, -⟩ := System.exists_stuck wellFounded_lt outputWeight
    (fun s t hs hst => output_step_weight h.nonempty (fun _ => h.passable hdown)
      (withholding_reachable hs) hst.1)
    (.start (Eq.refl _) : (withholding S n).Reachable (initial newline chunks {}))
  have hlt : s.behind.scanning.out.length < n := by
    refine hs.invariant (P := fun s => s.behind.scanning.out.length < n) ?_ ?_
    · rintro s rfl
      exact hn
    · rintro s t - - ⟨-, hst⟩
      exact hst
  obtain ⟨hinv, hout⟩ := h.reachable hdown (withholding_reachable hs)
  obtain ⟨hhalt, hret⟩ := withholding_halted h hdown hinv hout hlt hstuck
  obtain ⟨-, -, -, -, -, -, hclosed, hclose, -⟩ := halted_outcome hret hinv hhalt
  refine ⟨s, withholding_reachable hs, ⟨hclosed, hclose⟩, fun hall => ?_⟩
  rw [hall, List.length_map] at hlt
  exact Nat.lt_irrefl _ hlt

/-- A last line without a newline never gets out. -/
theorem Delivered.terminated (h : JsonOutput unmarshal chunks)
    (hdown : ∀ out bytes, downstream out bytes = none)
    (hs : (createOutputWriter unmarshal wrapper downstream chunks).Reachable s)
    (hclosed : ClosedNil s) (hall : Delivered chunks s) :
    chunks.flatten.getLast? = some newline := by
  obtain ⟨hinv, hout⟩ := h.reachable hdown hs
  obtain ⟨hgiven, hidle⟩ := given_of_closed h (h.passable hdown).fits hinv hclosed.1
  have hdata := ((delivered_iff_drained h hdown hs hclosed).mp hall).1
  have hoff : s.behind.scanning.pipe.offer = none := by
    have := hout.offers
    rw [scanPending, hidle] at this
    exact this
  obtain ⟨ls, -, hlines, -⟩ := hout.scan.lines
  rw [hgiven, hdata, hoff, Option.getD_none, List.append_nil, List.append_nil] at hlines
  have hne := h.stream_ne_nil
  rw [hlines] at hne ⊢
  rcases List.eq_nil_or_concat ls with rfl | ⟨ls, l, rfl⟩
  · exact absurd (Eq.refl _) hne
  · simp

end Run

/-! ## The payoff -/

/-- **No output is safe at Close.** For every JSON log, however it is written: when
`Close` has returned nil the lines are with the downstream writer exactly if the
scanning goroutine has nothing left, which takes a newline at the end of the stream;
and in some run it has not. -/
theorem outputWriter_close_leaves_output (unmarshal : Bytes → Option (Option (List String)))
    (wrapper : LogWrapper) (downstream : List Bytes → Bytes → Option IoErr)
    (hdown : ∀ out bytes, downstream out bytes = none) (chunks : List Bytes)
    (h : JsonOutput unmarshal chunks) :
    (∀ s, (createOutputWriter unmarshal wrapper downstream chunks).Reachable s → ClosedNil s →
      (Delivered chunks s ↔ Drained s.behind.scanning) ∧
        (Delivered chunks s → chunks.flatten.getLast? = some newline)) ∧
      ∃ s, (createOutputWriter unmarshal wrapper downstream chunks).Reachable s ∧ ClosedNil s ∧
        ¬ Delivered chunks s := by
  refine ⟨?_, exists_undelivered h hdown⟩
  intro s hs hclosed
  exact ⟨delivered_iff_drained h hdown hs hclosed, fun hall => hall.terminated h hdown hs hclosed⟩

/-- A log record of time 0, level 0 and message 0, with its newline. -/
def jsonLine : Bytes :=
  [123, 34, 116, 105, 109, 101, 34, 58, 48, 44, 34, 108, 101, 118, 101, 108, 34, 58, 48, 44, 34,
    109, 115, 103, 34, 58, 48, 125, 10]

/-- What `json.Unmarshal` makes of `jsonLine`. -/
def jsonKeys (line : Bytes) : Option (Option (List String)) :=
  if line = jsonLine then some (some ["time", "level", "msg"]) else none

theorem jsonOutput_jsonLine : JsonOutput jsonKeys [jsonLine] where
  nonempty := by decide
  json := ⟨["time", "level", "msg"], by decide, by decide, by decide, by decide⟩
  short := Short.of_length (by decide)
  small := by decide
  first := by decide

theorem outputWriter_close_leaves_record :
    (∀ out bytes, (fun _ _ => none : List Bytes → Bytes → Option IoErr) out bytes = none) ∧
      JsonOutput jsonKeys [jsonLine] ∧
      ∃ s, (createOutputWriter jsonKeys (createLogWrapper 0 "stdout") (fun _ _ => none)
        [jsonLine]).Reachable s ∧ ClosedNil s ∧ ¬ Delivered [jsonLine] s :=
  ⟨fun _ _ => rfl, jsonOutput_jsonLine,
    (outputWriter_close_leaves_output jsonKeys (createLogWrapper 0 "stdout") (fun _ _ => none)
      (fun _ _ => rfl) [jsonLine] jsonOutput_jsonLine).2⟩

/-- One record in one write: a run closes the writer before the record is out. -/
theorem outputWriter_record_left :
    ¬ ∀ s, (createOutputWriter jsonKeys (createLogWrapper 0 "stdout") (fun _ _ => none)
      [jsonLine]).Reachable s → ClosedNil s → Delivered [jsonLine] s := by
  intro hall
  have hleft : ∃ s, (createOutputWriter jsonKeys (createLogWrapper 0 "stdout") (fun _ _ => none)
      [jsonLine]).Reachable s ∧ ClosedNil s ∧ ¬ Delivered [jsonLine] s :=
    exists_undelivered jsonOutput_jsonLine fun _ _ => Eq.refl _
  obtain ⟨s, hs, hclosed, hnot⟩ := hleft
  exact hnot (hall s hs hclosed)

end ShouldIAsync.HarnessIo
