import ShouldIAsync.HarnessIo.OutputWriter
import ShouldIAsync.Lib.Span

/-!
# What the log shows of an output

In log mode an entry is made for each `Write` that reaches the `LoggingWriter`, and
what these are follows from the cut: the first line, what else had been read with
it, and from there on each chunk as it was written. `writeSpans` computes them from
the chunks, as spans of the stream.

The entries are the lines of the stream exactly when these spans are
(`AlignedWrites`): each one starts where its line starts and ends, newlines and
carriage returns aside, where its line ends. Nothing but the first newline is
looked for, so this is up to how the command happens to write.
-/

namespace ShouldIAsync.HarnessIo

open ShouldIAsync.Lib ShouldIAsync.GoStd

/-! ## The spans -/

/-- The writes made on the `LoggingWriter`, when the first chunk starts at `off` and
no newline has come before it: up to the newline, the rest of what `ReadBytes` had
read, and the chunks after that read; a chunk not read to its end is repeated. -/
def writeSpansFrom : Nat → List Bytes → List Span
  | off, [] => if off = 0 then [] else [⟨0, off⟩]
  | off, p :: ps =>
    match cut newline p with
    | none => writeSpansFrom (off + p.length) ps
    | some (line, _) =>
      let tokenEnd := off + line.length
      let chunkEnd := off + p.length
      let readEnd := min chunkEnd (blockEnd (tokenEnd - 1))
      ⟨0, tokenEnd⟩ :: (if readEnd = tokenEnd then [] else [⟨tokenEnd, readEnd - tokenEnd⟩]) ++
        if readEnd < chunkEnd then consecutive off (p :: ps) else consecutive chunkEnd ps

/-- Where the writes lie in the stream. -/
def writeSpans (chunks : List Bytes) : List Span := writeSpansFrom 0 chunks

/-- The lines of a stream with their newlines, as spans. -/
def lineSpans (stream : Bytes) : List Span := consecutive 0 (terminatedLines stream)

/-- The writes are the lines: one by one they start and end together, up to trailing
newlines and carriage returns, or are blank. -/
def AlignedWrites (chunks : List Bytes) : Prop :=
  List.Forall₂ (Match inCutset chunks.flatten) (writeSpans chunks) (lineSpans chunks.flatten)

instance (s : Bytes) (r r' : Span) : Decidable (Match inCutset s r r') :=
  inferInstanceAs (Decidable (_ ∨ _))

/-- Writes without a newline have no spans. -/
theorem writeSpansFrom_append {d t : List Bytes} (hd : newline ∉ d.flatten) :
    ∀ off : Nat, writeSpansFrom off (d ++ t) = writeSpansFrom (off + d.flatten.length) t := by
  induction d with
  | nil => intro off; simp
  | cons p ps ih =>
    intro off
    rw [List.flatten_cons, List.mem_append, not_or] at hd
    rw [List.cons_append, writeSpansFrom, cut_eq_none.mpr hd.1, ih hd.2, List.flatten_cons,
      List.length_append, Nat.add_assoc]

/-- The spans of the writes from the chunk that holds the first newline. -/
theorem writeSpansFrom_cut {off : Nat} {p line rest more : Bytes} {ps : List Bytes} {n : Nat}
    (hcut : cut newline p = some (line, more)) (hrest : p.take n = line ++ rest)
    (hn : min (off + p.length) (blockEnd (off + line.length - 1)) = off + n) (hle : n ≤ p.length) :
    writeSpansFrom off (p :: ps) =
      ⟨0, off + line.length⟩ :: consecutive (off + line.length) (asWrite rest) ++
        if n < p.length then consecutive off (p :: ps) else consecutive (off + p.length) ps := by
  have hlen : n = line.length + rest.length := by
    have := congrArg List.length hrest
    rw [List.length_take, Nat.min_eq_left hle, List.length_append] at this
    exact this
  rw [writeSpansFrom, hcut]
  simp only [hn]
  congr 1
  · by_cases hr : rest = []
    · rw [asWrite, if_pos hr, if_pos (by rw [hlen, hr]; simp), consecutive]
    · have hpos := List.length_pos_iff.mpr hr
      rw [asWrite, if_neg hr, if_neg (by omega), consecutive, consecutive,
        show off + n - (off + line.length) = rest.length by omega]
  · by_cases hlt : n < p.length
    · rw [if_pos hlt, if_pos (by omega)]
    · rw [if_neg hlt, if_neg (by omega)]

/-- The chunk that holds the first newline, and how much of it was read: all of it,
or up to the end of the block. -/
theorem SwitchAt.chunk {chunks d t : List Bytes} {n : Nat} {pre rest : Bytes}
    (h : SwitchAt newline chunks d t n (pre ++ [newline]) rest)
    (hle : (pre ++ [newline] ++ rest).length ≤ blockEnd pre.length) :
    ∃ d' p ps m, chunks = d' ++ p :: ps ∧ newline ∉ d'.flatten ∧ m ≤ p.length ∧
      pre ++ [newline] ++ rest = d'.flatten ++ p.take m ∧
      min (d'.flatten.length + p.length) (blockEnd pre.length) = d'.flatten.length + m ∧
      (if m < p.length then consecutive d'.flatten.length (p :: ps)
        else consecutive (d'.flatten.length + p.length) ps) = consecutive d.flatten.length t := by
  have hread := h.read
  by_cases hn : n = 0
  · obtain ⟨d', p, rfl, hd'⟩ := h.last hn (by simp)
    have hflat : (d' ++ [p]).flatten = d'.flatten ++ p := by simp
    rw [hn, List.take_zero, List.append_nil, hflat] at hread
    have hlen := congrArg List.length hread
    refine ⟨d', p, t, p.length, by rw [h.chunks_eq]; simp, hd', Nat.le_refl _,
      by rw [hread, List.take_length], ?_, ?_⟩
    · rw [hlen, List.length_append] at hle
      exact Nat.min_eq_left hle
    · rw [if_neg (Nat.lt_irrefl _), hflat, List.length_append]
  · obtain ⟨p, ps, pre', ht, hlt, hd, htok, hpre', hblock⟩ := h.mid hn
    rw [ht, List.headD_cons] at hread
    have hlen := congrArg List.length hread
    have hpre : pre = pre' := List.append_cancel_right htok
    have htake : (d.flatten ++ p.take n).length = d.flatten.length + n := by
      rw [List.length_append, List.length_take, Nat.min_eq_left (Nat.le_of_lt hlt)]
    refine ⟨d, p, ps, n, by rw [h.chunks_eq, ht], hd, Nat.le_of_lt hlt, hread, ?_, ?_⟩
    · rw [hpre, ← hblock, hlen, htake]
      omega
    · rw [if_pos hlt, ht]

/-- **The cut gives the writes.** -/
theorem SwitchAt.writeSpans_eq {chunks d t : List Bytes} {n : Nat} {tok rest : Bytes}
    (h : SwitchAt newline chunks d t n tok rest) :
    writeSpans chunks =
      consecutive 0 (asWrite tok ++ asWrite rest) ++ consecutive d.flatten.length t := by
  rcases h.stop with ⟨pre, rfl, hpre, hle⟩ | ⟨htok, rfl, rfl⟩
  · obtain ⟨d', p, ps, m, rfl, hd', hm, hread, hblock, hafter⟩ := h.chunk hle
    obtain ⟨line, more, hcut, hline⟩ : ∃ line more, cut newline p = some (line, more) ∧
        d'.flatten ++ line = pre ++ [newline] := by
      have hp : d'.flatten ++ p = pre ++ newline :: (rest ++ p.drop m) := by
        calc d'.flatten ++ p = d'.flatten ++ p.take m ++ p.drop m := by
              rw [List.append_assoc, List.take_append_drop]
          _ = _ := by
            rw [← hread]
            simp
      have hcut := cut_append hd' p
      rw [hp, cut_first hpre] at hcut
      obtain ⟨⟨line, more⟩, hcut', heq⟩ := Option.map_eq_some_iff.mp hcut.symm
      exact ⟨line, more, hcut', congrArg Prod.fst heq⟩
    have htok : d'.flatten.length + line.length = (pre ++ [newline]).length := by
      rw [← List.length_append, hline]
    have hrest : p.take m = line ++ rest := by
      rw [← hline, List.append_assoc] at hread
      exact (List.append_cancel_left hread).symm
    have hlast : d'.flatten.length + line.length - 1 = pre.length := by
      rw [htok, List.length_append]
      exact Nat.add_sub_cancel ..
    rw [writeSpans, writeSpansFrom_append hd', Nat.zero_add,
      writeSpansFrom_cut hcut hrest (by rw [hlast]; exact hblock) hm, hafter, htok,
      asWrite_of_ne_nil (List.concat_ne_nil _ _), List.singleton_append, consecutive, Nat.zero_add]
  · -- no newline at all: the stream is the token
    have hread := h.read
    rw [List.append_nil, List.headD_nil, List.take_nil, List.append_nil] at hread
    rw [h.chunks_eq, writeSpans, writeSpansFrom_append (by rw [← hread]; exact htok), Nat.zero_add,
      writeSpansFrom, ← hread]
    by_cases hnil : tok = []
    · rw [asWrite, asWrite, if_pos hnil, if_pos (by rw [hnil]; exact List.length_nil)]
      simp [consecutive]
    · rw [asWrite, asWrite, if_neg hnil, if_neg (by simpa using hnil)]
      simp [consecutive]

/-! ## The texts -/

/-- The entries show the lines of the stream exactly if the writes are the lines. -/
theorem SwitchAt.texts_iff {chunks d t : List Bytes} {n : Nat} {tok rest : Bytes}
    (h : SwitchAt newline chunks d t n tok rest) :
    (asWrite tok ++ asWrite rest ++ t).map trimRight =
        (splitLines chunks.flatten).map trimRight ↔ AlignedWrites chunks := by
  have hread := h.read
  have hstream : chunks.flatten = d.flatten ++ t.flatten := by
    rw [h.chunks_eq, List.flatten_append]
  -- the two runs of spans, each of consecutive pieces of the stream
  obtain ⟨post, hpost⟩ : ∃ post,
      chunks.flatten = [] ++ (asWrite tok ++ asWrite rest).flatten ++ post := by
    cases t with
    | nil =>
      refine ⟨[], ?_⟩
      rw [List.headD_nil, List.take_nil, List.append_nil] at hread
      rw [List.flatten_append, flatten_asWrite, flatten_asWrite, hread, hstream]
      simp
    | cons p ps =>
      refine ⟨p.drop n ++ ps.flatten, ?_⟩
      rw [List.headD_cons] at hread
      rw [List.flatten_append, flatten_asWrite, flatten_asWrite, hread, hstream, List.flatten_cons,
        List.nil_append, List.append_assoc, ← List.append_assoc (p.take n), List.take_append_drop]
  have hslices : (writeSpans chunks).map (slice chunks.flatten) = asWrite tok ++
      asWrite rest ++ t := by
    have hfirst := slice_consecutive [] post (asWrite tok ++ asWrite rest)
    have hafter := slice_consecutive d.flatten [] t
    rw [← hpost] at hfirst
    rw [List.append_nil, ← hstream] at hafter
    rw [h.writeSpans_eq, List.map_append, hafter]
    exact congrArg (· ++ t) hfirst
  have hlines : (lineSpans chunks.flatten).map (slice chunks.flatten) =
      terminatedLines chunks.flatten := by
    have hall := slice_consecutive [] [] (terminatedLines chunks.flatten)
    rw [List.nil_append, List.append_nil, flatten_terminatedLines] at hall
    exact hall
  have htexts : (writeSpans chunks).map (text inCutset chunks.flatten) =
        (asWrite tok ++ asWrite rest ++ t).map trimRight := by
    rw [← hslices, List.map_map]
    rfl
  have hlinetexts : (lineSpans chunks.flatten).map (text inCutset chunks.flatten) =
      (splitLines chunks.flatten).map trimRight := by
    rw [← trimRight_terminatedLines, ← hlines, List.map_map]
    rfl
  rw [← htexts, ← hlinetexts]
  constructor
  · intro heq
    -- what is repeated of a chunk is blank, or there would be too much in the log
    have htotal := inked_of_texts heq
    rw [hslices, hlines, flatten_terminatedLines] at htotal
    have htwice : inked inCutset ((t.headD []).take n) = 0 := by
      have hflat : (asWrite tok ++ asWrite rest ++ t).flatten =
          d.flatten ++ (t.headD []).take n ++ t.flatten := by
        rw [List.flatten_append, List.flatten_append, flatten_asWrite, flatten_asWrite, hread]
      rw [hflat, hstream] at htotal
      simp only [inked_append] at htotal
      omega
    refine match_of_texts (c := 0) ?_ ?_ heq
    · rw [h.writeSpans_eq, tight_append]
      have hfirst := tight_consecutive inCutset [] post (asWrite tok ++ asWrite rest)
      have hafter := tight_consecutive inCutset d.flatten [] t
      have hslice := slice_consecutive [] post (asWrite tok ++ asWrite rest)
      rw [← hpost] at hfirst hslice
      rw [List.append_nil, ← hstream] at hafter
      refine ⟨hfirst, ?_⟩
      rw [List.length_nil] at hslice
      rw [hslice, List.flatten_append, flatten_asWrite, flatten_asWrite, hread,
        inked_append, htwice, Nat.zero_add, Nat.add_zero]
      exact hafter
    · have hall := tight_consecutive inCutset [] [] (terminatedLines chunks.flatten)
      rw [List.nil_append, List.append_nil, flatten_terminatedLines] at hall
      exact hall
  · intro hmatch
    exact texts_of_match hmatch

/-! ## The payoff -/

/-- A JSON object with the keys of a log record. -/
def IsJsonLog (unmarshal : Bytes → Option (Option (List String))) (line : Bytes) : Prop :=
  ∃ m, unmarshal line = some (some m) ∧ "time" ∈ m ∧ "level" ∈ m ∧ "msg" ∈ m

/-- Output is passed through exactly if its first line is a JSON log. -/
theorem morphOutput_eq_passthrough {unmarshal : Bytes → Option (Option (List String))}
    {line : Bytes} : morphOutput unmarshal line = .passthrough ↔ IsJsonLog unmarshal line := by
  unfold morphOutput IsJsonLog
  split
  next h => simp [h]
  next h => simp [h]
  next m h => simp [h, mapContainsAll]

/-- Any other output is logged. -/
theorem outputOf_logging {unmarshal : Bytes → Option (Option (List String))} {stream : Bytes}
    (h : ¬ IsJsonLog unmarshal (firstToken newline stream)) :
    outputOf unmarshal stream = .logging := by
  rw [← morphOutput_eq_passthrough] at h
  cases hk : outputOf unmarshal stream with
  | logging => rfl
  | passthrough => exact absurd hk h

/-- The value of a record's attribute. -/
def LogRecord.value (r : LogRecord) (key : String) : Option LogValue := r.attrs.lookup key

/-- The line of a record is the write without the space at its end. -/
theorem value_line (commandIdx : Int) (outputStreamName : String) (p : Bytes) :
    ((createLogWrapper commandIdx outputStreamName).write p).value "line" =
      some (.bytes (trimRight p)) := by
  simp [LogRecord.value, LogWrapper.write, createLogWrapper, List.lookup_cons]

/-- The writer is closed, and the log shows the lines of the stream. -/
def LogsLines (chunks : List Bytes) (s : State Output OutputState newline) : Prop :=
  s.caller = .closed ∧
    s.behind.entries.map (·.value "line") =
      (splitLines chunks.flatten).map fun line => some (.bytes (trimRight line))

section Payoff

variable {unmarshal : Bytes → Option (Option (List String))} {commandIdx : Int}
  {outputStreamName : String} {downstream : List Bytes → Bytes → Option IoErr}
  {chunks : List Bytes} {s : State Output OutputState newline}

/-- Where a run in log mode ends the log shows the lines exactly if the writes were
the lines. -/
theorem logsLines_iff (hne : ∀ p ∈ chunks, p ≠ [])
    (hjson : ¬ IsJsonLog unmarshal (firstToken newline chunks.flatten))
    (h : (createOutputWriter unmarshal (createLogWrapper commandIdx outputStreamName) downstream
      chunks).Reachable s)
    (hstuck : (createOutputWriter unmarshal (createLogWrapper commandIdx outputStreamName)
      downstream chunks).Stuck s) :
    LogsLines chunks s ↔ AlignedWrites chunks := by
  have hk := outputOf_logging hjson
  obtain ⟨hinv, hout⟩ := output_reachable hne (fun hp => by rw [hk] at hp; cases hp) h
  have hret : CallsReturn
      (outputs (createLogWrapper commandIdx outputStreamName) downstream) s := by
    intro p hcall
    rw [writerResult, writer_of_pending hinv ((inCall_iff hinv).mp hcall), hk]
    simp [outputs]
  obtain ⟨d, t, n, tok, rest, hsw, hclosed, -, -, -, -, hcalls⟩ :=
    halted_outcome hret hinv (halted_of_stuck hstuck)
  have htok : morphOutput unmarshal tok = .logging := by rw [hsw.tok_eq]; exact hk
  have hentries : s.behind.entries.map (·.value "line") =
      ((asWrite tok ++ asWrite rest ++ t).map trimRight).map fun l => some (.bytes l) := by
    rw [hout.entries, hcalls, htok, logged_logging, List.map_map, List.map_map]
    exact List.map_congr_left fun p _ => value_line _ _ p
  have hlines : ((splitLines chunks.flatten).map fun l => some (LogValue.bytes (trimRight l))) =
      ((splitLines chunks.flatten).map trimRight).map fun l => some (.bytes l) := by
    rw [List.map_map]
    rfl
  have hinj : Function.Injective fun l => some (LogValue.bytes l) := by
    intro l l' hl
    exact LogValue.bytes.inj (Option.some.inj hl)
  rw [← hsw.texts_iff, LogsLines, hentries, hlines, (List.map_injective_iff.mpr hinj).eq_iff]
  exact ⟨fun h => h.2, fun h => ⟨hclosed, h⟩⟩

end Payoff

/-- **The log shows the lines exactly when the writes are the lines.** For an output
whose first line is not a JSON log record: every run ends, and ends with one entry
per line, if and only if the first line, the rest of what was read with it and each
later chunk start and end where the lines of the stream do. -/
theorem outputWriter_logs_lines_iff (unmarshal : Bytes → Option (Option (List String)))
    (commandIdx : Int) (outputStreamName : String) (downstream : List Bytes → Bytes → Option IoErr)
    (chunks : List Bytes) (hne : ∀ p ∈ chunks, p ≠ [])
    (hjson : ¬ IsJsonLog unmarshal (firstToken newline chunks.flatten)) :
    (createOutputWriter unmarshal (createLogWrapper commandIdx outputStreamName) downstream
      chunks).EveryRunEnds (LogsLines chunks) ↔ AlignedWrites chunks := by
  have hpass : outputOf unmarshal chunks.flatten = .passthrough → Passable downstream chunks := by
    intro hp
    rw [outputOf_logging hjson] at hp
    cases hp
  refine System.everyRunEnds_iff wellFounded_lt outputWeight
    (fun s t hs hst => output_step_weight hne hpass hs hst) (Eq.refl _) ?_
  intro s hs hstuck
  exact logsLines_iff hne hjson hs hstuck

/-- Two lines in one write are logged as two lines: "ab", CR, "c". -/
theorem outputWriter_logs_two_lines :
    (createOutputWriter (fun _ => none) (createLogWrapper 0 "stdout") (fun _ _ => none)
      [[97, 98, 13, 10, 99, 10]]).EveryRunEnds (LogsLines [[97, 98, 13, 10, 99, 10]]) :=
  (outputWriter_logs_lines_iff (fun _ => none) 0 "stdout" (fun _ _ => none)
    [[97, 98, 13, 10, 99, 10]] (by decide) (by simp [IsJsonLog])).mpr (by
      unfold AlignedWrites
      decide)

/-- Three lines in one write are logged as two: "a", then "b" and "c" in one entry. -/
theorem outputWriter_merges_lines :
    ¬ (createOutputWriter (fun _ => none) (createLogWrapper 0 "stdout") (fun _ _ => none)
      [[97, 10, 98, 10, 99, 10]]).EveryRunEnds (LogsLines [[97, 10, 98, 10, 99, 10]]) := by
  intro hends
  have hne : ∀ p ∈ [[97, 10, 98, 10, 99, 10]], p ≠ ([] : Bytes) := by decide
  have hjson : ¬ IsJsonLog (fun _ => none)
      (firstToken newline [[97, 10, 98, 10, 99, 10]].flatten) := by simp [IsJsonLog]
  obtain ⟨s, hs, hstuck, -⟩ := System.exists_stuck wellFounded_lt outputWeight
    (fun s t hs hst => output_step_weight hne
      (fun hp => by rw [outputOf_logging hjson] at hp; cases hp) hs hst)
    (.start (Eq.refl _) : (createOutputWriter (fun _ => none) (createLogWrapper 0 "stdout")
      (fun _ _ => none) [[97, 10, 98, 10, 99, 10]]).Reachable _)
  have haligned := (logsLines_iff hne hjson hs hstuck).mp (hends.ends s hs hstuck)
  have hlength := List.Forall₂.length_eq haligned
  revert hlength
  decide

end ShouldIAsync.HarnessIo
