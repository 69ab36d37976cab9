import ShouldIAsync.HarnessIo.ScanningTokens

/-!
# Framing lines

With `bufio.ScanLines` and the delimiter newline the delimiter goes where the newline of the
line was, so appending it in the scanner's own buffer does no harm (`harmless_newline`). A
`ScanningWriter` is then a line framer, however the stream is cut into `Write`s, up to the
first line that does not fit in the scanner's greatest buffer.
-/

namespace ShouldIAsync.HarnessIo

open ShouldIAsync.Lib ShouldIAsync.GoStd

/-- No token is longer than the scanner can hold. -/
theorem bounded_max (split : SplitFunc) : Bounded split maxScanTokenSize :=
  fun _ sc' _ _ => sc'.buf_le

/-- A delimiter that fits between a token and the unread bytes does no harm, nor does any one
when there are no unread bytes. -/
theorem harmless_of_fits {split : SplitFunc} {outputDelimeter : Bytes} {size : Nat}
    (h : ∀ (d : Bytes) (atEOF : Bool) (a b : Nat), (split d atEOF).token = some (a, b) →
      b + outputDelimeter.length ≤ (split d atEOF).advance ∨ (split d atEOF).advance = d.length) :
    Harmless split outputDelimeter size := by
  intro sc sc' i j _ hpass
  obtain ⟨a, b, htok, rfl, rfl, rfl⟩ := Scanner.pass_eq_token hpass
  rcases h _ _ a b htok with hfits | hall
  · refine Scanner.data_appendToken _ ?_
    show sc.start + b + outputDelimeter.length ≤ sc.start + (split sc.data sc.err.isSome).advance
    omega
  · have hnil : (sc.advance _ (split sc.data sc.err.isSome).advance_le).data = [] := by
      rw [Scanner.data_advance, hall, List.drop_length]
    have hlen := length_data_appendToken (sc.advance _ (split sc.data sc.err.isSome).advance_le)
      (sc.start + a) (sc.start + b) outputDelimeter
    rw [hnil, List.length_nil, List.length_eq_zero_iff] at hlen
    rw [hlen, hnil]

/-- The token of a line ends before its newline, if it has one. -/
theorem scanLines_token {d : Bytes} {atEOF : Bool} {a b : Nat}
    (h : (scanLines d atEOF).token = some (a, b)) :
    b + 1 ≤ (scanLines d atEOF).advance ∨ (scanLines d atEOF).advance = d.length := by
  rcases splitLines_cases d with hd | ⟨l, rest, hl, rfl⟩
  · obtain ⟨htok, hadv⟩ := scanLines_rest hd atEOF
    by_cases heof : atEOF = true ∧ d ≠ []
    · rw [if_pos heof] at hadv
      exact .inr hadv
    · rw [htok, if_neg heof] at h
      cases h
  · obtain ⟨htok, hadv⟩ := scanLines_line hl rest atEOF
    rw [htok] at h
    cases h
    have hle := length_dropCR_le l
    rw [hadv]
    exact .inl (by omega)

/-- **A newline does no harm to lines.** -/
theorem harmless_newline (size : Nat) : Harmless scanLines [newline] size :=
  harmless_of_fits fun _ _ _ _ h => scanLines_token h

/-- `Close` has returned. If every line fits in the scanner's greatest buffer with its newline,
every `Write` was accepted and there was one write for each line; otherwise `Close` returned
an error, and there was one write for each line before the first one that does not fit. -/
def Framed (chunks : List Bytes) (s : ScanRun) : Prop :=
  ∃ err, s.caller = .closed err ∧
    ((∀ l ∈ splitLines chunks.flatten, l.length < maxScanTokenSize) →
      s.results = chunks.map accepted ∧ err = none ∧
        s.scan.out = (splitLines chunks.flatten).map forwarded) ∧
    ((∃ l ∈ splitLines chunks.flatten, maxScanTokenSize ≤ l.length) →
      err ≠ none ∧ s.scan.out = (fitting (splitLines chunks.flatten)).map forwarded)

/-- **A `ScanningWriter` frames lines**, up to the limit of its scanner. -/
theorem scanningWriter_frames_lines (chunks : List Bytes) (hne : ∀ p ∈ chunks, p ≠ []) :
    (scanningWriter scanLines [newline] (fun _ _ => none) chunks).EveryRunEnds (Framed chunks) := by
  refine System.everyRunEnds_of_measure wellFounded_lt runWeight (fun s t hs hst =>
    runWeight_step hne hs hst)
    fun s hs hstuck => ?_
  obtain ⟨err, hc⟩ := closed_of_stuck hne hs hstuck
  have hdel := delivering_reachable lawful_scanLines (harmless_newline maxScanTokenSize)
    (bounded_max scanLines) hne hs
  obtain ⟨hout, herr, hres⟩ := hdel.outcome hc
  unfold WithinLimit at herr hres
  rw [tokenize_scanLines] at hout herr hres
  have hout' : s.scan.out = (fitting (splitLines chunks.flatten)).map forwarded := by
    rw [hout, List.map_map]
    rfl
  refine ⟨err, hc, fun hall => ?_, fun hlong => ?_⟩
  · have hfit :
        ((splitLines chunks.flatten).all fun l => decide (l.length < maxScanTokenSize)) = true := by
      rw [List.all_eq_true]
      intro l hl
      exact decide_eq_true (hall l hl)
    have hlimit : (!(splitLines chunks.flatten).all fun l =>
        decide (l.length < maxScanTokenSize)) = false := by
      rw [hfit]
      rfl
    refine ⟨hres hlimit, herr.mpr hlimit, ?_⟩
    rw [hout']
    unfold fitting
    rw [List.takeWhile_eq_self_iff.mpr fun l hl => decide_eq_true (hall l hl)]
  · refine ⟨fun hnone => ?_, hout'⟩
    have hlimit := herr.mp hnone
    rw [Bool.not_eq_false', List.all_eq_true] at hlimit
    obtain ⟨l, hl, hlen⟩ := hlong
    have := of_decide_eq_true (hlimit l hl)
    omega

/-- "ab", CR LF, "c" in two `Write`s, cut between the CR and the LF. -/
theorem scanningWriter_frames_two_lines :
    (scanningWriter scanLines [newline] (fun _ _ => none) [[97, 98, 13], [10, 99]]).EveryRunEnds
      (Framed [[97, 98, 13], [10, 99]]) :=
  scanningWriter_frames_lines [[97, 98, 13], [10, 99]] (by decide)

end ShouldIAsync.HarnessIo
