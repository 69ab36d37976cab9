import ShouldIAsync.GoStd.Words
import ShouldIAsync.HarnessIo.SpoiledBytes

/-!
# Which delimiters leave the tokens alone

A delimiter does no harm if it ends where the unread bytes start, or if it never fits in the
scanner's buffer behind a token. `scanningWriter_contract_iff` says which ones these are for the
split functions of `bufio`: any other one spoils some stream.
-/

namespace ShouldIAsync.HarnessIo

open ShouldIAsync.Lib ShouldIAsync.GoStd

/-- Every run over a stream within the scanner's limit writes each token with the delimiter. -/
def KeepsContract (split : SplitFunc) (outputDelimeter : Bytes) : Prop :=
  ∀ chunks : List Bytes, (∀ p ∈ chunks, p ≠ []) → WithinLimit split chunks.flatten →
    (scanningWriter split outputDelimeter (fun _ _ => none) chunks).EveryRunEnds fun s =>
      s.caller = .closed none ∧
        s.scan.out = (tokensOf split chunks.flatten).map (· ++ outputDelimeter)

section Harmless

variable {split : SplitFunc} {outputDelimeter : Bytes} {size : Nat}

/-- A delimiter that never fits behind a token goes into a new slice. -/
theorem harmless_of_beyond {n : Nat}
    (h : ∀ (d : Bytes) (atEOF : Bool) (a b : Nat), (split d atEOF).token = some (a, b) → n ≤ b)
    (hlong : size < n + outputDelimeter.length) : Harmless split outputDelimeter size := by
  intro sc sc' i j hbuf hpass
  obtain ⟨a, b, htok, rfl, rfl, rfl⟩ := Scanner.pass_eq_token hpass
  have hb := h _ _ a b htok
  have hlen : (sc.advance _ (split sc.data sc.err.isSome).advance_le).buf.length =
    sc.buf.length := rfl
  unfold Scanner.appendToken
  dsimp only
  rw [dif_neg (by rw [hlen]; omega)]

/-- A delimiter that does no harm keeps the contract, up to lengths that fit. -/
theorem keepsContract_of_harmless (hl : Lawful split) (hharm : Harmless split outputDelimeter size)
    (hbound : Bounded split size) : KeepsContract split outputDelimeter := by
  intro chunks hne hlimit
  refine System.everyRunEnds_of_measure wellFounded_lt runWeight (fun s t hs hst =>
    runWeight_step hne hs hst)
    fun s hs hstuck => ?_
  obtain ⟨err, hc⟩ := closed_of_stuck hne hs hstuck
  obtain ⟨hout, herr, -⟩ := (delivering_reachable hl hharm hbound hne hs).outcome hc
  rw [tokenize_of_withinLimit hl hlimit] at hout
  rw [herr.mpr hlimit] at hc
  exact ⟨hc, hout⟩

end Harmless

/-! ## The split functions of `bufio` -/

/-- The split functions of `bufio`. -/
inductive Splitter
  | lines
  | words
  | bytes

/-- The function itself. -/
def Splitter.split : Splitter → SplitFunc
  | .lines => scanLines
  | .words => scanWords
  | .bytes => scanBytes

/-- The lengths of the delimiters that do no harm. An empty line ends at the front of the buffer
at best, any other token behind its first byte; the buffer of `ScanBytes` does not grow. -/
def Splitter.Safe : Splitter → Nat → Prop
  | .lines, n => n ≤ 1 ∨ maxScanTokenSize < n
  | .words, n => n ≤ 1 ∨ maxScanTokenSize ≤ n
  | .bytes, n => n = 0 ∨ startBufSize ≤ n

/-- A word has a byte before its end. -/
theorem wordEnd_pos {d : Bytes} {i width : Nat} (h : wordEnd d = some (i, width))
    (hzero : spaceWidth d = 0) :
    0 < i := by
  cases d with
  | nil => cases h
  | cons b rest =>
    unfold wordEnd at h
    rw [if_neg (by omega)] at h
    obtain ⟨p, -, heq⟩ := Option.map_eq_some_iff.mp h
    cases heq
    exact Nat.succ_pos _

/-- A word is not empty, and a space comes after it unless it is the last one. -/
theorem scanWords_token {d : Bytes} {atEOF : Bool} {a b : Nat}
    (h : (scanWords d atEOF).token = some (a, b)) :
    1 ≤ b ∧ (b + 1 ≤ (scanWords d atEOF).advance ∨ (scanWords d atEOF).advance = d.length) := by
  cases hword : wordEnd (d.drop (leadingSpaces d)) with
  | some p =>
    obtain ⟨i, width⟩ := p
    obtain ⟨htok, hadv⟩ := scanWords_word hword atEOF
    have hpos := wordEnd_pos hword (spaceWidth_drop_leadingSpaces d)
    have hwidth := (wordEnd_le hword).1
    rw [htok] at h
    cases h
    rw [hadv]
    exact ⟨by omega, .inl (by omega)⟩
  | none =>
    obtain ⟨htok, hadv⟩ := scanWords_rest hword atEOF
    rw [htok] at h
    by_cases hend : atEOF = true ∧ leadingSpaces d < d.length
    · rw [if_pos hend] at h hadv
      cases h
      exact ⟨Nat.zero_lt_of_lt hend.2, .inr hadv⟩
    · rw [if_neg hend] at h
      cases h

/-- A token of `ScanBytes` is one byte. -/
theorem scanBytes_token {d : Bytes} {atEOF : Bool} {a b : Nat}
    (h : (scanBytes d atEOF).token = some (a, b)) :
    b = 1 ∧ (scanBytes d atEOF).advance = 1 := by
  cases d with
  | nil => cases h
  | cons c d =>
    cases h
    exact ⟨rfl, rfl⟩

/-- `ScanBytes` finds a token in any data, so the buffer is empty when more is read. -/
theorem bounded_scanBytes : Bounded scanBytes startBufSize := by
  intro sc sc' hbuf hpass
  obtain ⟨herr, -, -, hdata⟩ := Scanner.pass_eq_read hpass
  have hnil : sc.data = [] := by
    rcases hdata with ⟨htok, -⟩ | ⟨hnil, -⟩
    · cases hd : sc.data with
      | nil => rfl
      | cons b d =>
        rw [hd] at htok
        cases htok
    · exact hnil
  have hlen := sc.length_data
  have hstart := sc.start_le
  rw [hnil, List.length_nil] at hlen
  rw [pass_of_nil hnil herr] at hpass
  unfold Scanner.makeRoom at hpass
  rw [herr, Option.isSome_none, if_neg (by simp)] at hpass
  by_cases hshift : 0 < sc.start ∧ (sc.stop = sc.buf.length ∨ sc.buf.length / 2 < sc.start)
  · have hsame : sc.shift.buf.length = sc.buf.length := by
      show (sc.data ++ sc.buf.drop _).length = _
      rw [hnil, List.nil_append, List.length_drop]
      omega
    have hstop : sc.shift.stop = 0 := by
      show sc.stop - sc.start = 0
      omega
    have hle := sc.stop_le
    simp only [if_pos hshift] at hpass
    rw [if_neg (by omega)] at hpass
    cases hpass
    omega
  · simp only [if_neg hshift] at hpass
    by_cases hfull : sc.stop = sc.buf.length
    · -- only the first buffer is made
      have hzero : sc.buf.length = 0 := by omega
      rw [if_pos hfull, if_neg (by unfold maxScanTokenSize; omega)] at hpass
      cases hpass
      unfold Scanner.grow
      dsimp only
      rw [if_pos hzero, hnil, List.nil_append, List.length_replicate, List.length_nil, Nat.sub_zero]
    · rw [if_neg hfull] at hpass
      cases hpass
      exact hbuf

/-- **A safe delimiter keeps the contract.** -/
theorem Splitter.keepsContract {splitter : Splitter} {outputDelimeter : Bytes}
    (h : splitter.Safe outputDelimeter.length) : KeepsContract splitter.split outputDelimeter := by
  cases splitter with
  | lines =>
    show KeepsContract scanLines outputDelimeter
    rcases h with hshort | hlong
    · refine keepsContract_of_harmless lawful_scanLines
        (harmless_of_fits fun d atEOF a b htok => ?_)
        (bounded_max scanLines)
      rcases scanLines_token htok with hle | hall
      · exact .inl (by omega)
      · exact .inr hall
    · exact keepsContract_of_harmless lawful_scanLines
        (harmless_of_beyond (fun _ _ _ _ _ => Nat.zero_le _) (by rw [Nat.zero_add]; exact hlong))
        (bounded_max scanLines)
  | words =>
    show KeepsContract scanWords outputDelimeter
    rcases h with hshort | hlong
    · refine keepsContract_of_harmless lawful_scanWords
        (harmless_of_fits fun d atEOF a b htok => ?_)
        (bounded_max scanWords)
      rcases (scanWords_token htok).2 with hle | hall
      · exact .inl (by omega)
      · exact .inr hall
    · exact keepsContract_of_harmless lawful_scanWords
        (harmless_of_beyond (fun _ _ _ _ htok => (scanWords_token htok).1) (by omega))
          (bounded_max scanWords)
  | bytes =>
    show KeepsContract scanBytes outputDelimeter
    rcases h with hnil | hlong
    · refine keepsContract_of_harmless lawful_scanBytes
        (harmless_of_fits fun d atEOF a b htok => .inl ?_)
        bounded_scanBytes
      obtain ⟨hb, hadv⟩ := scanBytes_token htok
      omega
    · exact keepsContract_of_harmless lawful_scanBytes
        (harmless_of_beyond (fun _ _ _ _ htok => Nat.le_of_eq (scanBytes_token htok).1.symm)
          (by omega))
        bounded_scanBytes

/-! ## Any other delimiter does harm -/

/-- The letter "x". -/
def letterX : UInt8 := 120

/-- A letter that is not `b`. -/
def letterNot (b : UInt8) : UInt8 := if b = letterX then 121 else letterX

theorem letterNot_ne (b : UInt8) : letterNot b ≠ b := by
  unfold letterNot
  split
  next hb =>
    rw [hb]
    decide
  next hb => exact Ne.symm hb

theorem letterNot_cases (b : UInt8) : letterNot b = letterX ∨ letterNot b = 121 := by
  unfold letterNot
  split
  · exact .inr rfl
  · exact .inl rfl

/-- A letter is no space. -/
theorem spaceWidth_letter {b : UInt8} (hb : b = letterX ∨ b = 121) (rest : Bytes) :
    spaceWidth (b :: rest) = 0 := by
  have h1 : ¬isSpace1 b := by rcases hb with rfl | rfl <;> decide
  have h2 : ∀ c, ¬isSpace2 b c := by
    rintro c ⟨h, -⟩
    rcases hb with rfl | rfl <;> revert h <;> decide
  have h3 : ∀ c d, ¬isSpace3 b c d := by
    rintro c d (⟨h, -⟩ | ⟨h, -⟩ | ⟨h, -⟩ | ⟨h, -⟩) <;> rcases hb with rfl | rfl <;>
      revert h <;> decide
  rcases rest with _ | ⟨c, _ | ⟨d, rest⟩⟩ <;> simp [spaceWidth, h1, h2, h3]

theorem wordEnd_letter {b : UInt8} (hb : b = letterX ∨ b = 121) (rest : Bytes) :
    wordEnd (b :: rest) = (wordEnd rest).map fun (i, width) => (i + 1, width) := by
  rw [wordEnd, spaceWidth_letter hb, if_neg (Nat.lt_irrefl 0)]

theorem wordEnd_letters (k : Nat) (e : Bytes) :
    wordEnd (List.replicate k letterX ++ e) = (wordEnd e).map fun (i, width) => (i + k, width) := by
  induction k with
  | zero => simp
  | succ k ih =>
    rw [List.replicate_succ, List.cons_append, wordEnd_letter (.inl rfl), ih, Option.map_map]
    rfl

theorem wordEnd_newline (e : Bytes) : wordEnd (newline :: e) = some (0, 1) := by
  have hwidth : spaceWidth (newline :: e) = 1 := by
    rcases e with _ | ⟨c, _ | ⟨d, e⟩⟩ <;> rfl
  unfold wordEnd
  rw [hwidth, if_pos Nat.one_pos]

/-- A word with a newline after it. -/
theorem scanWords_letters {k : Nat} (hk : 0 < k) (e : Bytes) (atEOF : Bool) :
    (scanWords (List.replicate k letterX ++ newline :: e) atEOF).token = some (0, k) ∧
      (scanWords (List.replicate k letterX ++ newline :: e) atEOF).advance = k + 1 := by
  have hlead : leadingSpaces (List.replicate k letterX ++ newline :: e) = 0 := by
    obtain ⟨j, rfl⟩ := Nat.exists_eq_add_one_of_ne_zero (Nat.ne_of_gt hk)
    exact leadingSpaces_eq_zero (spaceWidth_letter (.inl rfl) _)
  have hword : wordEnd ((List.replicate k letterX ++ newline :: e).drop
      (leadingSpaces (List.replicate k letterX ++ newline :: e))) = some (k, 1) := by
    rw [hlead, List.drop_zero, wordEnd_letters, wordEnd_newline, Option.map_some]
    simp
  obtain ⟨htok, hadv⟩ := scanWords_word hword atEOF
  rw [htok, hadv, hlead, Nat.zero_add]
  exact ⟨rfl, rfl⟩

/-- A word that may go on. -/
theorem scanWords_more (k : Nat) :
    (scanWords (List.replicate k letterX) false).token = none ∧
      (scanWords (List.replicate k letterX) false).advance = 0 := by
  have hlead : leadingSpaces (List.replicate k letterX) = 0 := by
    cases k with
    | zero => exact leadingSpaces_eq_zero rfl
    | succ k => exact leadingSpaces_eq_zero (spaceWidth_letter (.inl rfl) _)
  have hword : wordEnd
      ((List.replicate k letterX).drop (leadingSpaces (List.replicate k letterX))) = none := by
    have := wordEnd_letters k []
    rw [List.append_nil] at this
    rw [hlead, List.drop_zero, this]
    rfl
  obtain ⟨htok, hadv⟩ := scanWords_rest hword false
  rw [htok, hadv, if_neg (by simp), if_neg (by simp), hlead]
  exact ⟨rfl, rfl⟩

/-- The letters of a long token. -/
def letters : Bytes := List.replicate 40000 letterX

theorem length_letters : letters.length = 40000 := List.length_replicate

theorem newline_not_mem_letters : newline ∉ letters := by
  intro hmem
  have := List.eq_of_mem_replicate hmem
  revert this
  decide

theorem dropCR_letters : dropCR letters = letters := by
  unfold dropCR
  refine if_neg fun hlast => ?_
  have hmem := List.mem_of_getLast? hlast
  have := List.eq_of_mem_replicate hmem
  revert this
  decide

/-- The letters are a long line. -/
theorem longToken_lines : LongToken scanLines letters newline where
  more k _ := scanLines_more fun hmem => newline_not_mem_letters (List.mem_of_mem_take hmem)
  token := by rw [(scanLines_line newline_not_mem_letters [] false).1, dropCR_letters]
  advance := (scanLines_line newline_not_mem_letters [] false).2
  long := by
    rw [length_letters]
    decide
  short := by
    rw [length_letters]
    decide

theorem longToken_words : LongToken scanWords letters newline where
  more k _ := by
    unfold letters
    rw [List.take_replicate]
    exact scanWords_more _
  token := by
    rw [length_letters]
    exact (scanWords_letters (by decide) [] false).1
  advance := by
    rw [length_letters]
    exact (scanWords_letters (by decide) [] false).2
  long := by
    rw [length_letters]
    decide
  short := by
    rw [length_letters]
    decide

/-- One byte that is a token. -/
theorem tokenize_one {split : SplitFunc} {b : UInt8} (htok : (split [b] true).token = some (0, 1))
    (hadv : (split [b] true).advance = 1) (hnil : (split [] true).token = none) :
    tokenize split [b] = ([[b]], false) := by
  have hmax : [b].length < maxScanTokenSize := by
    rw [List.length_singleton]
    decide
  have hzero : ([] : Bytes).length < maxScanTokenSize := Nat.zero_lt_of_lt hmax
  rw [tokenize_token_eof hmax htok, hadv, List.drop_succ_cons, List.drop_nil,
    tokenize_none_eof hzero hnil]
  rfl

section Spoiling

variable {outputDelimeter : Bytes} {x : UInt8}

/-- The letter after an empty line is overwritten with the second byte of the delimiter. -/
theorem spoils_lines {size : Nat} (hx : outputDelimeter[1]? = some x)
    (hfits : outputDelimeter.length ≤ size) :
    Spoils scanLines outputDelimeter [newline] (letterNot x) x 0 size where
  token := (scanLines_line List.not_mem_nil [letterNot x] false).1
  advance := (scanLines_line List.not_mem_nil [letterNot x] false).2
  fits := by
    obtain ⟨hlt, -⟩ := List.getElem?_eq_some_iff.mp hx
    rw [Nat.zero_add, List.length_singleton]
    exact ⟨hfits, Nat.lt_of_lt_of_le hlt hfits⟩
  spoils := ⟨Nat.zero_le _, hx, letterNot_ne x⟩
  last := by
    rw [tokenize_scanLines]
    rcases letterNot_cases x with h | h <;> rw [h] <;> rfl

/-- The letter after a word of one letter is overwritten with the second byte. -/
theorem spoils_words {size : Nat} (hx : outputDelimeter[1]? = some x)
    (hfits : 1 + outputDelimeter.length ≤ size) :
    Spoils scanWords outputDelimeter [letterX, newline] (letterNot x) x 1 size where
  token := (scanWords_letters Nat.one_pos [letterNot x] false).1
  advance := (scanWords_letters Nat.one_pos [letterNot x] false).2
  fits := by
    obtain ⟨hlt, -⟩ := List.getElem?_eq_some_iff.mp hx
    refine ⟨hfits, ?_⟩
    show 2 < size
    omega
  spoils := ⟨Nat.le_succ 1, hx, letterNot_ne x⟩
  last := by
    have hlead : leadingSpaces [letterNot x] = 0 :=
      leadingSpaces_eq_zero (spaceWidth_letter (letterNot_cases x) [])
    have hword : wordEnd ([letterNot x].drop (leadingSpaces [letterNot x])) = none := by
      rw [hlead, List.drop_zero, wordEnd_letter (letterNot_cases x)]
      rfl
    obtain ⟨htok, hadv⟩ := scanWords_rest hword true
    rw [hlead, if_pos ⟨rfl, Nat.one_pos⟩] at htok
    rw [hlead, if_pos ⟨rfl, Nat.one_pos⟩] at hadv
    refine tokenize_one htok hadv ?_
    have hnil : leadingSpaces [] = 0 := leadingSpaces_eq_zero rfl
    have hend : wordEnd (([] : Bytes).drop (leadingSpaces [])) = none := by rw [hnil]; rfl
    rw [(scanWords_rest hend true).1, hnil, if_neg (by simp)]

/-- The second byte is overwritten with the first one of the delimiter. -/
theorem spoils_bytes (hx : outputDelimeter[0]? = some x)
    (hfits : 1 + outputDelimeter.length ≤ startBufSize) :
    Spoils scanBytes outputDelimeter [letterX] (letterNot x) x 1 startBufSize where
  token := rfl
  advance := rfl
  fits := ⟨hfits, by decide⟩
  spoils := ⟨Nat.le_refl _, hx, letterNot_ne x⟩
  last := tokenize_one rfl rfl rfl

end Spoiling

/-- **The contract is kept for the safe delimiters and no others.** -/
theorem scanningWriter_contract_iff (splitter : Splitter) (outputDelimeter : Bytes) :
    KeepsContract splitter.split outputDelimeter ↔ splitter.Safe outputDelimeter.length := by
  refine ⟨fun hkeeps => ?_, Splitter.keepsContract⟩
  by_contra hunsafe
  cases splitter with
  | lines =>
    have hlen : ¬(outputDelimeter.length ≤ 1 ∨ maxScanTokenSize < outputDelimeter.length) := hunsafe
    rw [not_or] at hlen
    obtain ⟨x, hx⟩ : ∃ x, outputDelimeter[1]? = some x := ⟨_, List.getElem?_eq_getElem (by omega)⟩
    obtain ⟨hlimit, hbreak⟩ := breaks_after lawful_scanLines longToken_lines
      (spoils_lines hx (Nat.le_of_not_lt hlen.2))
    exact hbreak (hkeeps _ (by simp) hlimit)
  | words =>
    have hlen : ¬(outputDelimeter.length ≤ 1 ∨ maxScanTokenSize ≤ outputDelimeter.length) := hunsafe
    rw [not_or] at hlen
    obtain ⟨x, hx⟩ : ∃ x, outputDelimeter[1]? = some x := ⟨_, List.getElem?_eq_getElem (by omega)⟩
    obtain ⟨hlimit, hbreak⟩ := breaks_after lawful_scanWords longToken_words
      (spoils_words hx (by omega))
    exact hbreak (hkeeps _ (by simp) hlimit)
  | bytes =>
    have hlen : ¬(outputDelimeter.length = 0 ∨ startBufSize ≤ outputDelimeter.length) := hunsafe
    rw [not_or] at hlen
    obtain ⟨x, hx⟩ : ∃ x, outputDelimeter[0]? = some x := ⟨_, List.getElem?_eq_getElem (by omega)⟩
    obtain ⟨hlimit, hbreak⟩ := breaks_from_start lawful_scanBytes (spoils_bytes hx (by omega))
    have hflat : [[letterX] ++ [letterNot x]].flatten = [letterX] ++ [letterNot x] :=
      List.flatten_singleton
    rw [← hflat] at hlimit
    have hends := hkeeps _ (by simp) hlimit
    rw [hflat] at hends
    exact hbreak hends

/-- "a", newline, "b" with the delimiter CR LF: the "b" is overwritten with the LF. -/
theorem scanningWriter_spoils_crlf : WithinLimit scanLines [97, 10, 98] ∧
    ¬(scanningWriter scanLines [13, 10] (fun _ _ => none) [[97, 10, 98]]).EveryRunEnds fun s =>
      s.caller = .closed none ∧ s.scan.out = [[97, 13, 10], [98, 13, 10]] := by
  have hsp : Spoils scanLines [13, 10] [97, 10] 98 10 1 startBufSize := by
    obtain ⟨htok, hadv⟩ := scanLines_line (l := [97]) (by decide) [98] false
    exact ⟨htok, hadv, by decide, by decide, by rw [tokenize_scanLines]; rfl⟩
  obtain ⟨hlimit, hbreak⟩ := breaks_from_start lawful_scanLines hsp
  have htokens : tokensOf scanLines ([97, 10] ++ [98]) = [[97], [98]] := by
    rw [← tokenize_of_withinLimit lawful_scanLines hlimit, tokenize_scanLines]
    rfl
  rw [htokens] at hbreak
  exact ⟨hlimit, hbreak⟩

end ShouldIAsync.HarnessIo
