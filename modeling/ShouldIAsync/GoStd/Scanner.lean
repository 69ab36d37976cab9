import ShouldIAsync.GoStd.Lines
import ShouldIAsync.GoStd.Pipe

/-!
# Go's `bufio.Scanner`, over the buffer it really has

`Scan` runs the split function over the unread part of its buffer, hands out the
token, and otherwise makes room (it shifts the unread bytes to the front, or
doubles the buffer up to `maxScanTokenSize`) and reads. A token is a slice of
that buffer: `append` to it writes into the buffer itself while its capacity
allows (`appendToken`).

`pass` is one round of the loop in `Scan` up to the next underlying `Read`, and
`fill`, `fail` are what comes back. `Split` carries what the split functions of
`bufio` guarantee: they stay inside the data and never hand out a token without
advancing, so that the checks of `advance` and the limit on empty tokens never
strike. They return no errors either.
-/

namespace ShouldIAsync.GoStd

def startBufSize : Nat := 4096

def maxScanTokenSize : Nat := 64 * 1024

/-- What a split function returns: how far to advance, and the token, as offsets in
the data. -/
structure Split (data : Bytes) where
  advance : Nat
  token : Option (Nat × Nat)
  advance_le : advance ≤ data.length
  token_le : ∀ t ∈ token, t.1 ≤ t.2 ∧ t.2 ≤ advance
  advances : token.isSome → 0 < advance

abbrev SplitFunc := (data : Bytes) → (atEOF : Bool) → Split data

/-- `bufio.ScanLines` -/
def scanLines : SplitFunc := fun data atEOF =>
  match h : cut newline data with
  | some (line, _) =>
    { advance := line.length
      token := some (0, (dropCR line.dropLast).length)
      advance_le := by
        rw [(cut_eq_some h).1]
        simp
      token_le := by
        rintro _ ⟨⟩
        have hle := (List.dropLast_sublist line).length_le
        exact ⟨Nat.zero_le _, Nat.le_trans (length_dropCR_le line.dropLast) hle⟩
      advances := by
        obtain ⟨-, pre, rfl, -⟩ := cut_eq_some h
        simp }
  | none =>
    if hend : atEOF = true ∧ data ≠ [] then
      { advance := data.length
        token := some (0, (dropCR data).length)
        advance_le := Nat.le_refl _
        token_le := by
          rintro _ ⟨⟩
          exact ⟨Nat.zero_le _, length_dropCR_le data⟩
        advances := fun _ => List.length_pos_iff.mpr hend.2 }
    else
      { advance := 0
        token := none
        advance_le := Nat.zero_le _
        token_le := by simp
        advances := by simp }

/-- A line with its newline at hand. -/
theorem scanLines_line {l : Bytes} (hl : newline ∉ l) (e : Bytes) (atEOF : Bool) :
    (scanLines (l ++ newline :: e) atEOF).token = some (0, (dropCR l).length) ∧
      (scanLines (l ++ newline :: e) atEOF).advance = l.length + 1 := by
  unfold scanLines
  split
  next line rest hcut =>
    rw [cut_first hl] at hcut
    obtain ⟨rfl, rfl⟩ : l ++ [newline] = line ∧ e = rest := by simpa using hcut
    refine ⟨?_, by simp⟩
    show some (0, (dropCR (l ++ [newline]).dropLast).length) = _
    rw [List.dropLast_concat]
  next hcut =>
    rw [cut_first hl] at hcut
    cases hcut

/-- No newline at hand: a line only at the end of the stream. -/
theorem scanLines_rest {d : Bytes} (hd : newline ∉ d) (atEOF : Bool) :
    (scanLines d atEOF).token =
      (if atEOF = true ∧ d ≠ [] then some (0, (dropCR d).length) else none) ∧
      (scanLines d atEOF).advance = if atEOF = true ∧ d ≠ [] then d.length else 0 := by
  unfold scanLines
  split
  next line rest hcut =>
    rw [cut_eq_none.mpr hd] at hcut
    cases hcut
  next =>
    split
    · exact ⟨rfl, rfl⟩
    · exact ⟨rfl, rfl⟩

/-- Without a newline `ScanLines` asks for more. -/
theorem scanLines_more {d : Bytes} (hd : newline ∉ d) :
    (scanLines d false).token = none ∧ (scanLines d false).advance = 0 := by
  have h := scanLines_rest hd false
  rw [if_neg (by simp), if_neg (by simp)] at h
  exact h

/-- `dropCR` drops at the end. -/
theorem take_dropCR (l : Bytes) : l.take (dropCR l).length = dropCR l := by
  unfold dropCR
  split
  · rw [List.length_dropLast, List.dropLast_eq_take]
  · exact List.take_length

/-- What ends a scan besides a downstream error. -/
inductive ScanError
  | read (err : PipeError)
  | tooLong
  | noProgress
  deriving DecidableEq, Repr

structure Scanner where
  buf : Bytes
  start : Nat
  -- `s.end`
  stop : Nat
  err : Option ScanError
  start_le : start ≤ stop
  stop_le : stop ≤ buf.length
  buf_le : buf.length ≤ maxScanTokenSize

/-- How one round of `Scan` ends: with a token (a slice of the buffer), at a `Read`
into the free end of the buffer, or with `false`. -/
inductive Pass
  | token (s : Scanner) (start stop : Nat)
  | read (s : Scanner)
  | ended (s : Scanner)

namespace Scanner

def new : Scanner where
  buf := []
  start := 0
  stop := 0
  err := none
  start_le := Nat.le_refl _
  stop_le := Nat.le_refl _
  buf_le := Nat.zero_le _

/-- `s.buf[s.start:s.end]` -/
def data (s : Scanner) : Bytes := (s.buf.take s.stop).drop s.start

theorem length_data (s : Scanner) : s.data.length = s.stop - s.start := by
  have := s.stop_le
  unfold data
  rw [List.length_drop, List.length_take, Nat.min_eq_left this]

/-- `len(s.buf) - s.end` -/
def room (s : Scanner) : Nat := s.buf.length - s.stop

/-- `s.advance(n)` -/
def advance (s : Scanner) (n : Nat) (hn : n ≤ s.data.length) : Scanner :=
  { s with
    start := s.start + n
    start_le := by
      have := s.start_le
      rw [length_data] at hn
      omega }

/-- The unread bytes are moved to the front of the buffer. -/
def shift (s : Scanner) : Scanner :=
  { s with
    buf := s.data ++ s.buf.drop (s.stop - s.start)
    start := 0
    stop := s.stop - s.start
    start_le := Nat.zero_le _
    stop_le := by rw [List.length_append, length_data]; omega
    buf_le := by
      have h1 := s.stop_le
      have h2 := s.buf_le
      rw [List.length_append, length_data, List.length_drop]
      omega }

/-- The unread bytes are moved to a new buffer of twice the size. -/
def grow (s : Scanner) : Scanner :=
  let newSize := if s.buf.length = 0 then startBufSize
    else min (s.buf.length * 2) maxScanTokenSize
  { s with
    buf := s.data ++ List.replicate (newSize - s.data.length) 0
    start := 0
    stop := s.stop - s.start
    start_le := Nat.zero_le _
    stop_le := by rw [List.length_append, length_data]; omega
    buf_le := by
      have h1 := s.stop_le
      have h2 := s.buf_le
      have h3 : newSize ≤ maxScanTokenSize := by
        show (if _ then _ else _) ≤ _
        split
        · decide
        · exact Nat.min_le_right ..
      rw [List.length_append, length_data, List.length_replicate]
      omega }

/-- Making room for a `Read` once no token was found. -/
def makeRoom (s : Scanner) : Pass :=
  if s.err.isSome then
    .ended { s with start := 0, stop := 0, start_le := Nat.le_refl _, stop_le := Nat.zero_le _ }
  else
    let s := if 0 < s.start ∧ (s.stop = s.buf.length ∨ s.buf.length / 2 < s.start)
      then s.shift else s
    if s.stop = s.buf.length then
      if maxScanTokenSize ≤ s.buf.length then .ended { s with err := some .tooLong }
      else .read s.grow
    else .read s

/-- One round of the loop of `Scan`. -/
def pass (split : SplitFunc) (s : Scanner) : Pass :=
  if s.start < s.stop ∨ s.err.isSome then
    let r := split s.data s.err.isSome
    let s' := s.advance r.advance r.advance_le
    match r.token with
    | some (a, b) => .token s' (s.start + a) (s.start + b)
    | none => s'.makeRoom
  else s.makeRoom

/-- A `Read` has returned `d`, at most as much as there was room for. -/
def fill (s : Scanner) (d : Bytes) (hd : d.length ≤ s.room) : Scanner :=
  { s with
    buf := s.buf.take s.stop ++ d ++ s.buf.drop (s.stop + d.length)
    stop := s.stop + d.length
    start_le := Nat.le_add_right_of_le s.start_le
    stop_le := by
      have := s.stop_le
      simp only [List.length_append, List.length_take, List.length_drop]
      omega
    buf_le := by
      have h1 := s.stop_le
      have h2 := s.buf_le
      unfold room at hd
      simp only [List.length_append, List.length_take, List.length_drop]
      omega }

/-- `s.setErr(err)`: the first error counts, but for `io.EOF`. -/
def setErr (s : Scanner) (err : ScanError) : Scanner :=
  match s.err with
  | none | some (.read .eof) => { s with err := some err }
  | some _ => s

/-- `s.Err()` -/
def errOf (s : Scanner) : Option ScanError :=
  if s.err = some (.read .eof) then none else s.err

/-- `append(s.buf[a:b], tail...)`: in place while the buffer goes on far enough. -/
def appendToken (s : Scanner) (a b : Nat) (tail : Bytes) : Bytes × Scanner :=
  ((s.buf.take b).drop a ++ tail,
    if h : b + tail.length ≤ s.buf.length then
      { s with
        buf := s.buf.take b ++ tail ++ s.buf.drop (b + tail.length)
        stop_le := by
          have := s.stop_le
          simp only [List.length_append, List.length_take, List.length_drop]
          omega
        buf_le := by
          have := s.buf_le
          simp only [List.length_append, List.length_take, List.length_drop]
          omega }
    else s)

/-! ## What becomes of the unread bytes -/

@[simp] theorem data_new : new.data = [] := rfl

theorem data_advance (s : Scanner) (n : Nat) (hn : n ≤ s.data.length) :
    (s.advance n hn).data = s.data.drop n := by
  show (s.buf.take s.stop).drop (s.start + n) = _
  rw [data, List.drop_drop]

/-- Shifting leaves the data as it is. -/
@[simp] theorem data_shift (s : Scanner) : s.shift.data = s.data := by
  show ((s.data ++ _).take (s.stop - s.start)).drop 0 = s.data
  rw [← s.length_data, List.take_left, List.drop_zero]

@[simp] theorem data_grow (s : Scanner) : s.grow.data = s.data := by
  show ((s.data ++ _).take (s.stop - s.start)).drop 0 = s.data
  rw [← s.length_data, List.take_left, List.drop_zero]

/-- What is read is put behind the data. -/
theorem data_fill (s : Scanner) (d : Bytes) (hd : d.length ≤ s.room) :
    (s.fill d hd).data = s.data ++ d := by
  have hstart := s.start_le
  have hstop := s.stop_le
  show ((s.buf.take s.stop ++ d ++ _).take (s.stop + d.length)).drop s.start = _
  have hlen : (s.buf.take s.stop ++ d).length = s.stop + d.length := by
    rw [List.length_append, List.length_take, Nat.min_eq_left hstop]
  rw [← hlen, List.take_left, List.drop_append_of_le_length]
  · rfl
  · rw [List.length_take, Nat.min_eq_left hstop]
    exact hstart

/-- An append that stays before the unread bytes leaves them alone. -/
theorem data_appendToken (s : Scanner) {a b : Nat} {tail : Bytes} (hb : b + tail.length ≤ s.start) :
    (s.appendToken a b tail).2.data = s.data := by
  have hstart := s.start_le
  have hstop := s.stop_le
  unfold appendToken
  dsimp only
  split
  next h =>
    show ((s.buf.take b ++ tail ++ s.buf.drop (b + tail.length)).take s.stop).drop s.start = s.data
    have hlen : (s.buf.take b ++ tail).length = b + tail.length := by
      rw [List.length_append, List.length_take, Nat.min_eq_left (by omega)]
    rw [List.take_append, hlen, List.drop_append, List.drop_eq_nil_of_le
      (by rw [List.length_take, hlen]; omega), List.nil_append, List.length_take, hlen,
      Nat.min_eq_right (by omega), List.take_drop, List.drop_drop, data]
    congr 2 <;> omega
  next => rfl

/-- The first error is kept. -/
theorem setErr_eq {s : Scanner} (h : s.err = none) (err : ScanError) :
    s.setErr err = { s with err := some err } := by
  unfold setErr
  rw [h]

@[simp] theorem appendToken_fst (s : Scanner) (a b : Nat) (tail : Bytes) :
    (s.appendToken a b tail).1 = (s.buf.take b).drop a ++ tail := rfl

@[simp] theorem appendToken_err (s : Scanner) (a b : Nat) (tail : Bytes) :
    (s.appendToken a b tail).2.err = s.err := by
  unfold appendToken
  dsimp only
  split <;> rfl

/-- A slice of the unread bytes, as a slice of the buffer. -/
theorem slice_data (s : Scanner) {a b : Nat} (hb : b ≤ s.data.length) :
    (s.buf.take (s.start + b)).drop (s.start + a) = (s.data.take b).drop a := by
  have hstart := s.start_le
  rw [length_data] at hb
  have htake : s.data.take b = (s.buf.take (s.start + b)).drop s.start := by
    rw [data, List.take_drop, List.take_take, Nat.min_eq_left (by omega)]
  rw [htake, List.drop_drop]

/-! ## A round of `Scan` -/

/-- Making room while the stream goes on: the unread bytes stay, and there is room
to read, unless they fill a buffer of the greatest size. -/
theorem makeRoom_read {s : Scanner} (herr : s.err = none)
    (hlen : s.data.length < maxScanTokenSize) :
    ∃ s', s.makeRoom = .read s' ∧ s'.data = s.data ∧ s'.err = none ∧ 0 < s'.room := by
  have hstart := s.start_le
  have hstop := s.stop_le
  have hbuf := s.buf_le
  rw [length_data] at hlen
  unfold makeRoom
  rw [herr, Option.isSome_none, if_neg (by simp)]
  by_cases hshift : 0 < s.start ∧ (s.stop = s.buf.length ∨ s.buf.length / 2 < s.start)
  · -- after a shift the end of the buffer is free
    have hfree : s.shift.stop < s.shift.buf.length := by
      show s.stop - s.start < (s.data ++ s.buf.drop (s.stop - s.start)).length
      rw [List.length_append, length_data, List.length_drop]
      omega
    simp only [if_pos hshift]
    rw [if_neg (by omega)]
    exact ⟨s.shift, rfl, data_shift s, herr, Nat.sub_pos_of_lt hfree⟩
  · simp only [if_neg hshift]
    by_cases hfull : s.stop = s.buf.length
    · have hzero : s.start = 0 := by omega
      rw [if_pos hfull, if_neg (by omega)]
      refine ⟨s.grow, rfl, data_grow s, herr, ?_⟩
      show 0 < (s.data ++ List.replicate (_ - s.data.length) 0).length - (s.stop - s.start)
      rw [List.length_append, length_data, List.length_replicate]
      by_cases hempty : s.buf.length = 0
      · rw [if_pos hempty]
        unfold startBufSize
        omega
      · rw [if_neg hempty]
        omega
    · rw [if_neg hfull]
      exact ⟨s, rfl, rfl, herr, Nat.sub_pos_of_lt (by omega)⟩

/-! ## What a round of `Scan` can be -/

theorem length_data_le (s : Scanner) : s.data.length ≤ s.buf.length := by
  have := s.stop_le
  rw [length_data]
  omega

/-- With an error there is no room to make: the scan ends. -/
theorem makeRoom_err {s : Scanner} (herr : s.err.isSome = true) :
    ∃ s', s.makeRoom = .ended s' ∧ s'.err = s.err ∧ s'.data = [] := by
  unfold makeRoom
  rw [if_pos herr]
  exact ⟨_, rfl, rfl, rfl⟩

/-- Unread bytes that fill a buffer of the greatest size end the scan. -/
theorem makeRoom_full {s : Scanner} (herr : s.err = none)
    (hlen : maxScanTokenSize ≤ s.data.length) :
    ∃ s', s.makeRoom = .ended s' ∧ s'.err = some .tooLong ∧ s'.data = s.data := by
  have hstop := s.stop_le
  have hbuf := s.buf_le
  have hstart := s.start_le
  have hdata := s.length_data
  unfold makeRoom
  rw [herr, Option.isSome_none, if_neg (by simp)]
  have hnoshift : ¬(0 < s.start ∧ (s.stop = s.buf.length ∨ s.buf.length / 2 < s.start)) := by
    unfold maxScanTokenSize at *
    omega
  simp only [if_neg hnoshift]
  rw [if_pos (by omega), if_pos (by omega)]
  exact ⟨_, rfl, rfl, rfl⟩

/-- Making room gives no token. -/
theorem makeRoom_ne_token (s s' : Scanner) (a b : Nat) : s.makeRoom ≠ .token s' a b := by
  intro h
  by_cases herr : s.err = none
  · rcases Nat.lt_or_ge s.data.length maxScanTokenSize with hlen | hlen
    · obtain ⟨_, hroom, -⟩ := makeRoom_read herr hlen
      rw [hroom] at h
      cases h
    · obtain ⟨_, hroom, -⟩ := makeRoom_full herr hlen
      rw [hroom] at h
      cases h
  · obtain ⟨_, hroom, -⟩ := makeRoom_err (Option.isSome_iff_ne_none.mpr herr)
    rw [hroom] at h
    cases h

/-- A read has room, and the data is as it was. -/
theorem makeRoom_eq_read {s s' : Scanner} (h : s.makeRoom = .read s') :
    s.err = none ∧ s'.data = s.data ∧ s'.err = none ∧ 0 < s'.room := by
  by_cases herr : s.err = none
  · rcases Nat.lt_or_ge s.data.length maxScanTokenSize with hlen | hlen
    · obtain ⟨_, hroom, hdata, herr', hpos⟩ := makeRoom_read herr hlen
      rw [hroom] at h
      cases h
      exact ⟨herr, hdata, herr', hpos⟩
    · obtain ⟨_, hroom, -⟩ := makeRoom_full herr hlen
      rw [hroom] at h
      cases h
  · obtain ⟨_, hroom, -⟩ := makeRoom_err (Option.isSome_iff_ne_none.mpr herr)
    rw [hroom] at h
    cases h

/-- The scan ends with an error, or with a token that is too long. -/
theorem makeRoom_eq_ended {s s' : Scanner} (h : s.makeRoom = .ended s') :
    (s.err ≠ none ∧ s'.err = s.err ∧ s'.data = []) ∨
      (s.err = none ∧ s'.err = some .tooLong ∧ s'.data = s.data ∧
        s.data.length = maxScanTokenSize) := by
  by_cases herr : s.err = none
  · rcases Nat.lt_or_ge s.data.length maxScanTokenSize with hlen | hlen
    · obtain ⟨_, hroom, -⟩ := makeRoom_read herr hlen
      rw [hroom] at h
      cases h
    · obtain ⟨_, hroom, herr', hdata⟩ := makeRoom_full herr hlen
      rw [hroom] at h
      cases h
      exact .inr ⟨herr, herr', hdata, Nat.le_antisymm (Nat.le_trans s.length_data_le s.buf_le) hlen⟩
  · obtain ⟨_, hroom, herr', hdata⟩ := makeRoom_err (Option.isSome_iff_ne_none.mpr herr)
    rw [hroom] at h
    cases h
    exact .inl ⟨herr, herr', hdata⟩

variable {split : SplitFunc} {s s' : Scanner}

/-- The split function is called, and finds a token or not; or there is nothing to split. -/
theorem pass_cases (split : SplitFunc) (s : Scanner) :
    (∃ a b, (split s.data s.err.isSome).token = some (a, b) ∧
      s.pass split = .token (s.advance _ (split s.data s.err.isSome).advance_le) (s.start + a)
        (s.start + b)) ∨
    ((split s.data s.err.isSome).token = none ∧
      s.pass split = (s.advance _ (split s.data s.err.isSome).advance_le).makeRoom) ∨
    (s.data = [] ∧ s.err = none ∧ s.pass split = s.makeRoom) := by
  unfold pass
  by_cases hcall : s.start < s.stop ∨ s.err.isSome = true
  · rw [if_pos hcall]
    cases htok : (split s.data s.err.isSome).token with
    | none =>
      refine .inr (.inl ⟨rfl, ?_⟩)
      simp only [htok]
    | some t =>
      refine .inl ⟨t.1, t.2, rfl, ?_⟩
      simp only [htok]
  · rw [if_neg hcall]
    rw [not_or] at hcall
    refine .inr (.inr ⟨?_, by simpa using hcall.2, rfl⟩)
    rw [← List.length_eq_zero_iff, length_data]
    omega

/-- When a pass gives a token. -/
theorem pass_eq_token {i j : Nat} (h : s.pass split = .token s' i j) :
    ∃ a b, (split s.data s.err.isSome).token = some (a, b) ∧ i = s.start + a ∧ j = s.start + b ∧
      s' = s.advance _ (split s.data s.err.isSome).advance_le := by
  rcases pass_cases split s with ⟨a, b, htok, hpass⟩ | ⟨-, hpass⟩ | ⟨-, -, hpass⟩
  · rw [hpass] at h
    cases h
    exact ⟨a, b, htok, rfl, rfl, rfl⟩
  · rw [hpass] at h
    exact absurd h (makeRoom_ne_token _ _ _ _)
  · rw [hpass] at h
    exact absurd h (makeRoom_ne_token _ _ _ _)

/-- When a pass goes on to read. -/
theorem pass_eq_read (h : s.pass split = .read s') :
    s.err = none ∧ s'.err = none ∧ 0 < s'.room ∧
      (((split s.data false).token = none ∧ s'.data = s.data.drop (split s.data false).advance) ∨
        (s.data = [] ∧ s'.data = [])) := by
  rcases pass_cases split s with ⟨a, b, htok, hpass⟩ | ⟨htok, hpass⟩ | ⟨hdata, -, hpass⟩
  · rw [hpass] at h
    cases h
  · rw [hpass] at h
    obtain ⟨herr, hdata, herr', hpos⟩ := makeRoom_eq_read h
    rw [data_advance] at hdata
    have hnone : s.err = none := herr
    rw [hnone] at htok hdata
    exact ⟨hnone, herr', hpos, .inl ⟨htok, hdata⟩⟩
  · rw [hpass] at h
    obtain ⟨herr, hdata', herr', hpos⟩ := makeRoom_eq_read h
    exact ⟨herr, herr', hpos, .inr ⟨hdata, hdata'.trans hdata⟩⟩

/-- When a pass ends the scan. -/
theorem pass_eq_ended (h : s.pass split = .ended s') :
    (s.err ≠ none ∧ s'.err = s.err ∧ s'.data = [] ∧ (split s.data true).token = none) ∨
      (s.err = none ∧ s'.err = some .tooLong ∧ s'.data = s.data ∧ s.data.length = maxScanTokenSize ∧
        (split s.data false).token = none ∧ (split s.data false).advance = 0) := by
  have hmax : 0 < maxScanTokenSize := by decide
  have hle : s.data.length ≤ maxScanTokenSize := Nat.le_trans s.length_data_le s.buf_le
  rcases pass_cases split s with ⟨a, b, htok, hpass⟩ | ⟨htok, hpass⟩ | ⟨hdata, hnone, hpass⟩
  · rw [hpass] at h
    cases h
  · rw [hpass] at h
    rcases makeRoom_eq_ended h with ⟨herr, herr', hdata⟩ | ⟨herr, herr', hdata, hlen⟩
    · have hsome : s.err.isSome = true := Option.isSome_iff_ne_none.mpr herr
      rw [hsome] at htok
      exact .inl ⟨herr, herr', hdata, htok⟩
    · have hnone : s.err = none := herr
      have hsome : (none : Option ScanError).isSome = false := rfl
      rw [data_advance, hnone, hsome] at hdata hlen
      rw [hnone, hsome] at htok
      rw [List.length_drop] at hlen
      have hzero : (split s.data false).advance = 0 := by omega
      rw [hzero, List.drop_zero] at hdata
      exact .inr ⟨hnone, herr', hdata, by omega, htok, hzero⟩
  · rw [hpass] at h
    rcases makeRoom_eq_ended h with ⟨herr, -⟩ | ⟨-, -, -, hlen⟩
    · exact absurd hnone herr
    · rw [hdata, List.length_nil] at hlen
      omega

/-! ## A round of `Scan` with `ScanLines` -/

/-- A newline among the unread bytes: the line before it is the token. -/
theorem pass_line {s : Scanner} (herr : s.err = none) {line rest : Bytes}
    (hcut : cut newline s.data = some (line, rest)) :
    ∃ s' a b, s.pass scanLines = .token s' a b ∧ s'.data = rest ∧ s'.err = none ∧
      (s'.buf.take b).drop a = dropCR line.dropLast ∧ b + 1 ≤ s'.start := by
  obtain ⟨hdata, pre, rfl, hpre⟩ := cut_eq_some hcut
  have hlen : s.data.length = pre.length + 1 + rest.length := by
    rw [hdata, List.length_append, List.length_append, List.length_singleton]
  have hle := length_dropCR_le pre
  have hline := scanLines_line hpre rest s.err.isSome
  rw [List.append_cons, ← hdata] at hline
  rw [List.dropLast_concat]
  rcases pass_cases scanLines s with ⟨a, b, htok, hpass⟩ | ⟨hnone, -⟩ | ⟨hnil, -⟩
  · rw [hline.1] at htok
    cases htok
    refine ⟨_, _, _, hpass, ?_, herr, ?_, ?_⟩
    · rw [data_advance _ _ (Split.advance_le _), hline.2, hdata]
      exact List.drop_left' (by rw [List.length_append, List.length_singleton])
    · show (s.buf.take (s.start + (dropCR pre).length)).drop (s.start + 0) = dropCR pre
      rw [slice_data s (by omega), List.drop_zero, hdata, List.append_assoc,
        List.take_append_of_le_length hle, take_dropCR]
    · show s.start + (dropCR pre).length + 1 ≤ s.start + (scanLines s.data s.err.isSome).advance
      rw [hline.2]
      omega
  · rw [hline.1] at hnone
    cases hnone
  · rw [hnil, List.length_nil] at hlen
    omega

/-- No newline yet: `Scan` reads on. -/
theorem pass_read {s : Scanner} (herr : s.err = none) (hnl : newline ∉ s.data)
    (hlen : s.data.length < maxScanTokenSize) :
    ∃ s', s.pass scanLines = .read s' ∧ s'.data = s.data ∧ s'.err = none ∧ 0 < s'.room := by
  have hmore := scanLines_more hnl
  rcases pass_cases scanLines s with ⟨a, b, htok, -⟩ | ⟨-, hpass⟩ | ⟨-, -, hpass⟩
  · rw [herr] at htok
    rw [show (none : Option ScanError).isSome = false from rfl, hmore.1] at htok
    cases htok
  · have hsame : (s.advance _ (scanLines s.data s.err.isSome).advance_le).data = s.data := by
      have hzero : (scanLines s.data s.err.isSome).advance = 0 := by
        rw [herr]
        exact hmore.2
      rw [data_advance _ _ (Split.advance_le _), hzero, List.drop_zero]
    obtain ⟨s', hroom, hdata, herr', hpos⟩ :=
      makeRoom_read (s := s.advance _ (Split.advance_le _)) herr
      (by rw [hsame]; exact hlen)
    exact ⟨s', hpass.trans hroom, hdata.trans hsame, herr', hpos⟩
  · obtain ⟨s', hroom, hdata, herr', hpos⟩ := makeRoom_read herr hlen
    exact ⟨s', hpass.trans hroom, hdata, herr', hpos⟩

end Scanner

end ShouldIAsync.GoStd
