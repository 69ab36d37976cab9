import ShouldIAsync.GoStd.Scanner
import ShouldIAsync.HarnessIo.MorphingWriter

/-!
# `ScanningWriter`: a goroutine that forwards token by token

`NewScanningWriter` starts a goroutine that scans the far end of a pipe and writes
each token with the delimiter appended to the destination. `Write` is the pipe's
`Write`; it returns as soon as the scanner has taken the bytes. The model is the
goroutine's program counter and `scanStep`, its next action, and `ScanMove` lists what
that can be; the destination is a parameter, the writes made on it so far and the bytes
deciding its error.

For `bufio.ScanLines` and the delimiter newline, `ScanInv` follows the bytes given
to `Write`: whole lines already forwarded or in hand, the unread bytes of the
scanner, and what the `Write` in progress still offers.
-/

namespace ShouldIAsync.HarnessIo

open ShouldIAsync.GoStd

/-- The program counter of the goroutine. -/
inductive Scan
  -- in `scanner.Scan()`, about to look for a token
  | scanning
  -- in the scanner's `Read`, after `loop` empty ones
  | reading (loop : Nat)
  -- in `writer.Write(bytes)`
  | writing (bytes : Bytes)
  -- at `pipeReader.Close()`
  | closing
  -- at the assignment of `w.err`
  | finish
  | returned

/-- The scanning goroutine, its pipe and what it has written. -/
structure ScanState where
  pipe : Pipe := {}
  scanner : Scanner := .new
  pc : Scan := .scanning
  err : Option IoErr := none
  readerDone : Bool := false
  -- the writes made on the destination
  out : List Bytes := []

/-- A scanner's error, as an error of this package. -/
def scanIoError : ScanError → IoError
  | .read .eof => .eof
  | .read .closedPipe => .closedPipe
  | .tooLong => .tooLong
  | .noProgress => .noProgress

section Steps

variable (split : SplitFunc) (outputDelimeter : Bytes) (writer : List Bytes → Bytes → Option IoErr)

/-- The next action of the goroutine. -/
def scanStep (s : ScanState) : Option ScanState :=
  match s.pc with
  | .scanning =>
    match s.scanner.pass split with
    | .token scanner a b =>
      let (bytes, scanner) := scanner.appendToken a b outputDelimeter
      some { s with scanner := scanner, pc := .writing bytes }
    | .read scanner => some { s with scanner := scanner, pc := .reading 0 }
    | .ended scanner => some { s with scanner := scanner, pc := .closing }
  | .reading loop =>
    match h : s.pipe.read s.scanner.room with
    | .blocked => none
    | .data d pipe =>
      if d = [] then
        if maxConsecutiveEmptyReads < loop + 1 then
          some { s with pipe := pipe, scanner := s.scanner.setErr .noProgress, pc := .scanning }
        else some { s with pipe := pipe, pc := .reading (loop + 1) }
      else
        some { s with
          pipe := pipe
          scanner := s.scanner.fill d (Pipe.read_length_le h)
          pc := .scanning }
    | .closed err => some { s with scanner := s.scanner.setErr (.read err), pc := .scanning }
  | .writing bytes =>
    match writer s.out bytes with
    | none => some { s with out := s.out ++ [bytes], pc := .scanning }
    | some err =>
      some { s with
        out := s.out ++ [bytes]
        err := Error.wrapPrefix "ScanWriter destWriter Write(): " (some err)
        pc := .closing }
  | .closing => some { s with pipe := s.pipe.closeRead, pc := .finish }
  | .finish =>
    some { s with
      err := Error.joinAll [s.err,
        Error.wrapPrefix "ScanWriter scanner Scan(): " (s.scanner.errOf.map (.leaf ∘ scanIoError)),
        Error.wrapPrefix "ScanWriter pipereader Close(): " none]
      readerDone := true
      pc := .returned }
  | .returned => none

end Steps

/-- `w.pipeWriter.Write(p)` is entered. -/
def ScanState.write (s : ScanState) (p : Bytes) : ScanState :=
  { s with pipe := s.pipe.offerWrite p }

/-- What the `Write` in progress returns, once it can. -/
def ScanState.writeResult (s : ScanState) : Option WriteResult :=
  match s.pipe.offer with
  | none => some (s.pipe.sent, none)
  | some _ => if s.pipe.done then some (s.pipe.sent, some (.leaf .closedPipe)) else none

/-! ## The actions of the goroutine -/

section Moves

variable (split : SplitFunc) (outputDelimeter : Bytes) (writer : List Bytes → Bytes → Option IoErr)

/-- An action of the goroutine and what it leaves. -/
inductive ScanMove (s : ScanState) : ScanState → Prop
  | token {scanner : Scanner} {a b : Nat} (hpc : s.pc = .scanning)
      (hpass : s.scanner.pass split = .token scanner a b) :
      ScanMove s { s with
        scanner := (scanner.appendToken a b outputDelimeter).2
        pc := .writing (scanner.appendToken a b outputDelimeter).1 }
  | room {scanner : Scanner} (hpc : s.pc = .scanning)
      (hpass : s.scanner.pass split = .read scanner) :
      ScanMove s { s with scanner := scanner, pc := .reading 0 }
  | ended {scanner : Scanner} (hpc : s.pc = .scanning)
      (hpass : s.scanner.pass split = .ended scanner) :
      ScanMove s { s with scanner := scanner, pc := .closing }
  | empty {loop : Nat} {pipe : Pipe} (hpc : s.pc = .reading loop)
      (hread : s.pipe.read s.scanner.room = .data [] pipe) :
      ScanMove s { s with pipe := pipe, pc := .reading (loop + 1) }
  | noProgress {loop : Nat} {pipe : Pipe} (hpc : s.pc = .reading loop)
      (hread : s.pipe.read s.scanner.room = .data [] pipe) :
      ScanMove s { s with pipe := pipe, scanner := s.scanner.setErr .noProgress, pc := .scanning }
  | fill {loop : Nat} {d : Bytes} {pipe : Pipe} (hpc : s.pc = .reading loop)
      (hread : s.pipe.read s.scanner.room = .data d pipe) (hd : d ≠ []) :
      ScanMove s { s with
        pipe := pipe
        scanner := s.scanner.fill d (Pipe.read_length_le hread)
        pc := .scanning }
  | closed {loop : Nat} {err : PipeError} (hpc : s.pc = .reading loop)
      (hread : s.pipe.read s.scanner.room = .closed err) :
      ScanMove s { s with scanner := s.scanner.setErr (.read err), pc := .scanning }
  | written {bytes : Bytes} (hpc : s.pc = .writing bytes) (hok : writer s.out bytes = none) :
      ScanMove s { s with out := s.out ++ [bytes], pc := .scanning }
  | failed {bytes : Bytes} {err : IoErr} (hpc : s.pc = .writing bytes)
      (herr : writer s.out bytes = some err) :
      ScanMove s { s with
        out := s.out ++ [bytes]
        err := Error.wrapPrefix "ScanWriter destWriter Write(): " (some err)
        pc := .closing }
  | close (hpc : s.pc = .closing) : ScanMove s { s with pipe := s.pipe.closeRead, pc := .finish }
  | finish (hpc : s.pc = .finish) :
      ScanMove s { s with
        err := Error.joinAll [s.err,
          Error.wrapPrefix "ScanWriter scanner Scan(): "
            (s.scanner.errOf.map (.leaf ∘ scanIoError)),
          Error.wrapPrefix "ScanWriter pipereader Close(): " none]
        readerDone := true
        pc := .returned }

variable {split outputDelimeter writer}

/-- Everything one action of the goroutine can do. -/
theorem scanStep_move {s t : ScanState} (h : scanStep split outputDelimeter writer s = some t) :
    ScanMove split outputDelimeter writer s t := by
  unfold scanStep at h
  split at h
  next hs =>
    split at h
    next hpass => cases h; exact .token hs hpass
    next hpass => cases h; exact .room hs hpass
    next hpass => cases h; exact .ended hs hpass
  next loop hs =>
    split at h
    · cases h
    next d pipe hread =>
      split at h
      next hd =>
        subst hd
        split at h
        · cases h; exact .noProgress hs hread
        · cases h; exact .empty hs hread
      next hd => cases h; exact .fill hs hread hd
    next err hread => cases h; exact .closed hs hread
  next bytes hs =>
    split at h
    next hok => cases h; exact .written hs hok
    next err herr => cases h; exact .failed hs herr
  next hs => cases h; exact .close hs
  next hs => cases h; exact .finish hs
  · cases h

/-- The goroutine waits only for bytes, or has returned. -/
theorem scanStep_eq_none {s : ScanState} (h : scanStep split outputDelimeter writer s = none) :
    s.pc = .returned ∨ (∃ loop, s.pc = .reading loop) ∧ s.pipe.done = false ∧
      s.pipe.offer = none := by
  unfold scanStep at h
  split at h
  next hs => split at h <;> cases h
  next loop hs =>
    split at h
    next hread => exact .inr ⟨⟨loop, hs⟩, Pipe.read_blocked hread⟩
    next d pipe hread =>
      split at h
      · split at h <;> cases h
      · cases h
    next => cases h
  next bytes hs => split at h <;> cases h
  · cases h
  · cases h
  next hs => exact .inl hs

end Moves

/-! ## Lines -/

/-- The write made for a line: without a trailing CR, with a newline. -/
def forwarded (line : Bytes) : Bytes := dropCR line ++ [newline]

/-- No newline-free stretch of the stream fills the scanner's greatest buffer. -/
def Short (stream : Bytes) : Prop :=
  ∀ a b c, stream = a ++ b ++ c → newline ∉ b → b.length < maxScanTokenSize

/-- The front of a short text is short. -/
theorem Short.isPrefix {s t : Bytes} (h : Short (s ++ t)) : Short s := by
  intro a b c hs hb
  exact h a b (c ++ t) (by rw [hs]; simp) hb

/-- A text shorter than a token may be is short. -/
theorem Short.of_length {s : Bytes} (h : s.length < maxScanTokenSize) : Short s := by
  rintro a b c rfl _
  rw [List.length_append, List.length_append] at h
  omega

/-- The goroutine of a writer whose pipe is open, over lines that are short. -/
structure ScanInv (s : ScanState) (given : Bytes) : Prop where
  isOpen : s.pipe.done = false
  offers : s.pipe.offer ≠ some []
  noErr : s.scanner.err = none
  lines : ∃ ls : List Bytes, (∀ l ∈ ls, newline ∉ l) ∧
    given = (ls.map (· ++ [newline])).flatten ++ s.scanner.data ++ s.pipe.offer.getD [] ∧
    match s.pc with
    | .scanning => s.out = ls.map forwarded
    | .reading _ => s.out = ls.map forwarded ∧ newline ∉ s.scanner.data ∧ 0 < s.scanner.room
    | .writing bytes => s.out ++ [bytes] = ls.map forwarded
    | .closing | .finish | .returned => False

theorem scanInv_initial : ScanInv {} [] :=
  ⟨rfl, by simp, rfl, [], by simp, rfl, rfl⟩

/-- A `Write` keeps it. -/
theorem ScanInv.write {s : ScanState} {given : Bytes} (h : ScanInv s given)
    (hoff : s.pipe.offer = none) {p : Bytes} (hp : p ≠ []) :
    ScanInv (s.write p) (given ++ p) := by
  obtain ⟨hopen, -, herr, ls, hls, hgiven, hpc⟩ := h
  refine ⟨hopen, ?_, herr, ls, hls, ?_, hpc⟩
  · intro hnil
    exact hp (Option.some.inj hnil)
  rw [hoff] at hgiven
  rw [hgiven]
  simp [ScanState.write]

/-- What is left to do for the goroutine: a byte is read, scanned and forwarded. -/
def scanWeight (s : ScanState) : Nat :=
  5 * s.pipe.weight + 3 * s.scanner.data.length +
    match s.pc with
    | .scanning => 3
    | .reading _ => 2
    | .writing _ => 4
    | .closing | .finish | .returned => 0

/-- **One action of the goroutine preserves the invariant** and lowers the weight,
unless the destination fails. -/
theorem scanStep_inv {writer : List Bytes → Bytes → Option IoErr} {s t : ScanState} {given : Bytes}
    (h : ScanInv s given) (hshort : Short given)
    (hdest : ∀ bytes, s.pc = .writing bytes → writer s.out bytes = none)
    (hstep : scanStep scanLines [newline] writer s = some t) :
    ScanInv t given ∧ scanWeight t < scanWeight s := by
  obtain ⟨hopen, hoffers, herr, ls, hls, hgiven, hpc⟩ := h
  unfold scanStep at hstep
  unfold scanWeight
  split at hstep
  next hs =>
    rw [hs] at hpc
    cases hcut : cut newline s.scanner.data with
    | some p =>
      obtain ⟨line, rest⟩ := p
      obtain ⟨hdata, pre, rfl, hpre⟩ := cut_eq_some hcut
      obtain ⟨sc, a, b, hpass, hrest, hscerr, hslice, hb⟩ := Scanner.pass_line herr hcut
      have hrest' : (sc.appendToken a b [newline]).2.data = rest := by
        rw [Scanner.data_appendToken sc hb, hrest]
      rw [hpass] at hstep
      obtain rfl := Option.some.inj hstep
      refine ⟨⟨hopen, hoffers, ?_, ls ++ [pre], ?_, ?_, ?_⟩, ?_⟩
      · show (sc.appendToken a b [newline]).2.err = none
        rw [Scanner.appendToken_err, hscerr]
      · intro l hl
        rcases List.mem_append.mp hl with hl | hl
        · exact hls l hl
        · rw [List.mem_singleton.mp hl]
          exact hpre
      · show given = _ ++ (sc.appendToken a b [newline]).2.data ++ _
        rw [hrest', hgiven, hdata]
        simp
      · show s.out ++ [(sc.appendToken a b [newline]).1] = _
        rw [Scanner.appendToken_fst, hslice, List.dropLast_concat, List.map_append, hpc]
        rfl
      · show 5 * s.pipe.weight + 3 * (sc.appendToken a b [newline]).2.data.length + 4 < _
        rw [hrest', hdata]
        simp only [List.length_append, List.length_cons, List.length_nil]
        omega
    | none =>
      have hnl := cut_eq_none.mp hcut
      have hlen := hshort _ _ _ hgiven hnl
      obtain ⟨sc, hpass, hdata, hscerr, hroom⟩ := Scanner.pass_read herr hnl hlen
      rw [hpass] at hstep
      obtain rfl := Option.some.inj hstep
      refine ⟨⟨hopen, hoffers, hscerr, ls, hls, by rw [hgiven, hdata], hpc,
        by rw [hdata]; exact hnl, hroom⟩, ?_⟩
      show 5 * s.pipe.weight + 3 * sc.data.length + 2 < _
      rw [hdata]
      omega
  next loop hs =>
    rw [hs] at hpc
    obtain ⟨hout, hnl, hroom⟩ := hpc
    split at hstep
    · cases hstep
    next d pipe hread =>
      obtain ⟨-, hweight⟩ := Pipe.read_weight hroom hread
      obtain ⟨-, b, hb, rfl, hoff, -, hrc, hwc⟩ := Pipe.read_data hread
      have hopen' : pipe.done = false := by
        rw [Pipe.done, hrc, hwc]
        exact hopen
      rw [hb] at hgiven hoffers
      have htake : b.take s.scanner.room ≠ [] := by
        intro hnil
        rcases List.take_eq_nil_iff.mp hnil with h0 | h0
        · omega
        · exact hoffers (congrArg some h0)
      rw [if_neg htake] at hstep
      obtain rfl := Option.some.inj hstep
      refine ⟨⟨hopen', ?_, herr, ls, hls, ?_, hout⟩, ?_⟩
      · show pipe.offer ≠ some []
        rw [hoff]
        split
        · simp
        next hne =>
          intro hnil
          exact hne (Option.some.inj hnil)
      · have hrest : pipe.offer.getD [] = b.drop s.scanner.room := by
          rw [hoff]
          split
          next hnil => rw [hnil]; rfl
          next => rfl
        show given = _ ++ (s.scanner.fill _ (Pipe.read_length_le hread)).data ++ pipe.offer.getD []
        rw [Scanner.data_fill, hrest, hgiven]
        simp
      · show
          5 * pipe.weight + 3 * (s.scanner.fill _ (Pipe.read_length_le hread)).data.length + 3 < _
        have hpos := List.length_pos_iff.mpr htake
        rw [Scanner.data_fill, List.length_append]
        omega
    next err hread =>
      rw [(Pipe.read_closed hread).1] at hopen
      cases hopen
  next bytes hs =>
    rw [hs] at hpc
    rw [hdest bytes hs] at hstep
    obtain rfl := Option.some.inj hstep
    refine ⟨⟨hopen, hoffers, herr, ls, hls, hgiven, hpc⟩, ?_⟩
    show 5 * s.pipe.weight + 3 * s.scanner.data.length + 3 < _
    omega
  next hs =>
    rw [hs] at hpc
    exact hpc.elim
  next hs =>
    rw [hs] at hpc
    exact hpc.elim
  · cases hstep

end ShouldIAsync.HarnessIo
