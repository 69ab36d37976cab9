import ShouldIAsync.HarnessIo.ScanningRun

/-!
# A `ScanningWriter` forwards tokens

`Scanned` is the invariant of the goroutine: what it has written, and has in hand, are the
first tokens of the bytes it has read, with the delimiter; what is left of them is in the
scanner's buffer. It holds for a lawful split function and any delimiter whose `append` to
a token leaves the unread bytes alone (`Harmless`), whoever calls `Write` and `Close`
(`Scanned.move`).

For a destination that does not fail, `Delivering.outcome` reads off what a whole run comes
to: all tokens of the stream and no error, or those before the first one that is too long
and an error.
-/

namespace ShouldIAsync.HarnessIo

open ShouldIAsync.Lib ShouldIAsync.GoStd

/-! ## The invariant of the goroutine -/

/-- Appending the delimiter to a token in a buffer of at most `size` bytes leaves the unread
bytes alone. -/
def Harmless (split : SplitFunc) (outputDelimeter : Bytes) (size : Nat) : Prop :=
  ∀ (sc sc' : Scanner) (a b : Nat), sc.buf.length ≤ size → sc.pass split = .token sc' a b →
    (sc'.appendToken a b outputDelimeter).2.data = sc'.data

/-- The buffer does not grow beyond `size` bytes. -/
def Bounded (split : SplitFunc) (size : Nat) : Prop :=
  ∀ sc sc' : Scanner, sc.buf.length ≤ size → sc.pass split = .read sc' → sc'.buf.length ≤ size

/-- What is written next. -/
def ScanState.inHand (s : ScanState) : List Bytes :=
  match s.pc with
  | .writing bytes => [bytes]
  | _ => []

/-- The tokens `T` are taken from the bytes `R`, and the rest is still in the buffer. -/
def Ahead (split : SplitFunc) (R : Bytes) (T : List Bytes) (sc : Scanner) : Prop :=
  match sc.err with
  | none => ∀ e, tokenize split (R ++ e) =
      (T ++ (tokenize split (sc.data ++ e)).1, (tokenize split (sc.data ++ e)).2)
  | some x => x ≠ .tooLong ∧ sc.data.length < maxScanTokenSize ∧
      tokenize split R = (T ++ (tokenize split sc.data).1, (tokenize split sc.data).2)

/-- How the scan of the bytes `R` came to its end, by `w.err` and the scanner's error. -/
inductive Ended (split : SplitFunc) (R : Bytes) (T : List Bytes) :
    Option IoErr → Option ScanError → Prop
  | failed {err : IoErr} {x : Option ScanError} (h : T <+: (tokenize split R).1) :
      Ended split R T (some err) x
  | tooLong (h : ∀ e, tokenize split (R ++ e) = (T, true)) : Ended split R T none (some .tooLong)
  | all {x : ScanError} (hx : x ≠ .tooLong) (h : tokenize split R = (T, false)) :
      Ended split R T none (some x)

/-- The join at the end of the goroutine. -/
def finalErr (err : Option IoErr) (sc : Scanner) : Option IoErr :=
  Error.joinAll [err,
    Error.wrapPrefix "ScanWriter scanner Scan(): " (sc.errOf.map (.leaf ∘ scanIoError)),
    Error.wrapPrefix "ScanWriter pipereader Close(): " none]

/-- How far the goroutine is with the bytes `R`, of which `T` are the tokens taken. -/
def Progress (split : SplitFunc) (R : Bytes) (T : List Bytes) (s : ScanState) : Prop :=
  match s.pc with
  | .scanning | .writing _ => s.err = none ∧ Ahead split R T s.scanner
  | .reading _ => s.err = none ∧ Ahead split R T s.scanner ∧ s.scanner.err = none ∧
    0 < s.scanner.room
  | .closing | .finish => Ended split R T s.err s.scanner.err
  | .returned => ∃ err, s.err = finalErr err s.scanner ∧ Ended split R T err s.scanner.err

/-- The goroutine has read the bytes `R`. -/
structure Scanned (split : SplitFunc) (outputDelimeter : Bytes) (size : Nat) (s : ScanState)
    (R : Bytes) :
    Prop where
  buf_le : s.scanner.buf.length ≤ size
  taken : ∃ T, s.out ++ s.inHand = T.map (· ++ outputDelimeter) ∧ Progress split R T s

section Step

variable {split : SplitFunc} {outputDelimeter : Bytes} {size : Nat}
  {writer : List Bytes → Bytes → Option IoErr} {s t : ScanState} {R : Bytes} {T : List Bytes}

theorem scanned_initial (split : SplitFunc) (outputDelimeter : Bytes) (size : Nat) :
    Scanned split outputDelimeter size {} [] where
  buf_le := Nat.zero_le _
  taken := ⟨[], rfl, rfl, fun _ => rfl⟩

/-- The tokens so far are the front of all tokens. -/
theorem Ahead.isPrefix {sc : Scanner} (h : Ahead split R T sc) : T <+: (tokenize split R).1 := by
  unfold Ahead at h
  split at h
  next =>
    have h0 := h []
    rw [List.append_nil] at h0
    rw [h0]
    exact List.prefix_append ..
  next =>
    rw [h.2.2]
    exact List.prefix_append ..

/-- The tokens taken are the first ones of the bytes read. -/
theorem Progress.isPrefix (h : Progress split R T s) : T <+: (tokenize split R).1 := by
  have hended : ∀ {err x}, Ended split R T err x → T <+: (tokenize split R).1 := by
    intro err x hend
    cases hend with
    | failed h => exact h
    | tooLong h =>
      have h0 := h []
      rw [List.append_nil] at h0
      exact ⟨[], by rw [h0, List.append_nil]⟩
    | all hx h => exact ⟨[], by rw [h, List.append_nil]⟩
  unfold Progress at h
  split at h
  · exact h.2.isPrefix
  · exact h.2.isPrefix
  · exact h.2.1.isPrefix
  · exact hended h
  · exact hended h
  · obtain ⟨_, -, hend⟩ := h
    exact hended hend

/-- The data fits in the largest buffer. -/
theorem data_le (sc : Scanner) : sc.data.length ≤ maxScanTokenSize :=
  Nat.le_trans sc.length_data_le sc.buf_le

/-- A token is taken from the buffer. -/
theorem Ahead.token (hl : Lawful split) {sc sc' : Scanner} (h : Ahead split R T sc) {i j : Nat}
    (hpass : sc.pass split = .token sc' i j) :
    Ahead split R (T ++ [(sc'.buf.take j).drop i]) sc' := by
  obtain ⟨a, b, htok, rfl, rfl, rfl⟩ := Scanner.pass_eq_token hpass
  have hb : b ≤ sc.data.length :=
    Nat.le_trans ((split sc.data sc.err.isSome).token_le _ htok).2
      (split sc.data sc.err.isSome).advance_le
  have hslice := sc.slice_data (a := a) hb
  have herr : (sc.advance _ (split sc.data sc.err.isSome).advance_le).err = sc.err := rfl
  have hbuf : (sc.advance _ (split sc.data sc.err.isSome).advance_le).buf = sc.buf := rfl
  unfold Ahead at h ⊢
  rw [herr, hbuf, hslice, Scanner.data_advance]
  split at h
  next hnone =>
    have hsome : sc.err.isSome = false := by rw [hnone]; rfl
    rw [hsome] at htok ⊢
    intro e
    rw [h e, tokenize_token hl (data_le sc) htok]
    simp
  next x hx =>
    have hsome : sc.err.isSome = true := by rw [hx]; rfl
    rw [hsome] at htok ⊢
    obtain ⟨hne, hlen, h⟩ := h
    refine ⟨hne, ?_, ?_⟩
    · rw [List.length_drop]
      omega
    · rw [h, tokenize_token_eof hlen htok]
      simp

/-- Room is made to read on. -/
theorem Ahead.room (hl : Lawful split) {sc sc' : Scanner} (h : Ahead split R T sc)
    (hpass : sc.pass split = .read sc') : Ahead split R T sc' := by
  obtain ⟨herr, herr', -, hdata⟩ := Scanner.pass_eq_read hpass
  unfold Ahead at h ⊢
  rw [herr] at h
  rw [herr']
  intro e
  rw [h e]
  rcases hdata with ⟨htok, hdata⟩ | ⟨hdata, hdata'⟩
  · rw [tokenize_skip hl (data_le sc) htok, hdata]
  · rw [hdata, hdata']

/-- The scan ends. -/
theorem Ahead.ended {sc sc' : Scanner} (h : Ahead split R T sc)
    (hpass : sc.pass split = .ended sc') :
    Ended split R T none sc'.err := by
  unfold Ahead at h
  rcases Scanner.pass_eq_ended hpass with ⟨hne, herr, -, htok⟩ | ⟨herr, herr', -, hlen, htok, hadv⟩
  · obtain ⟨x, hx⟩ := Option.ne_none_iff_exists'.mp hne
    rw [hx] at h
    obtain ⟨hxne, hlen, h⟩ := h
    rw [herr, hx]
    refine .all hxne ?_
    rw [h, tokenize_none_eof hlen htok, List.append_nil]
  · rw [herr] at h
    rw [herr']
    refine .tooLong fun e => ?_
    rw [h e, tokenize_full hlen htok hadv, List.append_nil]

/-- More bytes come in. -/
theorem Ahead.fill {sc : Scanner} (h : Ahead split R T sc) (herr : sc.err = none) {d : Bytes}
    (hd : d.length ≤ sc.room) : Ahead split (R ++ d) T (sc.fill d hd) := by
  have herr' : (sc.fill d hd).err = sc.err := rfl
  unfold Ahead at h ⊢
  rw [herr] at h
  rw [herr', herr, Scanner.data_fill]
  intro e
  rw [List.append_assoc, h, List.append_assoc]

/-- The stream ends, or a read fails. -/
theorem Ahead.setErr {sc : Scanner} (h : Ahead split R T sc) (herr : sc.err = none)
    (hroom : 0 < sc.room) {x : ScanError} (hx : x ≠ .tooLong) : Ahead split R T (sc.setErr x) := by
  have hdata : ({ sc with err := some x } : Scanner).data = sc.data := rfl
  rw [Scanner.setErr_eq herr]
  unfold Ahead at h ⊢
  rw [herr] at h
  have h0 := h []
  rw [List.append_nil, List.append_nil] at h0
  refine ⟨hx, ?_, by rw [hdata]; exact h0⟩
  have hstart := sc.start_le
  have hmax := sc.buf_le
  unfold Scanner.room at hroom
  rw [hdata, Scanner.length_data]
  omega

/-- Appending the delimiter keeps the length of the buffer. -/
theorem length_buf_appendToken (sc : Scanner) (a b : Nat) (tail : Bytes) :
    (sc.appendToken a b tail).2.buf.length = sc.buf.length := by
  unfold Scanner.appendToken
  dsimp only
  split
  next h =>
    show (sc.buf.take b ++ tail ++ sc.buf.drop (b + tail.length)).length = _
    simp only [List.length_append, List.length_take, List.length_drop]
    omega
  next => rfl

theorem length_buf_fill (sc : Scanner) (d : Bytes) (hd : d.length ≤ sc.room) :
    (sc.fill d hd).buf.length = sc.buf.length := by
  have h1 := sc.stop_le
  unfold Scanner.room at hd
  show (sc.buf.take sc.stop ++ d ++ sc.buf.drop (sc.stop + d.length)).length = _
  simp only [List.length_append, List.length_take, List.length_drop]
  omega

theorem length_buf_ended {sc sc' : Scanner} (h : sc.pass split = .ended sc') :
    sc'.buf.length = sc.buf.length := by
  have hroom : ∀ sc : Scanner, sc.makeRoom = .ended sc' → sc'.buf.length = sc.buf.length := by
    intro sc h
    have hshift : sc.shift.buf.length = sc.buf.length := by
      have h1 := sc.stop_le
      show (sc.data ++ sc.buf.drop (sc.stop - sc.start)).length = _
      rw [List.length_append, Scanner.length_data, List.length_drop]
      omega
    unfold Scanner.makeRoom at h
    split at h
    · cases h
      rfl
    · dsimp only at h
      split at h
      · split at h
        · split at h
          · cases h
            exact hshift
          · cases h
        · cases h
      · split at h
        · split at h
          · cases h
            rfl
          · cases h
        · cases h
  rcases Scanner.pass_cases split sc with ⟨a, b, -, hpass⟩ | ⟨-, hpass⟩ | ⟨-, -, hpass⟩
  · rw [hpass] at h
    cases h
  · rw [hpass] at h
    exact hroom (sc.advance _ (split sc.data sc.err.isSome).advance_le) h
  · rw [hpass] at h
    exact hroom sc h

/-- A read moves bytes from the `Write` in progress to the scanner. -/
theorem read_accounts {p p' : Pipe} {room : Nat} {d : Bytes} (h : p.read room = .data d p') :
    p.offer.getD [] = d ++ p'.offer.getD [] ∧ p'.sent = p.sent + d.length := by
  obtain ⟨-, b, hb, rfl, hoff, hsent, -⟩ := Pipe.read_data h
  refine ⟨?_, hsent⟩
  have hrest : p'.offer.getD [] = b.drop room := by
    rw [hoff]
    split
    next hnil => rw [hnil]; rfl
    next => rfl
  rw [hb, hrest]
  exact (List.take_append_drop room b).symm

/-- The goroutine writes what it has in hand, and nothing else. -/
theorem ScanMove.out (h : ScanMove split outputDelimeter writer s t) :
    t.out = s.out ++ s.inHand := by
  unfold ScanState.inHand
  cases h with
  | written hpc hok => rw [hpc]
  | failed hpc herr => rw [hpc]
  | token hpc | room hpc | ended hpc | empty hpc | noProgress hpc | fill hpc | closed hpc
  | close hpc
  | finish hpc =>
    rw [hpc, List.append_nil]

/-- From `s` the goroutine has come to `t`: it has taken the tokens `new` and read the bytes `d`
of the `Write` in progress. -/
structure Moved (split : SplitFunc) (outputDelimeter : Bytes) (R : Bytes) (T : List Bytes)
    (s t : ScanState) (d : Bytes) (new : List Bytes) : Prop where
  progress : Progress split (R ++ d) (T ++ new) t
  inHand : t.inHand = new.map (· ++ outputDelimeter)
  offer : s.pipe.offer.getD [] = d ++ t.pipe.offer.getD []
  sent : t.pipe.sent = s.pipe.sent + d.length
  err : d ≠ [] → s.scanner.err = none

/-- A move that takes no token and reads nothing. -/
theorem moved_still {s t : ScanState} (hprog : Progress split R T t) (hhand : t.inHand = [])
    (hpipe : t.pipe.offer = s.pipe.offer ∧ t.pipe.sent = s.pipe.sent) :
    ∃ d new, Moved split outputDelimeter R T s t d new := by
  refine ⟨[], [], ?_, hhand, ?_, hpipe.2, fun h => absurd rfl h⟩
  · rw [List.append_nil, List.append_nil]
    exact hprog
  · rw [hpipe.1, List.nil_append]

/-- A move that reads. -/
theorem moved_reads {s t : ScanState} {d : Bytes} {room : Nat} (hprog : Progress split (R ++ d) T t)
    (hhand : t.inHand = []) (hread : s.pipe.read room = .data d t.pipe)
    (herr : s.scanner.err = none) :
    ∃ d new, Moved split outputDelimeter R T s t d new := by
  obtain ⟨hoff, hsent⟩ := read_accounts hread
  refine ⟨d, [], ?_, hhand, hoff, hsent, fun _ => herr⟩
  rw [List.append_nil]
  exact hprog

/-- **One action of the goroutine**, which leaves the unread bytes alone where it takes a token. -/
theorem Progress.move (hl : Lawful split) (hprog : Progress split R T s)
    (hharm : ∀ sc a b, s.scanner.pass split = .token sc a b →
      (sc.appendToken a b outputDelimeter).2.data = sc.data)
    (hst : ScanMove split outputDelimeter writer s t) :
    ∃ d new, Moved split outputDelimeter R T s t d new := by
  unfold Progress at hprog
  cases hst with
  | @token sc a b hpc hpass =>
    rw [hpc] at hprog
    obtain ⟨herr, hahead⟩ := hprog
    refine ⟨[], [(sc.buf.take b).drop a], ⟨herr, ?_⟩, rfl, rfl, rfl, fun h => absurd rfl h⟩
    have htoken := hahead.token hl hpass
    rw [List.append_nil]
    unfold Ahead at htoken ⊢
    rw [Scanner.appendToken_err, hharm _ _ _ hpass]
    exact htoken
  | room hpc hpass =>
    rw [hpc] at hprog
    obtain ⟨herr, hahead⟩ := hprog
    obtain ⟨-, herr', hroom, -⟩ := Scanner.pass_eq_read hpass
    exact moved_still ⟨herr, hahead.room hl hpass, herr', hroom⟩ rfl ⟨rfl, rfl⟩
  | ended hpc hpass =>
    rw [hpc] at hprog
    obtain ⟨herr, hahead⟩ := hprog
    refine moved_still ?_ rfl ⟨rfl, rfl⟩
    show Ended split R T s.err _
    rw [herr]
    exact hahead.ended hpass
  | empty hpc hread =>
    rw [hpc] at hprog
    refine moved_reads ?_ rfl hread hprog.2.2.1
    rw [List.append_nil]
    exact hprog
  | noProgress hpc hread =>
    rw [hpc] at hprog
    obtain ⟨herr, hahead, herr', hroom⟩ := hprog
    refine moved_reads ?_ rfl hread herr'
    rw [List.append_nil]
    exact ⟨herr, hahead.setErr herr' hroom (by simp)⟩
  | @fill _ d pipe hpc hread hd =>
    rw [hpc] at hprog
    obtain ⟨herr, hahead, herr', hroom⟩ := hprog
    exact moved_reads ⟨herr, hahead.fill herr' (Pipe.read_length_le hread)⟩ rfl hread herr'
  | closed hpc hread =>
    rw [hpc] at hprog
    obtain ⟨herr, hahead, herr', hroom⟩ := hprog
    exact moved_still ⟨herr, hahead.setErr herr' hroom (by simp)⟩ rfl ⟨rfl, rfl⟩
  | written hpc hok =>
    rw [hpc] at hprog
    exact moved_still hprog rfl ⟨rfl, rfl⟩
  | failed hpc herr =>
    rw [hpc] at hprog
    exact moved_still (.failed hprog.2.isPrefix) rfl ⟨rfl, rfl⟩
  | close hpc =>
    rw [hpc] at hprog
    exact moved_still hprog rfl ⟨rfl, rfl⟩
  | finish hpc =>
    rw [hpc] at hprog
    exact moved_still ⟨s.err, rfl, hprog⟩ rfl ⟨rfl, rfl⟩

theorem length_buf_setErr (sc : Scanner) (err : ScanError) :
    (sc.setErr err).buf.length = sc.buf.length := by
  unfold Scanner.setErr
  split <;> rfl

/-- What makes the buffer grow is making room. -/
theorem ScanMove.buf_le (hbound : Bounded split size) (hbuf : s.scanner.buf.length ≤ size)
    (hst : ScanMove split outputDelimeter writer s t) : t.scanner.buf.length ≤ size := by
  cases hst with
  | @token sc a b hpc hpass =>
    refine Nat.le_trans (Nat.le_of_eq (length_buf_appendToken sc a b outputDelimeter)) ?_
    obtain ⟨_, _, _, rfl, rfl, rfl⟩ := Scanner.pass_eq_token hpass
    exact hbuf
  | room hpc hpass => exact hbound _ _ hbuf hpass
  | ended hpc hpass => exact Nat.le_trans (Nat.le_of_eq (length_buf_ended hpass)) hbuf
  | fill hpc hread hd =>
    exact Nat.le_trans (Nat.le_of_eq (length_buf_fill _ _ (Pipe.read_length_le hread))) hbuf
  | noProgress | closed => exact Nat.le_trans (Nat.le_of_eq (length_buf_setErr ..)) hbuf
  | _ => exact hbuf

/-- Each move of the scanning goroutine keeps it, with what it has read. -/
theorem Scanned.move (hl : Lawful split) (hharm : Harmless split outputDelimeter size)
    (hbound : Bounded split size) (h : Scanned split outputDelimeter size s R)
    (hst : ScanMove split outputDelimeter writer s t) :
    ∃ d, Scanned split outputDelimeter size t (R ++ d) ∧
      s.pipe.offer.getD [] = d ++ t.pipe.offer.getD [] ∧ t.pipe.sent = s.pipe.sent + d.length ∧
      (d ≠ [] → s.scanner.err = none) := by
  obtain ⟨hbuf, T, hout, hprog⟩ := h
  obtain ⟨d, new, hprog', hhand, hoff, hsent, herr⟩ :=
    hprog.move hl (fun _ _ _ => hharm _ _ _ _ hbuf) hst
  refine ⟨d, ⟨hst.buf_le hbound hbuf, T ++ new, ?_, hprog'⟩, hoff, hsent, herr⟩
  rw [hst.out, hout, hhand, List.map_append]

end Step

/-! ## A whole run -/

/-- The `Write` that the caller is in. -/
def ScanCaller.current : ScanCaller → List Bytes
  | .inWrite p => [p]
  | _ => []

/-- While no token is too long every `Write` is accepted in full, and the bytes not yet read are
on offer or still to be written. -/
structure Accepting (chunks : List Bytes) (rest : Bytes) (s : ScanRun) : Prop where
  rest_eq : rest = s.scan.pipe.offer.getD [] ++ s.todo.flatten
  calls : ∃ done, chunks = done ++ s.caller.current ++ s.todo ∧ s.results = done.map accepted
  sent : ∀ p, s.caller = .inWrite p →
    s.scan.pipe.sent + (s.scan.pipe.offer.getD []).length = p.length
  closing : s.scan.pipe.writeClosed = true → s.todo = []

/-- The invariant of a run over a destination that does not fail. -/
structure Delivering (split : SplitFunc) (outputDelimeter : Bytes) (size : Nat)
    (chunks : List Bytes) (s : ScanRun) : Prop where
  base : RunBase s
  stream : ∃ R rest, Scanned split outputDelimeter size s.scan R ∧ chunks.flatten = R ++ rest ∧
    (s.scan.scanner.err ≠ some .tooLong → Accepting chunks rest s)
  noErr : match s.scan.pc with
    | .returned => s.scan.err = finalErr none s.scan.scanner
    | _ => s.scan.err = none
  scanErr : ∀ x, s.scan.scanner.err = some x →
    (x = .tooLong ∧ (s.scan.pc = .closing ∨ s.scan.pc = .finish ∨ s.scan.pc = .returned)) ∨
      (x = .read .eof ∧ s.scan.pipe.writeClosed = true)
  ended : s.scan.pc = .closing ∨ s.scan.pc = .finish ∨ s.scan.pc = .returned →
    s.scan.scanner.err ≠ none
  closed : ∀ err, s.caller = .closed err →
    s.scan.pc = .returned ∧ err = Error.joinAll [s.scan.err, none]

section Run

variable {split : SplitFunc} {outputDelimeter : Bytes} {size : Nat} {chunks : List Bytes}
    {s t : ScanRun}

theorem delivering_initial (hne : ∀ p ∈ chunks, p ≠ []) :
    Delivering split outputDelimeter size chunks { todo := chunks } where
  base := runBase_initial hne
  stream := ⟨[], chunks.flatten, scanned_initial .., rfl, fun _ =>
    ⟨rfl, ⟨[], rfl, rfl⟩, fun p hp => by simp at hp, fun h => by simp at h⟩⟩
  noErr := rfl
  scanErr := fun x hx => by cases hx
  ended := fun h => by simp at h
  closed := fun err h => by simp at h

/-- A caller's step changes no more than the pipe. -/
theorem Scanned.withPipe {s : ScanState} {R : Bytes} (h : Scanned split outputDelimeter size s R)
    (pipe : Pipe) :
    Scanned split outputDelimeter size { s with pipe := pipe } R :=
  ⟨h.buf_le, h.taken⟩

/-- While no token is too long the `Write` in progress is not cut off. -/
theorem Delivering.inWrite_open (h : Delivering split outputDelimeter size chunks s) {p : Bytes}
    (hc : s.caller = .inWrite p) (hlong : s.scan.scanner.err ≠ some .tooLong) :
      s.scan.pipe.done = false := by
  have hwc : s.scan.pipe.writeClosed = false := by
    rw [Bool.eq_false_iff]
    intro hwc
    rcases h.base.writeClosed.mp hwc with hc' | ⟨err, hc'⟩ <;> rw [hc] at hc' <;> cases hc'
  have hrc : s.scan.pipe.readClosed = false := by
    rw [Bool.eq_false_iff]
    intro hrc
    obtain ⟨x, hx⟩ := Option.ne_none_iff_exists'.mp (h.ended (.inr (h.base.readClosed.mp hrc)))
    rcases h.scanErr x hx with ⟨rfl, -⟩ | ⟨-, heof⟩
    · exact hlong hx
    · rw [hwc] at heof
      cases heof
  unfold Pipe.done
  rw [hrc, hwc]
  rfl

/-- A step of the caller keeps it. -/
theorem Delivering.callerStep (h : Delivering split outputDelimeter size chunks s)
    (hst : s.callerStep = some t) : Delivering split outputDelimeter size chunks t := by
  have hbase := h.base.callerStep hst
  obtain ⟨R, rest, hscan, hflat, hacc⟩ := h.stream
  have hcase := hst
  unfold ScanRun.callerStep at hcase
  split at hcase
  next hc =>
    have hoff : s.scan.pipe.offer = none := by
      by_contra hoff
      obtain ⟨p, hp⟩ := h.base.offer_none hoff
      rw [hc] at hp
      cases hp
    split at hcase
    next p ps htodo =>
      cases hcase
      refine ⟨hbase, ⟨R, rest, hscan.withPipe _, hflat, fun hlong => ?_⟩, h.noErr, h.scanErr,
        h.ended, by simp⟩
      obtain ⟨hrest, ⟨done, hdone, hres⟩, -, hclosing⟩ := hacc hlong
      refine ⟨?_, ⟨done, ?_, hres⟩, ?_, ?_⟩
      · rw [hrest, hoff, htodo]
        simp [ScanState.write]
      · rw [hdone, hc, htodo]
        simp [ScanCaller.current]
      · intro q hq
        cases hq
        simp [ScanState.write]
      · intro hwc
        rw [htodo] at hclosing
        cases hclosing hwc
    next htodo =>
      cases hcase
      refine ⟨hbase, ⟨R, rest, hscan.withPipe _, hflat, fun hlong => ?_⟩, h.noErr, ?_,
        h.ended, by simp⟩
      · obtain ⟨hrest, ⟨done, hdone, hres⟩, -, -⟩ := hacc hlong
        refine ⟨hrest, ⟨done, ?_, hres⟩, by simp, fun _ => htodo⟩
        rw [hdone, hc]
        rfl
      · intro x hx
        rcases h.scanErr x hx with hlong | ⟨hx, -⟩
        · exact .inl hlong
        · exact .inr ⟨hx, rfl⟩
  next p hc =>
    split at hcase
    · cases hcase
    next res hres =>
      cases hcase
      refine ⟨hbase, ⟨R, rest, hscan.withPipe _, hflat, fun hlong => ?_⟩, h.noErr, h.scanErr,
        h.ended, by simp⟩
      have hopen := h.inWrite_open hc hlong
      obtain ⟨hrest, ⟨done, hdone, hres'⟩, hsent, hclosing⟩ := hacc hlong
      -- the pipe is open, so the `Write` has returned because everything was read
      unfold ScanState.writeResult at hres
      rw [hopen] at hres
      split at hres
      next hoff =>
        obtain rfl := Option.some.inj hres
        have hlen := hsent p hc
        rw [hoff] at hlen hrest
        refine ⟨hrest, ⟨done ++ [p], ?_, ?_⟩, by simp, hclosing⟩
        · rw [hdone, hc]
          simp [ScanCaller.current]
        · rw [hres', List.map_append]
          show _ = _ ++ [(p.length, none)]
          rw [← hlen]
          rfl
      next => cases hres
  next hc =>
    split at hcase
    next hdone =>
      cases hcase
      refine ⟨hbase, ⟨R, rest, hscan, hflat, fun hlong => ?_⟩, h.noErr, h.scanErr, h.ended, ?_⟩
      · obtain ⟨hrest, ⟨done, hd, hres⟩, -, hclosing⟩ := hacc hlong
        refine ⟨hrest, ⟨done, ?_, hres⟩, by simp, hclosing⟩
        rw [hd, hc]
        rfl
      · intro err herr
        cases herr
        exact ⟨h.base.readerDone.mp hdone, rfl⟩
    · cases hcase
  · cases hcase

/-- The scanning goroutine does not close the end of the writer. -/
theorem ScanMove.writeClosed {writer : List Bytes → Bytes → Option IoErr} {s t : ScanState}
    (h : ScanMove split outputDelimeter writer s t) : t.pipe.writeClosed = s.pipe.writeClosed := by
  cases h with
  | empty hpc hread | noProgress hpc hread | fill hpc hread hd =>
    obtain ⟨-, b, -, -, -, -, -, hwc⟩ := Pipe.read_data hread
    exact hwc
  | _ => rfl

/-- It makes no move once it has returned. -/
theorem ScanMove.not_returned {writer : List Bytes → Bytes → Option IoErr} {s t : ScanState}
    (h : ScanMove split outputDelimeter writer s t) : s.pc ≠ .returned := by
  intro hret
  cases h <;> simp_all

/-- What an action does to the scanner's error, over a destination that does not fail. -/
theorem Delivering.move_err (h : Delivering split outputDelimeter size chunks s) {g : ScanState}
    (hst : ScanMove split outputDelimeter (fun _ _ => none) s.scan g) :
    (match g.pc with
      | .returned => g.err = finalErr none g.scanner
      | _ => g.err = none) ∧
    (∀ x, g.scanner.err = some x →
      (x = .tooLong ∧ (g.pc = .closing ∨ g.pc = .finish ∨ g.pc = .returned)) ∨
        (x = .read .eof ∧ g.pipe.writeClosed = true)) ∧
    (g.pc = .closing ∨ g.pc = .finish ∨ g.pc = .returned → g.scanner.err ≠ none) ∧
    (s.scan.scanner.err = some .tooLong → g.scanner.err = some .tooLong) := by
  have hwc := hst.writeClosed
  have hno := h.noErr
  have hend := h.ended
  have herr := h.scanErr
  cases hst with
  | @token sc a b hpc hpass =>
    rw [hpc] at hno hend herr
    obtain ⟨_, _, _, -, -, rfl⟩ := Scanner.pass_eq_token hpass
    refine ⟨hno, fun x hx => ?_, by simp, fun hx => ?_⟩
    · rw [Scanner.appendToken_err] at hx
      rcases herr x hx with ⟨-, hpc'⟩ | heof
      · simp at hpc'
      · exact .inr heof
    · rw [Scanner.appendToken_err]
      exact hx
  | room hpc hpass =>
    rw [hpc] at hno
    obtain ⟨hnone, hnone', -⟩ := Scanner.pass_eq_read hpass
    refine ⟨hno, fun x hx => ?_, by simp, fun hx => ?_⟩
    · rw [hnone'] at hx
      cases hx
    · rw [hnone] at hx
      cases hx
  | ended hpc hpass =>
    rw [hpc] at hno herr
    rcases Scanner.pass_eq_ended hpass with ⟨hne, hsame, -⟩ | ⟨hnone, hlong, -⟩
    · refine ⟨hno, fun x hx =>
        ?_, fun _ => by rw [hsame]; exact hne, fun hx => by rw [hsame]; exact hx⟩
      rw [hsame] at hx
      rcases herr x hx with ⟨-, hpc'⟩ | heof
      · simp at hpc'
      · exact .inr heof
    · refine ⟨hno, fun x hx => ?_, fun _ => by rw [hlong]; simp, fun _ => hlong⟩
      rw [hlong] at hx
      cases hx
      exact .inl ⟨rfl, .inl rfl⟩
  | empty hpc hread => exact absurd rfl (h.base.read_ne_nil hpc hread)
  | noProgress hpc hread => exact absurd rfl (h.base.read_ne_nil hpc hread)
  | fill hpc hread hd =>
    rw [hpc] at hno
    have hnone := (h.base.reading _ hpc).1
    refine ⟨hno, fun x hx => ?_, by simp, fun hx => ?_⟩
    · cases hnone.symm.trans hx
    · cases hnone.symm.trans hx
  | @closed _ err hpc hread =>
    rw [hpc] at hno
    have hnone := (h.base.reading _ hpc).1
    obtain ⟨hdone, herr'⟩ := Pipe.read_closed hread
    have hrc : s.scan.pipe.readClosed = false := by
      rw [Bool.eq_false_iff]
      intro hrc
      have := h.base.readClosed.mp hrc
      rw [hpc] at this
      simp at this
    have hwcs : s.scan.pipe.writeClosed = true := by
      unfold Pipe.done at hdone
      rw [hrc, Bool.false_or] at hdone
      exact hdone
    refine ⟨hno, fun x hx => ?_, by simp, fun hx => ?_⟩
    · rw [Scanner.setErr_eq hnone] at hx
      obtain rfl := Option.some.inj hx
      refine .inr ⟨?_, hwcs⟩
      rw [herr']
      unfold Pipe.readCloseError
      rw [hrc, hwcs]
      rfl
    · cases hnone.symm.trans hx
  | written hpc hok =>
    rw [hpc] at hno herr
    refine ⟨hno, fun x hx => ?_, by simp, fun hx => hx⟩
    rcases herr x hx with ⟨-, hpc'⟩ | heof
    · simp at hpc'
    · exact .inr heof
  | failed hpc hfail => cases hfail
  | close hpc =>
    rw [hpc] at hno hend herr
    refine ⟨hno, fun x hx => ?_, fun _ => hend (by simp), fun hx => hx⟩
    rcases herr x hx with ⟨hx, -⟩ | heof
    · exact .inl ⟨hx, .inr (.inl rfl)⟩
    · exact .inr heof
  | finish hpc =>
    rw [hpc] at hno hend herr
    refine ⟨?_, fun x hx => ?_, fun _ => hend (by simp), fun hx => hx⟩
    · show finalErr s.scan.err s.scan.scanner = finalErr none s.scan.scanner
      rw [hno]
    · rcases herr x hx with ⟨hx, -⟩ | heof
      · exact .inl ⟨hx, .inr (.inr rfl)⟩
      · exact .inr heof

theorem Delivering.move (hl : Lawful split) (hharm : Harmless split outputDelimeter size)
    (hbound : Bounded split size) (h : Delivering split outputDelimeter size chunks s)
    {g : ScanState} (hst : ScanMove split outputDelimeter (fun _ _ => none) s.scan g) :
    Delivering split outputDelimeter size chunks { s with scan := g } := by
  obtain ⟨hno, herr, hend, hlong⟩ := h.move_err hst
  obtain ⟨R, rest, hscan, hflat, hacc⟩ := h.stream
  obtain ⟨d, hscan', hoff, hsent, hd⟩ := hscan.move hl hharm hbound hst
  refine ⟨h.base.move hst, ?_, hno, herr, hend, fun err hc => ?_⟩
  · by_cases hs : s.scan.scanner.err = some .tooLong
    · -- nothing more is read
      have hnil : d = [] := by
        by_contra hne
        rw [hd hne] at hs
        cases hs
      subst hnil
      rw [List.append_nil] at hscan'
      exact ⟨R, rest, hscan', hflat, fun hne => absurd (hlong hs) hne⟩
    · obtain ⟨hrest, hcalls, hlen, hclosing⟩ := hacc hs
      refine ⟨R ++ d, g.pipe.offer.getD [] ++ s.todo.flatten, hscan', ?_,
        fun _ => ⟨rfl, hcalls, ?_, ?_⟩⟩
      · rw [hflat, hrest, hoff]
        simp
      · intro p hp
        have := hlen p hp
        rw [hoff, List.length_append] at this
        show g.pipe.sent + (g.pipe.offer.getD []).length = p.length
        omega
      · intro hwc
        exact hclosing (hst.writeClosed.symm.trans hwc)
  · exact absurd (h.closed err hc).1 hst.not_returned

/-- **The invariant of every run.** -/
theorem delivering_reachable (hl : Lawful split) (hharm : Harmless split outputDelimeter size)
    (hbound : Bounded split size) (hne : ∀ p ∈ chunks, p ≠ [])
    (h : (scanningWriter split outputDelimeter (fun _ _ => none) chunks).Reachable s) :
    Delivering split outputDelimeter size chunks s := by
  refine h.invariant (fun s hs => ?_) (fun s t _ hs hst => ?_)
  · rw [show s = { todo := chunks } from hs]
    exact delivering_initial hne
  · rcases hst with hst | ⟨g, hst, rfl⟩
    · exact hs.callerStep hst
    · exact hs.move hl hharm hbound (scanStep_move hst)

/-- What `finalErr` consists of. -/
theorem leavesOf_finalErr (err : Option IoErr) (sc : Scanner) :
    Error.leavesOf (finalErr err sc) =
      Error.leavesOf err ++ Error.leavesOf (sc.errOf.map (.leaf ∘ scanIoError)) := by
  unfold finalErr
  rw [Error.leavesOf_joinAll]
  simp

/-- **Where `Close` has returned**, the tokens of the stream have been written, up to the first
one that is too long; `Close` has returned an error exactly if there is one, and without one
every `Write` was accepted. -/
theorem Delivering.outcome (h : Delivering split outputDelimeter size chunks s) {err : Option IoErr}
    (hc : s.caller = .closed err) :
    s.scan.out = (tokenize split chunks.flatten).1.map (· ++ outputDelimeter) ∧
      (err = none ↔ WithinLimit split chunks.flatten) ∧
      (WithinLimit split chunks.flatten → s.results = chunks.map accepted) := by
  obtain ⟨hpc, rfl⟩ := h.closed err hc
  obtain ⟨R, rest, ⟨-, T, hout, hprog⟩, hflat, hacc⟩ := h.stream
  have hno := h.noErr
  unfold Progress at hprog
  unfold ScanState.inHand at hout
  rw [hpc] at hprog hout hno
  rw [List.append_nil] at hout
  obtain ⟨err, herr, hend⟩ := hprog
  unfold WithinLimit
  have hclose : Error.joinAll [s.scan.err, none] = none ↔ s.scan.scanner.errOf = none := by
    rw [← Error.leavesOf_eq_nil, Error.leavesOf_joinAll]
    simp only [List.flatMap_cons, List.flatMap_nil, Error.leavesOf_none, List.append_nil]
    rw [hno, leavesOf_finalErr]
    simp
  rw [hclose]
  generalize hx : s.scan.scanner.err = x at hend hacc
  cases hend with
  | @failed e _ hpre =>
    -- the destination did not fail
    have hleaves := congrArg Error.leavesOf (herr.symm.trans hno)
    rw [leavesOf_finalErr, leavesOf_finalErr, Error.leavesOf_none, List.nil_append,
      List.append_left_eq_self, Error.leavesOf_eq_nil] at hleaves
    cases hleaves
  | tooLong hall =>
    have htok := hall rest
    rw [← hflat] at htok
    rw [htok]
    refine ⟨hout, ?_, fun hf => by cases hf⟩
    unfold Scanner.errOf
    rw [hx]
    simp
  | @all x hne hall =>
    have heof : x = .read .eof ∧ s.scan.pipe.writeClosed = true := by
      rcases h.scanErr x hx with ⟨hlong, -⟩ | heof
      · exact absurd hlong hne
      · exact heof
    obtain ⟨hrest, ⟨done, hdone, hres⟩, -, hclosing⟩ := hacc (by simpa using hne)
    have htodo := hclosing heof.2
    have hoff : s.scan.pipe.offer = none := by
      by_contra hoff
      obtain ⟨p, hp⟩ := h.base.offer_none hoff
      rw [hc] at hp
      cases hp
    rw [hoff, htodo] at hrest
    have hR : chunks.flatten = R := by
      rw [hflat, hrest]
      simp
    rw [hR, hall]
    refine ⟨hout, ?_, fun _ => ?_⟩
    · unfold Scanner.errOf
      rw [hx, heof.1]
      simp
    · rw [hdone, hc, htodo, hres]
      simp [ScanCaller.current]

end Run

end ShouldIAsync.HarnessIo
