import ShouldIAsync.HarnessIo.ScanningLines

/-!
# A delimiter that overwrites an unread byte

`append(scanner.Bytes(), outputDelimeter...)` writes the delimiter behind the token into the
scanner's own buffer while that goes on far enough. `Spoils` says for which token at the front
of a buffer this changes the one unread byte behind it, and `Trapped` follows a run in which it
does. The bytes come in one `Write` that the scanner has in full when it takes the token; from
there on the goroutine goes on as if it had read another byte.

A buffer gets to its greatest size by a long token first (`LongToken`): the bytes after that
are read to the front again. `breaks_from_start` and `breaks_after` are what comes of it, with
the first buffer and with the greatest one.
-/

namespace ShouldIAsync.HarnessIo

open ShouldIAsync.Lib ShouldIAsync.GoStd

/-- An append over the end of the unread bytes. -/
theorem data_appendToken_over (s : Scanner) {a b : Nat} {tail : Bytes}
    (hin : b + tail.length ≤ s.buf.length) (hb : b ≤ s.start) (hover : s.stop ≤ b + tail.length) :
    (s.appendToken a b tail).2.data = (tail.take (s.stop - b)).drop (s.start - b) := by
  have hstart := s.start_le
  have hstop := s.stop_le
  unfold Scanner.appendToken
  dsimp only
  rw [dif_pos hin]
  show ((s.buf.take b ++ tail ++ s.buf.drop (b + tail.length)).take s.stop).drop s.start = _
  have hlen : (s.buf.take b).length = b := by rw [List.length_take, Nat.min_eq_left (by omega)]
  rw [List.append_assoc, List.take_append, hlen, List.take_of_length_le (by rw [hlen]; omega),
    List.drop_append, hlen, List.drop_eq_nil_of_le (by rw [hlen]; exact hb), List.nil_append,
    List.take_append_of_le_length (by omega)]

/-- The slices that the scanner has not read, of which the first may be on offer. -/
def ScanRun.due (s : ScanRun) : List Bytes := s.scan.pipe.offer.toList ++ s.todo

section Trap

variable {split : SplitFunc} {outputDelimeter : Bytes} {chunks : List Bytes} {s t : ScanRun}

/-- The caller leaves the goroutine's part alone. -/
theorem callerStep_scan (hst : s.callerStep = some t) :
    t.scan.scanner = s.scan.scanner ∧ t.scan.pc = s.scan.pc ∧ t.scan.out = s.scan.out ∧
      t.scan.err = s.scan.err := by
  unfold ScanRun.callerStep at hst
  split at hst
  · split at hst
    · cases hst
      exact ⟨rfl, rfl, rfl, rfl⟩
    · cases hst
      exact ⟨rfl, rfl, rfl, rfl⟩
  · split at hst
    · cases hst
    · cases hst
      exact ⟨rfl, rfl, rfl, rfl⟩
  · split at hst
    · cases hst
      exact ⟨rfl, rfl, rfl, rfl⟩
    · cases hst
  · cases hst

/-- While the reader is there the caller drops nothing, and closes only where nothing is left. -/
theorem RunBase.callerStep_due (h : RunBase s) (hst : s.callerStep = some t)
    (hopen : s.scan.pipe.done = false ∨ s.due = []) :
    t.due = s.due ∧ (t.scan.pipe.writeClosed = true → s.scan.pipe.writeClosed = true ∨
      s.due = []) := by
  unfold ScanRun.callerStep at hst
  split at hst
  next hc =>
    have hoff : s.scan.pipe.offer = none := by
      by_contra hoff
      obtain ⟨p, hp⟩ := h.offer_none hoff
      rw [hc] at hp
      cases hp
    split at hst
    next p ps htodo =>
      cases hst
      unfold ScanRun.due
      rw [hoff, htodo]
      exact ⟨rfl, fun hclosed => .inl hclosed⟩
    next htodo =>
      cases hst
      refine ⟨rfl, fun _ => .inr ?_⟩
      unfold ScanRun.due
      rw [hoff, htodo]
      rfl
  next p hc =>
    split at hst
    · cases hst
    next res hres =>
      cases hst
      refine ⟨?_, fun hclosed => .inl hclosed⟩
      have hoff : s.scan.pipe.offer = none := by
        unfold ScanState.writeResult at hres
        split at hres
        next hoff => exact hoff
        next b hoff =>
          split at hres
          next hdone =>
            rcases hopen with hopen | hdue
            · rw [hopen] at hdone
              cases hdone
            · unfold ScanRun.due at hdue
              rw [hoff] at hdue
              cases hdue
          next => cases hres
      unfold ScanRun.due
      rw [hoff]
      rfl
  next hc =>
    split at hst
    · cases hst
      exact ⟨rfl, fun hclosed => .inl hclosed⟩
    · cases hst
  · cases hst

/-- The goroutine has come through: it has made the writes `pre`, or is about to make the last
of them, and the slices `due` are still to be read. -/
structure Quiet (s : ScanRun) (due pre : List Bytes) : Prop where
  left : s.due = due
  made : s.scan.out ++ s.scan.inHand = pre
  err : s.scan.err = none
  scannerErr : s.scan.scanner.err = none
  writeClosed : due ≠ [] → s.scan.pipe.writeClosed = false

theorem Quiet.isOpen {due pre : List Bytes} (h : Quiet s due pre) (hbase : RunBase s)
    (hdue : due ≠ [])
    (hpc : s.scan.pc ≠ .finish ∧ s.scan.pc ≠ .returned) : s.scan.pipe.done = false := by
  have hrc : s.scan.pipe.readClosed = false := by
    rw [Bool.eq_false_iff]
    intro hrc
    rcases hbase.readClosed.mp hrc with hfin | hret
    · exact hpc.1 hfin
    · exact hpc.2 hret
  unfold Pipe.done
  rw [hrc, h.writeClosed hdue, Bool.or_false]

/-- A step of the caller keeps it. -/
theorem Quiet.callerStep {due pre : List Bytes} (h : Quiet s due pre) (hbase : RunBase s)
    (hpc : s.scan.pc ≠ .finish ∧ s.scan.pc ≠ .returned) (hst : s.callerStep = some t) :
      Quiet t due pre := by
  obtain ⟨hscanner, hpc', hout, herr⟩ := callerStep_scan hst
  obtain ⟨hdue, hclosed⟩ := hbase.callerStep_due hst (by
    by_cases hnil : due = []
    · exact .inr (h.left.trans hnil)
    · exact .inl (h.isOpen hbase hnil hpc))
  refine ⟨hdue.trans h.left, ?_, herr.trans h.err, ?_, fun hne => ?_⟩
  · have hhand : t.scan.inHand = s.scan.inHand := by
      unfold ScanState.inHand
      rw [hpc']
    rw [hout, hhand]
    exact h.made
  · rw [hscanner]
    exact h.scannerErr
  · rw [Bool.eq_false_iff]
    intro hwc
    rcases hclosed hwc with hwc | hnil
    · rw [h.writeClosed hne] at hwc
      cases hwc
    · exact hne (h.left.symm.trans hnil)

/-- What makes a run go wrong. With the unread bytes `ahead ++ [c]` at the front of a buffer of
`size` bytes the split function takes the first `n` of them for a token and leaves the last
one, where appending the delimiter writes `x`. -/
structure Spoils (split : SplitFunc) (outputDelimeter ahead : Bytes) (c x : UInt8) (n size : Nat) :
    Prop where
  token : (split (ahead ++ [c]) false).token = some (0, n)
  advance : (split (ahead ++ [c]) false).advance = ahead.length
  fits : n + outputDelimeter.length ≤ size ∧ ahead.length < size
  spoils : n ≤ ahead.length ∧ outputDelimeter[ahead.length - n]? = some x ∧ c ≠ x
  last : tokenize split [c] = ([[c]], false)

variable {ahead : Bytes} {c x : UInt8} {n size : Nat} {pre : List Bytes}

/-- A run on the way to a spoiled byte, and after it. -/
inductive Trapped (split : SplitFunc) (outputDelimeter ahead : Bytes) (x c : UInt8) (n size : Nat)
    (pre : List Bytes) (s : ScanRun) : Prop
  -- about to read
  | ready (hpc : ∃ loop, s.scan.pc = .reading loop) (h : Quiet s [ahead ++ [c]] pre)
      (hstart : s.scan.scanner.start = 0) (hdata : s.scan.scanner.data = [])
      (hbuf : s.scan.scanner.buf.length = size)
  -- has read all of it
  | filled (hpc : s.scan.pc = .scanning) (h : Quiet s [] pre) (hstart : s.scan.scanner.start = 0)
      (hdata : s.scan.scanner.data = ahead ++ [c]) (hbuf : s.scan.scanner.buf.length = size)
  -- goes on as with `x` for `c`
  | spoiled (T : List Bytes) (hdue : s.due = []) (hprog : Progress split [x] T s.scan)
      (hout : s.scan.out ++ s.scan.inHand =
        pre ++ (ahead.take n ++ outputDelimeter) :: T.map (· ++ outputDelimeter))
      (hdata : s.scan.scanner.data.length ≤ 1)

/-- A step of the caller keeps it. -/
theorem Trapped.callerStep (h : Trapped split outputDelimeter ahead x c n size pre s)
    (hbase : RunBase s)
    (hst : s.callerStep = some t) : Trapped split outputDelimeter ahead x c n size pre t := by
  obtain ⟨hscanner, hpc', hout', herr⟩ := callerStep_scan hst
  cases h with
  | ready hpc h hstart hdata hbuf =>
    obtain ⟨loop, hpc⟩ := hpc
    refine .ready ⟨loop, hpc'.trans hpc⟩ (h.callerStep hbase (by rw [hpc]; simp) hst) ?_ ?_ ?_
    · rw [hscanner, hstart]
    · rw [hscanner, hdata]
    · rw [hscanner, hbuf]
  | filled hpc h hstart hdata hbuf =>
    refine .filled (hpc'.trans hpc) (h.callerStep hbase (by rw [hpc]; simp) hst) ?_ ?_ ?_
    · rw [hscanner, hstart]
    · rw [hscanner, hdata]
    · rw [hscanner, hbuf]
  | spoiled T hdue hprog hout hdata =>
    refine .spoiled T ((hbase.callerStep_due hst (.inr hdue)).1.trans hdue) ?_ ?_ ?_
    · unfold Progress at hprog ⊢
      rw [hpc', herr, hscanner]
      exact hprog
    · unfold ScanState.inHand at hout ⊢
      rw [hpc', hout']
      exact hout
    · rw [hscanner]
      exact hdata

/-- Nothing on offer is nothing to read. -/
theorem ScanMove.data_le {writer : List Bytes → Bytes → Option IoErr} {s t : ScanState}
    (h : ScanMove split outputDelimeter writer s t) (hoff : s.pipe.offer = none) :
    t.scanner.data.length ≤ s.scanner.data.length ∧ t.pipe.offer = none := by
  have hno : ∀ {room d pipe}, s.pipe.read room ≠ .data d pipe := by
    intro room d pipe hread
    obtain ⟨-, b, hb, -⟩ := Pipe.read_data hread
    rw [hoff] at hb
    cases hb
  cases h with
  | @token sc a b hpc hpass =>
    obtain ⟨_, _, _, rfl, rfl, rfl⟩ := Scanner.pass_eq_token hpass
    refine ⟨?_, hoff⟩
    rw [length_data_appendToken, Scanner.data_advance, List.length_drop]
    exact Nat.sub_le _ _
  | room hpc hpass =>
    refine ⟨?_, hoff⟩
    obtain ⟨-, -, -, ⟨-, hdata⟩ | ⟨-, hdata⟩⟩ := Scanner.pass_eq_read hpass
    · show (Scanner.data _).length ≤ _
      rw [hdata, List.length_drop]
      exact Nat.sub_le _ _
    · show (Scanner.data _).length ≤ _
      rw [hdata]
      exact Nat.zero_le _
  | ended hpc hpass =>
    refine ⟨?_, hoff⟩
    rcases Scanner.pass_eq_ended hpass with ⟨-, -, hdata, -⟩ | ⟨-, -, hdata, -⟩
    · show (Scanner.data _).length ≤ _
      rw [hdata]
      exact Nat.zero_le _
    · show (Scanner.data _).length ≤ _
      rw [hdata]
  | empty hpc hread => exact absurd hread hno
  | noProgress hpc hread => exact absurd hread hno
  | fill hpc hread hd => exact absurd hread hno
  | closed hpc hread =>
    refine ⟨?_, hoff⟩
    show (Scanner.setErr _ _).data.length ≤ _
    unfold Scanner.setErr
    split <;> exact Nat.le_refl _
  | written => exact ⟨Nat.le_refl _, hoff⟩
  | failed => exact ⟨Nat.le_refl _, hoff⟩
  | close => exact ⟨Nat.le_refl _, hoff⟩
  | finish => exact ⟨Nat.le_refl _, hoff⟩

theorem stop_of_data {sc : Scanner} {d : Bytes} (hstart : sc.start = 0) (hdata : sc.data = d) :
    sc.stop = d.length := by
  have hlen := sc.length_data
  rw [hdata, hstart] at hlen
  omega

theorem slice_one {l : Bytes} {i : Nat} (h : l[i]? = some x) : (l.take (i + 1)).drop i = [x] := by
  obtain ⟨hi, -⟩ := List.getElem?_eq_some_iff.mp h
  have hlen : (l.take i).length = i := by rw [List.length_take, Nat.min_eq_left (Nat.le_of_lt hi)]
  rw [List.take_add_one, h, List.drop_append_of_le_length (Nat.le_of_eq hlen.symm),
    List.drop_eq_nil_of_le (Nat.le_of_eq hlen)]
  rfl

/-- A scanner that goes on as if the bytes it holds were all it has read. -/
theorem ahead_of_data {sc : Scanner} {d : Bytes} (herr : sc.err = none) (hdata : sc.data = d) :
    Ahead split d [] sc := by
  unfold Ahead
  rw [herr]
  intro e
  rw [hdata]
  rfl

/-- The `Read` brings all of the second `Write`. -/
theorem trapped_ready_move (hsp : Spoils split outputDelimeter ahead c x n size)
    (hpc : ∃ loop, s.scan.pc = .reading loop) (h : Quiet s [ahead ++ [c]] pre)
    (hstart : s.scan.scanner.start = 0)
    (hdata : s.scan.scanner.data = []) (hbuf : s.scan.scanner.buf.length = size) (hbase : RunBase s)
    {g : ScanState} (hst : ScanMove split outputDelimeter (fun _ _ => none) s.scan g) :
    Trapped split outputDelimeter ahead x c n size pre { s with scan := g } := by
  obtain ⟨loop, hpc⟩ := hpc
  have hmade := h.made
  unfold ScanState.inHand at hmade
  rw [hpc] at hmade
  cases hst with
  | @fill loop' d pipe hpc' hread hd =>
    obtain ⟨-, b, hoff, rfl, hoff', -, -, hwc⟩ := Pipe.read_data hread
    have hdue := h.left
    unfold ScanRun.due at hdue
    rw [hoff] at hdue
    obtain ⟨rfl, htodo⟩ : b = ahead ++ [c] ∧ s.todo = [] := by simpa using hdue
    have hroom : (ahead ++ [c]).length ≤ s.scan.scanner.room := by
      have hstop := stop_of_data hstart hdata
      have := hsp.fits.2
      unfold Scanner.room
      rw [hbuf, hstop, List.length_append, List.length_nil]
      exact this
    rw [List.drop_eq_nil_of_le hroom, if_pos rfl] at hoff'
    refine .filled rfl ⟨?_, hmade, h.err, h.scannerErr, fun hne => absurd rfl hne⟩ hstart ?_ ?_
    · show pipe.offer.toList ++ s.todo = []
      rw [hoff', htodo]
      rfl
    · show (Scanner.fill _ _ (Pipe.read_length_le hread)).data = _
      rw [Scanner.data_fill, hdata, List.take_of_length_le hroom, List.nil_append]
    · show (Scanner.fill _ _ (Pipe.read_length_le hread)).buf.length = _
      rw [length_buf_fill, hbuf]
  | empty hpc' hread => exact absurd rfl (hbase.read_ne_nil hpc' hread)
  | noProgress hpc' hread => exact absurd rfl (hbase.read_ne_nil hpc' hread)
  | closed hpc' hread =>
    have hdone := (Pipe.read_closed hread).1
    rw [h.isOpen hbase (List.cons_ne_nil _ _) (by rw [hpc]; simp)] at hdone
    cases hdone
  | token hpc' | room hpc' | ended hpc' | written hpc' | failed hpc' | close hpc' | finish hpc' =>
    rw [hpc] at hpc'
    cases hpc'

/-- The token is taken, and the delimiter put after it spoils the byte. -/
theorem trapped_filled_move (hsp : Spoils split outputDelimeter ahead c x n size)
    (hpc : s.scan.pc = .scanning) (h : Quiet s [] pre) (hstart : s.scan.scanner.start = 0)
    (hdata : s.scan.scanner.data = ahead ++ [c])
    (hbuf : s.scan.scanner.buf.length = size) {g : ScanState}
    (hst : ScanMove split outputDelimeter (fun _ _ => none) s.scan g) :
    Trapped split outputDelimeter ahead x c n size pre { s with scan := g } := by
  have hmade := h.made
  unfold ScanState.inHand at hmade
  rw [hpc, List.append_nil] at hmade
  have hsome : s.scan.scanner.err.isSome = false := by rw [h.scannerErr]; rfl
  have htok := hsp.token
  rw [← hdata, ← hsome] at htok
  cases hst with
  | @token sc i j hpc' hpass =>
    obtain ⟨a, b, htok', rfl, rfl, rfl⟩ := Scanner.pass_eq_token hpass
    obtain ⟨rfl, rfl⟩ : 0 = a ∧ n = b := by
      rw [htok] at htok'
      simpa using htok'
    have hadv : (split s.scan.scanner.data s.scan.scanner.err.isSome).advance = ahead.length := by
      rw [hdata, hsome]
      exact hsp.advance
    obtain ⟨hin, -⟩ := hsp.fits
    obtain ⟨hle, hx, -⟩ := hsp.spoils
    obtain ⟨hlt, -⟩ := List.getElem?_eq_some_iff.mp hx
    have hstop := stop_of_data hstart hdata
    rw [List.length_append, List.length_singleton] at hstop
    have hspoiled : ((s.scan.scanner.advance _ (split s.scan.scanner.data
        s.scan.scanner.err.isSome).advance_le).appendToken (s.scan.scanner.start + 0)
        (s.scan.scanner.start + n) outputDelimeter).2.data = [x] := by
      rw [data_appendToken_over]
      · show
          (outputDelimeter.take (s.scan.scanner.stop - _)).drop (s.scan.scanner.start + _ - _) = _
        rw [hadv, hstop, hstart, Nat.zero_add, Nat.zero_add, Nat.sub_add_comm hle]
        exact slice_one hx
      · show _ ≤ s.scan.scanner.buf.length
        rw [hstart, hbuf, Nat.zero_add]
        exact hin
      · show _ ≤ s.scan.scanner.start + _
        rw [hadv]
        exact Nat.add_le_add_left hle _
      · show s.scan.scanner.stop ≤ _
        rw [hstop, hstart]
        omega
    refine .spoiled [] h.left ⟨h.err, ahead_of_data ?_ hspoiled⟩ ?_ ?_
    · rw [Scanner.appendToken_err]
      exact h.scannerErr
    · show s.scan.out ++ [(Scanner.appendToken _ _ _ _).1] = _
      rw [hmade, Scanner.appendToken_fst]
      show pre ++ [(s.scan.scanner.buf.take _).drop _ ++ _] = _
      rw [Scanner.slice_data _ (by rw [hdata, List.length_append]; omega), List.drop_zero, hdata,
        List.take_append_of_le_length hle]
      rfl
    · rw [hspoiled]
      exact Nat.le_refl _
  | room hpc' hpass =>
    obtain ⟨-, -, -, ⟨hnone, -⟩ | ⟨hnil, -⟩⟩ := Scanner.pass_eq_read hpass
    · rw [hsome, hnone] at htok
      cases htok
    · rw [hdata] at hnil
      simp at hnil
  | ended hpc' hpass =>
    rcases Scanner.pass_eq_ended hpass with ⟨hne, -⟩ | ⟨-, -, -, -, hnone, -⟩
    · exact absurd h.scannerErr hne
    · rw [hsome, hnone] at htok
      cases htok
  | empty hpc' | noProgress hpc' | fill hpc' | closed hpc' | written hpc' | failed hpc' | close hpc'
  | finish hpc' =>
    rw [hpc] at hpc'
    cases hpc'

/-- With one byte left no delimiter does harm. -/
theorem trapped_spoiled_move (hl : Lawful split) {T : List Bytes} (hdue : s.due = [])
    (hprog : Progress split [x] T s.scan)
    (hout : s.scan.out ++ s.scan.inHand =
      pre ++ (ahead.take n ++ outputDelimeter) :: T.map (· ++ outputDelimeter))
    (hdata : s.scan.scanner.data.length ≤ 1) {g : ScanState}
    (hst : ScanMove split outputDelimeter (fun _ _ => none) s.scan g) :
    Trapped split outputDelimeter ahead x c n size pre { s with scan := g } := by
  obtain ⟨hoff, htodo⟩ : s.scan.pipe.offer.toList = [] ∧ s.todo = [] :=
    List.append_eq_nil_iff.mp hdue
  have hnone : s.scan.pipe.offer = none := by simpa using hoff
  obtain ⟨hlen, hnone'⟩ := hst.data_le hnone
  have hharm : ∀ sc a b, s.scan.scanner.pass split = .token sc a b →
      (sc.appendToken a b outputDelimeter).2.data = sc.data := by
    intro sc i j hpass
    obtain ⟨a, b, htok, -, -, rfl⟩ := Scanner.pass_eq_token hpass
    have hpos := (split s.scan.scanner.data s.scan.scanner.err.isSome).advance_pos htok
    -- the token takes what is left
    have hnil : (s.scan.scanner.advance _ (split s.scan.scanner.data
        s.scan.scanner.err.isSome).advance_le).data = [] := by
      rw [Scanner.data_advance]
      exact List.drop_eq_nil_of_le (by omega)
    rw [hnil, ← List.length_eq_zero_iff, length_data_appendToken, hnil]
    rfl
  obtain ⟨d, new, hprog', hhand, hoffer, -, -⟩ := hprog.move hl hharm hst
  have hd : d = [] := by
    rw [hnone] at hoffer
    exact (List.append_eq_nil_iff.mp hoffer.symm).1
  subst hd
  refine .spoiled (T ++ new) ?_ ?_ ?_ (Nat.le_trans hlen hdata)
  · show g.pipe.offer.toList ++ s.todo = []
    rw [hnone', htodo]
    rfl
  · rw [List.append_nil] at hprog'
    exact hprog'
  · show g.out ++ g.inHand = _
    rw [hst.out, hout, hhand, List.append_assoc, List.map_append, List.cons_append]

theorem Trapped.move (hl : Lawful split) (hsp : Spoils split outputDelimeter ahead c x n size)
    (h : Trapped split outputDelimeter ahead x c n size pre s) (hbase : RunBase s) {g : ScanState}
    (hst : ScanMove split outputDelimeter (fun _ _ => none) s.scan g) :
    Trapped split outputDelimeter ahead x c n size pre { s with scan := g } := by
  cases h with
  | ready hpc h hstart hdata hbuf => exact trapped_ready_move hsp hpc h hstart hdata hbuf hbase hst
  | filled hpc h hstart hdata hbuf => exact trapped_filled_move hsp hpc h hstart hdata hbuf hst
  | spoiled T hdue hprog hout hdata => exact trapped_spoiled_move hl hdue hprog hout hdata hst

/-- Where a run ends the goroutine has returned. -/
theorem pc_of_stuck (hne : ∀ p ∈ chunks, p ≠ [])
    (hs : (scanningWriter split outputDelimeter (fun _ _ => none) chunks).Reachable s)
    (hstuck : (scanningWriter split outputDelimeter (fun _ _ => none) chunks).Stuck s) :
    s.scan.pc = .returned := by
  have hbase := runBase_reachable hne hs
  obtain ⟨err, hc⟩ := closed_of_stuck hne hs hstuck
  have hgo : scanStep split outputDelimeter (fun _ _ => none) s.scan = none := by
    by_contra hsome
    obtain ⟨g, hg⟩ := Option.ne_none_iff_exists'.mp hsome
    exact hstuck _ (.inr ⟨g, hg, rfl⟩)
  rcases scanStep_eq_none hgo with hret | ⟨-, hdone, -⟩
  · exact hret
  · unfold Pipe.done at hdone
    rw [hbase.writeClosed.mpr (.inr ⟨err, hc⟩), Bool.or_true] at hdone
    cases hdone

/-- A run that ends trapped has not written what it should have. -/
theorem Trapped.outcome (h : Trapped split outputDelimeter ahead x c n size pre s)
    (hret : s.scan.pc = .returned) :
    ∃ T, T <+: (tokenize split [x]).1 ∧
      s.scan.out = pre ++ (ahead.take n ++ outputDelimeter) :: T.map (· ++ outputDelimeter) := by
  cases h with
  | ready hpc =>
    obtain ⟨loop, hpc⟩ := hpc
    rw [hret] at hpc
    cases hpc
  | filled hpc =>
    rw [hret] at hpc
    cases hpc
  | spoiled T hdue hprog hout hdata =>
    refine ⟨T, hprog.isPrefix, ?_⟩
    unfold ScanState.inHand at hout
    rw [hret, List.append_nil] at hout
    exact hout

/-- Every token is made of bytes of the stream. -/
theorem sublist_of_mem_tokenize (split : SplitFunc) {stream t : Bytes}
    (ht : t ∈ (tokenize split stream).1) :
    List.Sublist t stream := by
  induction hn : stream.length using Nat.strong_induction_on generalizing stream with
  | _ n ih =>
    rw [tokenize] at ht
    dsimp only at ht
    split at ht
    next a b htok =>
      rcases List.mem_cons.mp ht with rfl | ht
      · exact (List.drop_sublist _ _).trans ((List.take_sublist _ _).trans (List.take_sublist _ _))
      · refine (ih _ ?_ ht rfl).trans (List.drop_sublist _ _)
        rw [← hn]
        exact Split.length_drop_lt _ (List.length_take_le' ..) (Split.advance_pos _ htok)
    next htok =>
      split at ht
      · cases ht
      · split at ht
        · cases ht
        next hadv =>
          refine (ih _ ?_ ht rfl).trans (List.drop_sublist _ _)
          rw [← hn]
          exact Split.length_drop_lt _ (List.length_take_le' ..) (Nat.pos_of_ne_zero hadv)

/-- The tokens at the end of a stream that gets spoiled. -/
theorem Spoils.tokenize_eq (hl : Lawful split) (hsp : Spoils split outputDelimeter ahead c x n size)
    (hsize : size ≤ maxScanTokenSize) :
    tokenize split (ahead ++ [c]) = ([ahead.take n, [c]], false) := by
  have hlen : (ahead ++ [c]).length ≤ maxScanTokenSize := by
    have := hsp.fits.2
    rw [List.length_append, List.length_singleton]
    omega
  have htok := tokenize_token hl hlen hsp.token []
  rw [List.append_nil, List.append_nil, hsp.advance, List.drop_left, hsp.last, List.drop_zero,
    List.take_append_of_le_length hsp.spoils.1] at htok
  exact htok

/-- A run that gets trapped breaks the contract. -/
theorem not_keeps_of_trapped (hl : Lawful split)
    (hsp : Spoils split outputDelimeter ahead c x n size)
    (hne : ∀ p ∈ chunks, p ≠ []) (tokens : List Bytes)
    (htok : tokenize split chunks.flatten = (tokens ++ [ahead.take n, [c]], false))
    (htrap : ∀ s, (scanningWriter split outputDelimeter (fun _ _ => none) chunks).Reachable s →
      s.scan.pc = .returned →
      Trapped split outputDelimeter ahead x c n size (tokens.map (· ++ outputDelimeter)) s) :
    WithinLimit split chunks.flatten ∧
    ¬(scanningWriter split outputDelimeter (fun _ _ => none) chunks).EveryRunEnds fun s =>
      s.caller = .closed none ∧
        s.scan.out = (tokensOf split chunks.flatten).map (· ++ outputDelimeter) := by
  have hlimit : WithinLimit split chunks.flatten := by
    unfold WithinLimit
    rw [htok]
  refine ⟨hlimit, ?_⟩
  intro hends
  obtain ⟨s, hs, hstuck, -⟩ := System.exists_stuck wellFounded_lt runWeight
    (fun s t hs hst => runWeight_step hne hs hst) (.start (show _ = _ from rfl))
  have hret := pc_of_stuck hne hs hstuck
  obtain ⟨T, hT, hout⟩ := (htrap s hs hret).outcome hret
  have hout' := (hends.ends s hs hstuck).2
  rw [← tokenize_of_withinLimit hl hlimit, htok, hout, List.map_append] at hout'
  have htail := List.append_cancel_left hout'
  simp only [List.map_cons, List.map_nil, List.cons.injEq, true_and] at htail
  obtain ⟨t, rfl, htc⟩ := List.map_eq_singleton_iff.mp htail
  have htc := List.append_cancel_right htc
  subst htc
  have hsub := sublist_of_mem_tokenize split (hT.subset (List.mem_singleton_self _))
  have hmem := hsub.subset (List.mem_singleton_self c)
  exact hsp.spoils.2.2 (List.mem_singleton.mp hmem)

/-! ## Into the trap from the start -/

/-- A scanner without unread bytes reads on. -/
theorem pass_of_nil {sc : Scanner} (hdata : sc.data = []) (herr : sc.err = none) :
    sc.pass split = sc.makeRoom := by
  have hlen := sc.length_data
  rw [hdata, List.length_nil] at hlen
  unfold Scanner.pass
  refine if_neg ?_
  rintro (hlt | hsome)
  · omega
  · rw [herr] at hsome
    cases hsome

/-- The first read gets a buffer. -/
theorem makeRoom_new : Scanner.new.makeRoom = .read Scanner.new.grow := rfl

/-- It is of the size that buffers start with. -/
theorem length_buf_grow_new : Scanner.new.grow.buf.length = startBufSize := by
  show ([] ++ List.replicate (startBufSize - 0) (0 : UInt8)).length = startBufSize
  rw [List.nil_append, List.length_replicate, Nat.sub_zero]

/-- A run of one `Write` before it is trapped, and after. -/
inductive TrappedFromStart (split : SplitFunc) (outputDelimeter ahead : Bytes) (x c : UInt8)
    (n : Nat) (s : ScanRun) : Prop
  | starting (hpc : s.scan.pc = .scanning) (h : Quiet s [ahead ++ [c]] [])
      (hnew : s.scan.scanner = .new)
  | trapped (h : Trapped split outputDelimeter ahead x c n startBufSize [] s)

/-- **In each run it holds.** -/
theorem trappedFromStart_reachable (hl : Lawful split)
    (hsp : Spoils split outputDelimeter ahead c x n startBufSize)
    (h : (scanningWriter split outputDelimeter (fun _ _ => none) [ahead ++ [c]]).Reachable s) :
    TrappedFromStart split outputDelimeter ahead x c n s := by
  refine h.invariant (fun s hs => ?_) (fun s t hreach hs hst => ?_)
  · rw [show s = { todo := [ahead ++ [c]] } from hs]
    exact .starting rfl ⟨rfl, rfl, rfl, rfl, fun _ => rfl⟩ rfl
  · have hbase := runBase_reachable (by simp) hreach
    rcases hst with hst | ⟨g, hst, rfl⟩
    · cases hs with
      | starting hpc h hnew =>
        obtain ⟨hscanner, hpc', -, -⟩ := callerStep_scan hst
        exact .starting (hpc'.trans hpc) (h.callerStep hbase (by rw [hpc]; simp) hst)
          (hscanner.trans hnew)
      | trapped h => exact .trapped (h.callerStep hbase hst)
    · have hmove := scanStep_move hst
      cases hs with
      | trapped h => exact .trapped (h.move hl hsp hbase hmove)
      | starting hpc h hnew =>
        have hmade := h.made
        unfold ScanState.inHand at hmade
        rw [hpc] at hmade
        have hroom : s.scan.scanner.pass split = .read Scanner.new.grow := by
          rw [hnew, pass_of_nil rfl rfl, makeRoom_new]
        cases hmove with
        | @room sc hpc' hpass =>
          rw [hroom] at hpass
          cases hpass
          exact .trapped (.ready ⟨0, rfl⟩ ⟨h.left, hmade, h.err, rfl, h.writeClosed⟩ rfl
            (Scanner.data_grow _) length_buf_grow_new)
        | token hpc' hpass | ended hpc' hpass =>
          rw [hroom] at hpass
          cases hpass
        | empty hpc' | noProgress hpc' | fill hpc' | closed hpc' | written hpc' | failed hpc'
        | close hpc'
        | finish hpc' =>
          rw [hpc] at hpc'
          cases hpc'

/-- A delimiter that spoils a byte in the first buffer breaks the contract. -/
theorem breaks_from_start (hl : Lawful split)
    (hsp : Spoils split outputDelimeter ahead c x n startBufSize) :
    WithinLimit split (ahead ++ [c]) ∧
    ¬(scanningWriter split outputDelimeter (fun _ _ => none) [ahead ++ [c]]).EveryRunEnds fun s =>
      s.caller = .closed none ∧
        s.scan.out = (tokensOf split (ahead ++ [c])).map (· ++ outputDelimeter) := by
  have hflat : [ahead ++ [c]].flatten = ahead ++ [c] := List.flatten_singleton
  have htok := hsp.tokenize_eq hl (by decide)
  rw [← hflat] at htok
  have hbreak := not_keeps_of_trapped hl hsp (by simp) [] htok fun s hs hret => by
    cases trappedFromStart_reachable hl hsp hs with
    | starting hpc =>
      rw [hret] at hpc
      cases hpc
    | trapped h => exact h
  rw [hflat] at hbreak
  exact hbreak

/-! ## Into the trap after a long token -/

/-- The sizes a buffer can have. -/
def bufSizes : List Nat := [0, 4096, 8192, 16384, 32768, 65536]

/-- Making room for unread bytes at the front of the buffer. -/
theorem makeRoom_front (sc : Scanner) (herr : sc.err = none) (hstart : sc.start = 0)
    (hlen : sc.data.length < maxScanTokenSize) (hbuf : sc.buf.length ∈ bufSizes) :
    ∃ sc', sc.makeRoom = .read sc' ∧ sc'.start = 0 ∧ sc'.data = sc.data ∧
      sc'.buf.length ∈ bufSizes ∧ sc'.err = none := by
  have hstop := stop_of_data hstart rfl
  unfold Scanner.makeRoom
  rw [herr, Option.isSome_none, if_neg (by simp)]
  simp only [hstart, Nat.lt_irrefl, false_and, if_false]
  by_cases hfull : sc.stop = sc.buf.length
  · rw [if_pos hfull, if_neg (by omega)]
    refine ⟨sc.grow, rfl, rfl, Scanner.data_grow sc, ?_, herr⟩
    show (sc.data ++ List.replicate (_ - sc.data.length) 0).length ∈ bufSizes
    rw [List.length_append, List.length_replicate]
    unfold bufSizes at hbuf ⊢
    simp only [List.mem_cons, List.not_mem_nil, or_false] at hbuf ⊢
    unfold maxScanTokenSize startBufSize at *
    split <;> omega
  · rw [if_neg hfull]
    exact ⟨sc, rfl, hstart, rfl, hbuf, herr⟩

/-- The same where the split function finds nothing. -/
theorem pass_front (sc : Scanner) (herr : sc.err = none) (hstart : sc.start = 0)
    (hlen : sc.data.length < maxScanTokenSize) (hbuf : sc.buf.length ∈ bufSizes)
    (htok : (split sc.data false).token = none) (hadv : (split sc.data false).advance = 0) :
    ∃ sc', sc.pass split = .read sc' ∧ sc'.start = 0 ∧ sc'.data = sc.data ∧
      sc'.buf.length ∈ bufSizes ∧ sc'.err = none := by
  have hsome : sc.err.isSome = false := by rw [herr]; rfl
  rcases Scanner.pass_cases split sc with ⟨a, b, htok', -⟩ | ⟨-, hpass⟩ | ⟨-, -, hpass⟩
  · rw [hsome, htok] at htok'
    cases htok'
  · rw [← hsome] at hadv
    have hsame : (sc.advance _ (split sc.data sc.err.isSome).advance_le).data = sc.data := by
      rw [Scanner.data_advance, hadv, List.drop_zero]
    obtain ⟨sc', hroom, hstart', hdata', hbuf', herr'⟩ :=
      makeRoom_front (sc.advance _ (split sc.data sc.err.isSome).advance_le) herr
        (by show sc.start + _ = 0; rw [hstart, hadv]) (by rw [hsame]; exact hlen) hbuf
    exact ⟨sc', hpass.trans hroom, hstart', hdata'.trans hsame, hbuf', herr'⟩
  · obtain ⟨sc', hroom, hrest⟩ := makeRoom_front sc herr hstart hlen hbuf
    exact ⟨sc', hpass.trans hroom, hrest⟩

/-- A token for which the buffer grows to its greatest size, and which leaves so much space
before the unread bytes that they are moved to the front. -/
structure LongToken (split : SplitFunc) (first : Bytes) (sep : UInt8) : Prop where
  more : ∀ k ≤ first.length, (split (first.take k) false).token = none ∧
    (split (first.take k) false).advance = 0
  token : (split (first ++ [sep]) false).token = some (0, first.length)
  advance : (split (first ++ [sep]) false).advance = first.length + 1
  long : maxScanTokenSize / 2 ≤ first.length
  short : first.length < maxScanTokenSize

/-- What is left of a slice, if anything is. -/
def leftOf (rest : Bytes) : List Bytes := if rest = [] then [] else [rest]

/-- A run of two `Write`s before it is trapped, and after. -/
inductive TrappedAfter (split : SplitFunc) (outputDelimeter first : Bytes) (sep : UInt8)
    (ahead : Bytes) (x c : UInt8) (n : Nat) (s : ScanRun) : Prop
  -- the first token is being read
  | taking (rest : Bytes)
      (hpc : s.scan.pc = .scanning ∨ rest ≠ [] ∧ ∃ loop, s.scan.pc = .reading loop)
      (h : Quiet s (leftOf rest ++ [ahead ++ [c]]) []) (hstart : s.scan.scanner.start = 0)
      (hbuf : s.scan.scanner.buf.length ∈ bufSizes)
      (hdata : s.scan.scanner.data ++ rest = first ++ [sep])
  -- it has been taken
  | taken (hpc : s.scan.pc = .scanning ∨ ∃ bytes, s.scan.pc = .writing bytes)
      (h : Quiet s [ahead ++ [c]] [first ++ outputDelimeter])
      (hstart : s.scan.scanner.start = first.length + 1)
      (hbuf : s.scan.scanner.buf.length = maxScanTokenSize) (hdata : s.scan.scanner.data = [])
  | trapped
      (h : Trapped split outputDelimeter ahead x c n maxScanTokenSize [first ++ outputDelimeter] s)

variable {first : Bytes} {sep : UInt8}

/-- A step of the caller keeps it. -/
theorem TrappedAfter.callerStep (h : TrappedAfter split outputDelimeter first sep ahead x c n s)
    (hbase : RunBase s) (hst : s.callerStep = some t) :
    TrappedAfter split outputDelimeter first sep ahead x c n t := by
  obtain ⟨hscanner, hpc', -, -⟩ := callerStep_scan hst
  cases h with
  | taking rest hpc h hstart hbuf hdata =>
    have hgo : s.scan.pc ≠ .finish ∧ s.scan.pc ≠ .returned := by
      rcases hpc with hpc | ⟨-, loop, hpc⟩ <;> rw [hpc] <;> simp
    refine .taking rest ?_ (h.callerStep hbase hgo hst) ?_ ?_ ?_
    · rw [hpc']
      exact hpc
    · rw [hscanner, hstart]
    · rw [hscanner]
      exact hbuf
    · rw [hscanner, hdata]
  | taken hpc h hstart hbuf hdata =>
    have hgo : s.scan.pc ≠ .finish ∧ s.scan.pc ≠ .returned := by
      rcases hpc with hpc | ⟨bytes, hpc⟩ <;> rw [hpc] <;> simp
    refine .taken ?_ (h.callerStep hbase hgo hst) ?_ ?_ ?_
    · rw [hpc']
      exact hpc
    · rw [hscanner, hstart]
    · rw [hscanner, hbuf]
    · rw [hscanner, hdata]
  | trapped h => exact .trapped (h.callerStep hbase hst)

/-- Before its end is read the token is not seen. -/
theorem LongToken.front (hlong : LongToken split first sep) {d rest : Bytes}
    (hdata : d ++ rest = first ++ [sep]) (hrest : rest ≠ []) :
    d.length < maxScanTokenSize ∧ (split d false).token = none ∧ (split d false).advance = 0 := by
  have hlen : d.length ≤ first.length := by
    have := congrArg List.length hdata
    have hpos := List.length_pos_iff.mpr hrest
    simp only [List.length_append, List.length_singleton] at this
    omega
  have hd : d = first.take d.length := by
    have htake : (first ++ [sep]).take d.length = first.take d.length :=
      List.take_append_of_le_length hlen
    rw [← htake, ← hdata, List.take_left]
  obtain ⟨htok, hadv⟩ := hlong.more d.length hlen
  rw [← hd] at htok hadv
  exact ⟨Nat.lt_of_le_of_lt hlen hlong.short, htok, hadv⟩

/-- Appending the delimiter does not move the start. -/
theorem appendToken_start (sc : Scanner) (a b : Nat) (tail : Bytes) :
    (sc.appendToken a b tail).2.start = sc.start := by
  unfold Scanner.appendToken
  dsimp only
  split <;> rfl

/-- All of the first token is there, and it is taken. -/
theorem taking_token (hlong : LongToken split first sep) (hpc : s.scan.pc = .scanning)
    (h : Quiet s (leftOf [] ++ [ahead ++ [c]]) []) (hstart : s.scan.scanner.start = 0)
    (hbuf : s.scan.scanner.buf.length ∈ bufSizes)
    (hdata : s.scan.scanner.data ++ [] = first ++ [sep])
    {g : ScanState} (hst : ScanMove split outputDelimeter (fun _ _ => none) s.scan g) :
    TrappedAfter split outputDelimeter first sep ahead x c n { s with scan := g } := by
  have hmade := h.made
  unfold ScanState.inHand at hmade
  have hsome : s.scan.scanner.err.isSome = false := by rw [h.scannerErr]; rfl
  rw [hpc] at hmade
  rw [List.append_nil] at hdata hmade
  have htok := hlong.token
  have hadv := hlong.advance
  rw [← hdata, ← hsome] at htok hadv
  cases hst with
  | @token sc i j hpc' hpass =>
    obtain ⟨a, b, htok', rfl, rfl, rfl⟩ := Scanner.pass_eq_token hpass
    obtain ⟨rfl, rfl⟩ : 0 = a ∧ first.length = b := by
      rw [htok] at htok'
      simpa using htok'
    have hlen : s.scan.scanner.data.length = first.length + 1 := by rw [hdata]; simp
    refine .taken (.inr ⟨_, rfl⟩) ⟨h.left, ?_, h.err, ?_, h.writeClosed⟩ ?_ ?_ ?_
    · show s.scan.out ++ [(Scanner.appendToken _ _ _ _).1] = _
      rw [hmade, Scanner.appendToken_fst]
      show [] ++ [(s.scan.scanner.buf.take _).drop _ ++ _] = _
      rw [Scanner.slice_data _ (by rw [hlen]; omega), List.drop_zero, hdata, List.take_left]
      rfl
    · rw [Scanner.appendToken_err]
      exact h.scannerErr
    · rw [appendToken_start]
      show s.scan.scanner.start + _ = _
      rw [hstart, hadv, Nat.zero_add]
    · refine (length_buf_appendToken _ (s.scan.scanner.start + 0) _ _).trans ?_
      show s.scan.scanner.buf.length = _
      have hle := s.scan.scanner.length_data_le
      have hlong := hlong.long
      unfold bufSizes at hbuf
      unfold maxScanTokenSize at *
      simp only [List.mem_cons, List.not_mem_nil, or_false] at hbuf
      omega
    · rw [← List.length_eq_zero_iff, length_data_appendToken, Scanner.data_advance,
        List.length_drop, hadv, hlen, Nat.sub_self]
  | room hpc' hpass =>
    obtain ⟨-, -, -, ⟨hnone, -⟩ | ⟨hnil, -⟩⟩ := Scanner.pass_eq_read hpass
    · rw [hsome, hnone] at htok
      cases htok
    · rw [hdata] at hnil
      simp at hnil
  | ended hpc' hpass =>
    rcases Scanner.pass_eq_ended hpass with ⟨hne, -⟩ | ⟨-, -, -, -, hnone, -⟩
    · exact absurd h.scannerErr hne
    · rw [hsome, hnone] at htok
      cases htok
  | empty hpc' | noProgress hpc' | fill hpc' | closed hpc' | written hpc' | failed hpc' | close hpc'
  | finish hpc' =>
    rw [hpc] at hpc'
    cases hpc'

/-- Not all of it is there. -/
theorem taking_front (hlong : LongToken split first sep) (hpc : s.scan.pc = .scanning)
    {rest : Bytes} (hrest : rest ≠ []) (h : Quiet s (leftOf rest ++ [ahead ++ [c]]) [])
    (hstart : s.scan.scanner.start = 0) (hbuf : s.scan.scanner.buf.length ∈ bufSizes)
    (hdata : s.scan.scanner.data ++ rest = first ++ [sep])
    {g : ScanState} (hst : ScanMove split outputDelimeter (fun _ _ => none) s.scan g) :
    TrappedAfter split outputDelimeter first sep ahead x c n { s with scan := g } := by
  have hmade := h.made
  unfold ScanState.inHand at hmade
  rw [hpc] at hmade
  obtain ⟨hlen, htok, hadv⟩ := hlong.front hdata hrest
  obtain ⟨sc', hread, hstart', hdata', hbuf', herr'⟩ :=
    pass_front s.scan.scanner h.scannerErr hstart hlen hbuf htok hadv
  cases hst with
  | room hpc' hpass =>
    rw [hread] at hpass
    cases hpass
    refine .taking rest (.inr ⟨hrest, 0, rfl⟩) ⟨h.left, hmade, h.err, herr', h.writeClosed⟩
      hstart' hbuf' ?_
    rw [hdata']
    exact hdata
  | token hpc' hpass | ended hpc' hpass =>
    rw [hread] at hpass
    cases hpass
  | empty hpc' | noProgress hpc' | fill hpc' | closed hpc' | written hpc' | failed hpc' | close hpc'
  | finish hpc' =>
    rw [hpc] at hpc'
    cases hpc'

/-- More of it is read. -/
theorem taking_read {rest : Bytes} (hrest : rest ≠ []) {loop : Nat}
    (hpc : s.scan.pc = .reading loop)
    (h : Quiet s (leftOf rest ++ [ahead ++ [c]]) []) (hstart : s.scan.scanner.start = 0)
    (hbuf : s.scan.scanner.buf.length ∈ bufSizes)
    (hdata : s.scan.scanner.data ++ rest = first ++ [sep]) (hbase : RunBase s) {g : ScanState}
    (hst : ScanMove split outputDelimeter (fun _ _ => none) s.scan g) :
    TrappedAfter split outputDelimeter first sep ahead x c n { s with scan := g } := by
  have hmade := h.made
  unfold ScanState.inHand at hmade
  rw [hpc] at hmade
  have hslice : leftOf rest = [rest] := if_neg hrest
  cases hst with
  | @fill loop' d pipe hpc' hread hd =>
    obtain ⟨-, b, hoff, rfl, hoff', -, -, hwc⟩ := Pipe.read_data hread
    have hdue := h.left
    unfold ScanRun.due at hdue
    rw [hoff, hslice] at hdue
    obtain ⟨rfl, htodo⟩ : b = rest ∧ s.todo = [ahead ++ [c]] := by simpa using hdue
    refine .taking (b.drop s.scan.scanner.room) (.inl rfl)
      ⟨?_, hmade, h.err, h.scannerErr, fun _ => ?_⟩ hstart
      ?_ ?_
    · show pipe.offer.toList ++ s.todo = _
      rw [hoff', htodo]
      unfold leftOf
      split <;> rfl
    · show pipe.writeClosed = false
      rw [hwc]
      exact h.writeClosed (by simp)
    · show (Scanner.fill _ _ (Pipe.read_length_le hread)).buf.length ∈ bufSizes
      rw [length_buf_fill]
      exact hbuf
    · show (Scanner.fill _ _ (Pipe.read_length_le hread)).data ++ _ = _
      rw [Scanner.data_fill, List.append_assoc, List.take_append_drop]
      exact hdata
  | empty hpc' hread => exact absurd rfl (hbase.read_ne_nil hpc' hread)
  | noProgress hpc' hread => exact absurd rfl (hbase.read_ne_nil hpc' hread)
  | closed hpc' hread =>
    have hdone := (Pipe.read_closed hread).1
    rw [h.isOpen hbase (by simp) (by rw [hpc]; simp)] at hdone
    cases hdone
  | token hpc' | room hpc' | ended hpc' | written hpc' | failed hpc' | close hpc' | finish hpc' =>
    rw [hpc] at hpc'
    cases hpc'

/-- The buffer has grown to its greatest size, and its front is free: the trap is set. -/
theorem taken_shift (hlong : LongToken split first sep) (hpc : s.scan.pc = .scanning)
    (h : Quiet s [ahead ++ [c]] [first ++ outputDelimeter])
    (hstart : s.scan.scanner.start = first.length + 1)
    (hbuf : s.scan.scanner.buf.length = maxScanTokenSize) (hdata : s.scan.scanner.data = [])
    {g : ScanState} (hst : ScanMove split outputDelimeter (fun _ _ => none) s.scan g) :
    TrappedAfter split outputDelimeter first sep ahead x c n { s with scan := g } := by
  have hmade := h.made
  unfold ScanState.inHand at hmade
  rw [hpc] at hmade
  have hstop := s.scan.scanner.length_data
  rw [hdata, List.length_nil, hstart] at hstop
  have hle := s.scan.scanner.start_le
  have hlong' := hlong.long
  have hshift : s.scan.scanner.pass split = .read s.scan.scanner.shift := by
    rw [pass_of_nil hdata h.scannerErr]
    unfold Scanner.makeRoom
    rw [h.scannerErr, Option.isSome_none, if_neg (by simp)]
    have hcond : 0 < s.scan.scanner.start ∧ (s.scan.scanner.stop = s.scan.scanner.buf.length ∨
        s.scan.scanner.buf.length / 2 < s.scan.scanner.start) := by omega
    simp only [if_pos hcond]
    refine if_neg ?_
    show s.scan.scanner.stop - s.scan.scanner.start ≠ (s.scan.scanner.data ++ _).length
    rw [hdata, List.nil_append, List.length_drop, hbuf]
    unfold maxScanTokenSize at *
    omega
  cases hst with
  | room hpc' hpass =>
    rw [hshift] at hpass
    cases hpass
    refine .trapped (.ready ⟨0, rfl⟩ ⟨h.left, hmade, h.err, h.scannerErr, h.writeClosed⟩ rfl ?_ ?_)
    · exact (Scanner.data_shift _).trans hdata
    · show (s.scan.scanner.data ++ _).length = _
      rw [hdata, List.nil_append, List.length_drop, hbuf]
      omega
  | token hpc' hpass | ended hpc' hpass =>
    rw [hshift] at hpass
    cases hpass
  | empty hpc' | noProgress hpc' | fill hpc' | closed hpc' | written hpc' | failed hpc' | close hpc'
  | finish hpc' =>
    rw [hpc] at hpc'
    cases hpc'

/-- The write of the long token leads to what is trapped. -/
theorem taken_write {bytes : Bytes} (hpc : s.scan.pc = .writing bytes)
    (h : Quiet s [ahead ++ [c]] [first ++ outputDelimeter])
    (hstart : s.scan.scanner.start = first.length + 1)
    (hbuf : s.scan.scanner.buf.length = maxScanTokenSize) (hdata : s.scan.scanner.data = [])
    {g : ScanState} (hst : ScanMove split outputDelimeter (fun _ _ => none) s.scan g) :
    TrappedAfter split outputDelimeter first sep ahead x c n { s with scan := g } := by
  have hmade := h.made
  unfold ScanState.inHand at hmade
  rw [hpc] at hmade
  cases hst with
  | written hpc' hok =>
    rw [hpc] at hpc'
    cases hpc'
    refine .taken (.inl rfl) ⟨h.left, ?_, h.err, h.scannerErr, h.writeClosed⟩ hstart hbuf hdata
    show s.scan.out ++ [bytes] ++ [] = _
    rw [List.append_nil]
    exact hmade
  | failed hpc' herr => cases herr
  | token hpc' | room hpc' | ended hpc' | empty hpc' | noProgress hpc' | fill hpc' | closed hpc'
  | close hpc'
  | finish hpc' =>
    rw [hpc] at hpc'
    cases hpc'

theorem TrappedAfter.move (hl : Lawful split) (hlong : LongToken split first sep)
    (hsp : Spoils split outputDelimeter ahead c x n maxScanTokenSize)
    (h : TrappedAfter split outputDelimeter first sep ahead x c n s) (hbase : RunBase s)
    {g : ScanState} (hst : ScanMove split outputDelimeter (fun _ _ => none) s.scan g) :
    TrappedAfter split outputDelimeter first sep ahead x c n { s with scan := g } := by
  cases h with
  | trapped h => exact .trapped (h.move hl hsp hbase hst)
  | taking rest hpc h hstart hbuf hdata =>
    rcases hpc with hpc | ⟨hrest, loop, hpc⟩
    · by_cases hrest : rest = []
      · subst hrest
        exact taking_token hlong hpc h hstart hbuf hdata hst
      · exact taking_front hlong hpc hrest h hstart hbuf hdata hst
    · exact taking_read hrest hpc h hstart hbuf hdata hbase hst
  | taken hpc h hstart hbuf hdata =>
    rcases hpc with hpc | ⟨bytes, hpc⟩
    · exact taken_shift hlong hpc h hstart hbuf hdata hst
    · exact taken_write hpc h hstart hbuf hdata hst

/-- Every run of two `Write`s, the first of which is a long token. -/
theorem trappedAfter_reachable (hl : Lawful split) (hlong : LongToken split first sep)
    (hsp : Spoils split outputDelimeter ahead c x n maxScanTokenSize)
    (h : (scanningWriter split outputDelimeter (fun _ _ =>
      none) [first ++ [sep], ahead ++ [c]]).Reachable s) :
    TrappedAfter split outputDelimeter first sep ahead x c n s := by
  refine h.invariant (fun s hs => ?_) (fun s t hreach hs hst => ?_)
  · rw [show s = { todo := [first ++ [sep], ahead ++ [c]] } from hs]
    refine .taking (first ++ [sep]) (.inl rfl) ⟨?_, rfl, rfl, rfl, fun _ =>
      rfl⟩ rfl List.mem_cons_self rfl
    unfold leftOf
    rw [if_neg (by simp)]
    rfl
  · have hbase := runBase_reachable (by simp) hreach
    rcases hst with hst | ⟨g, hst, rfl⟩
    · exact hs.callerStep hbase hst
    · exact hs.move hl hlong hsp hbase (scanStep_move hst)

/-- A delimiter that spoils a byte in the greatest buffer breaks the contract. -/
theorem breaks_after (hl : Lawful split) (hlong : LongToken split first sep)
    (hsp : Spoils split outputDelimeter ahead c x n maxScanTokenSize) :
    WithinLimit split [first ++ [sep], ahead ++ [c]].flatten ∧
    ¬(scanningWriter split outputDelimeter (fun _ _ =>
      none) [first ++ [sep], ahead ++ [c]]).EveryRunEnds fun s =>
      s.caller = .closed none ∧
        s.scan.out =
          (tokensOf split [first ++ [sep], ahead ++ [c]].flatten).map (· ++ outputDelimeter) := by
  have hlen : (first ++ [sep]).length ≤ maxScanTokenSize := by
    rw [List.length_append, List.length_singleton]
    exact hlong.short
  have htok := tokenize_token hl hlen hlong.token (ahead ++ [c])
  have hdrop : (first ++ [sep]).drop (first.length + 1) = [] := List.drop_eq_nil_of_le (by simp)
  rw [hlong.advance, hdrop, List.nil_append, hsp.tokenize_eq hl (Nat.le_refl _), List.drop_zero,
    List.take_left] at htok
  refine not_keeps_of_trapped hl hsp (by simp) [first] ?_ fun s hs hret => ?_
  · rw [List.flatten_cons, List.flatten_singleton]
    exact htok
  · cases trappedAfter_reachable hl hlong hsp hs with
    | taking rest hpc =>
      rw [hret] at hpc
      simp at hpc
    | taken hpc =>
      rw [hret] at hpc
      simp at hpc
    | trapped h => exact h

end Trap

end ShouldIAsync.HarnessIo
