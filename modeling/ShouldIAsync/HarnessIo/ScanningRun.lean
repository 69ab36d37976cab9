import ShouldIAsync.GoStd.Tokens
import ShouldIAsync.HarnessIo.ScanningWriter
import ShouldIAsync.Lib.System

/-!
# The runs of a `ScanningWriter`

A caller makes `Write`s on a `ScanningWriter` and then closes it, whatever the `Write`s
return, while the goroutine scans the other end of the pipe. `RunBase` is what holds of every
run for any split function and delimiter, and enough for the caller to get through: no run goes
on for ever (`runWeight_step`) and none ends before `Close` has returned (`closed_of_stuck`).
-/

namespace ShouldIAsync.HarnessIo

open ShouldIAsync.Lib ShouldIAsync.GoStd

/-! ## The caller -/

/-- Where the caller is. -/
inductive ScanCaller
  | idle
  -- in `Write(p)`
  | inWrite (p : Bytes)
  -- in `Close`, at `<-w.readerDoneChan`
  | inClose
  -- what `Close` returned
  | closed (err : Option IoErr)

/-- A scanning writer and the goroutine that writes to it. -/
structure ScanRun where
  scan : ScanState := {}
  caller : ScanCaller := .idle
  -- the `Write`s still to be made
  todo : List Bytes
  -- what the `Write`s returned
  results : List WriteResult := []

/-- The next step of that goroutine. -/
def ScanRun.callerStep (s : ScanRun) : Option ScanRun :=
  match s.caller with
  | .idle =>
    match s.todo with
    | p :: ps => some { s with scan := s.scan.write p, caller := .inWrite p, todo := ps }
    | [] => some
      { s with scan := { s.scan with pipe := s.scan.pipe.closeWrite }, caller := .inClose }
  | .inWrite _ =>
    match s.scan.writeResult with
    | none => none
    | some res =>
      some { s with
        scan := { s.scan with pipe := s.scan.pipe.withdraw }
        caller := .idle
        results := s.results ++ [res] }
  | .inClose =>
    if s.scan.readerDone then some { s with caller := .closed (Error.joinAll [s.scan.err, none]) }
    else none
  | .closed _ => none

/-- The runs of `NewScanningWriter(writer, split, outputDelimeter)`, given `chunks` and closed. -/
def scanningWriter (split : SplitFunc) (outputDelimeter : Bytes)
    (writer : List Bytes → Bytes → Option IoErr) (chunks : List Bytes) : System ScanRun where
  init s := s = { todo := chunks }
  step s t := s.callerStep = some t ∨
    ∃ scan, scanStep split outputDelimeter writer s.scan = some scan ∧ t = { s with scan := scan }

/-! ## What holds of every run -/

/-- Nothing is offered but in a `Write`, never the empty slice, the scanner reads into a
free end of its buffer, and the ends of the pipe are closed by those who should. -/
structure RunBase (s : ScanRun) : Prop where
  todo : ∀ p ∈ s.todo, p ≠ []
  offers : s.scan.pipe.offer ≠ some []
  offer_none : s.scan.pipe.offer ≠ none → ∃ p, s.caller = .inWrite p
  writeClosed : s.scan.pipe.writeClosed = true ↔ s.caller = .inClose ∨ ∃ err, s.caller = .closed err
  readClosed : s.scan.pipe.readClosed = true ↔ s.scan.pc = .finish ∨ s.scan.pc = .returned
  readerDone : s.scan.readerDone = true ↔ s.scan.pc = .returned
  reading : ∀ loop, s.scan.pc = .reading loop → s.scan.scanner.err = none ∧ 0 < s.scan.scanner.room

section Base

variable {split : SplitFunc} {outputDelimeter : Bytes} {writer : List Bytes → Bytes → Option IoErr}
  {chunks : List Bytes} {s t : ScanRun}

theorem runBase_initial (hne : ∀ p ∈ chunks, p ≠ []) : RunBase { todo := chunks } where
  todo := hne
  offers := by simp
  offer_none := by simp
  writeClosed := by simp
  readClosed := by simp
  readerDone := by simp
  reading := by simp

/-- A step of the caller keeps it. -/
theorem RunBase.callerStep (h : RunBase s) (hst : s.callerStep = some t) : RunBase t := by
  unfold ScanRun.callerStep at hst
  split at hst
  next hc =>
    split at hst
    next p ps htodo =>
      cases hst
      have hp : p ≠ [] := h.todo p (by rw [htodo]; exact List.mem_cons_self)
      refine ⟨fun q hq => h.todo q (by rw [htodo]; exact List.mem_cons_of_mem _ hq), ?_, ?_, ?_,
        h.readClosed, h.readerDone, h.reading⟩
      · simpa [ScanState.write] using hp
      · intro _
        exact ⟨p, rfl⟩
      · have := h.writeClosed
        simpa [hc, ScanState.write] using this
    next htodo =>
      cases hst
      refine ⟨h.todo, h.offers, ?_, by simp, h.readClosed, h.readerDone, h.reading⟩
      intro hoff
      obtain ⟨p, hp⟩ := h.offer_none hoff
      rw [hc] at hp
      cases hp
  next p hc =>
    split at hst
    · cases hst
    next res hres =>
      cases hst
      refine ⟨h.todo, by simp, by simp, ?_, h.readClosed, h.readerDone, h.reading⟩
      have := h.writeClosed
      simpa [hc] using this
  next hc =>
    split at hst
    next hdone =>
      cases hst
      refine ⟨h.todo, h.offers, ?_, ?_, h.readClosed, h.readerDone, h.reading⟩
      · intro hoff
        obtain ⟨p, hp⟩ := h.offer_none hoff
        rw [hc] at hp
        cases hp
      · have := h.writeClosed
        simpa [hc] using this
    · cases hst
  · cases hst

/-- A read takes bytes, as nothing else is offered. -/
theorem RunBase.read_ne_nil (h : RunBase s) {loop : Nat} (hpc : s.scan.pc = .reading loop)
    {d : Bytes}
    {pipe : Pipe} (hread : s.scan.pipe.read s.scan.scanner.room = .data d pipe) : d ≠ [] := by
  obtain ⟨-, b, hb, rfl, -⟩ := Pipe.read_data hread
  have hroom := (h.reading loop hpc).2
  intro hnil
  rcases List.take_eq_nil_iff.mp hnil with h0 | h0
  · omega
  · exact h.offers (by rw [hb, h0])

theorem RunBase.move (h : RunBase s) {g : ScanState}
    (hst : ScanMove split outputDelimeter writer s.scan g) :
    RunBase { s with scan := g } := by
  obtain ⟨htodo, hoffers, hoff, hwc, hrc, hrd, hreading⟩ := h
  have hbase : RunBase s := ⟨htodo, hoffers, hoff, hwc, hrc, hrd, hreading⟩
  cases hst with
  | token hpc hpass =>
    rw [hpc] at hrc hrd
    exact ⟨htodo, hoffers, hoff, hwc, by simpa using hrc, by simpa using hrd, by simp⟩
  | room hpc hpass =>
    rw [hpc] at hrc hrd
    obtain ⟨-, herr, hroom, -⟩ := Scanner.pass_eq_read hpass
    exact ⟨htodo, hoffers, hoff,
      hwc, by simpa using hrc, by simpa using hrd, fun _ _ => ⟨herr, hroom⟩⟩
  | ended hpc hpass =>
    rw [hpc] at hrc hrd
    exact ⟨htodo, hoffers, hoff, hwc, by simpa using hrc, by simpa using hrd, by simp⟩
  | empty hpc hread => exact absurd rfl (hbase.read_ne_nil hpc hread)
  | noProgress hpc hread => exact absurd rfl (hbase.read_ne_nil hpc hread)
  | fill hpc hread hd =>
    rw [hpc] at hrc hrd
    obtain ⟨-, b, hb, -, hoff', -, hrc', hwc'⟩ := Pipe.read_data hread
    refine ⟨htodo, ?_, ?_, ?_, ?_, by simpa using hrd, by simp⟩
    · show Pipe.offer _ ≠ _
      rw [hoff']
      split
      · simp
      next hne =>
        intro hnil
        exact hne (Option.some.inj hnil)
    · intro _
      exact hoff (by rw [hb]; simp)
    · show Pipe.writeClosed _ = true ↔ _
      rw [hwc']
      exact hwc
    · show Pipe.readClosed _ = true ↔ _
      rw [hrc']
      simpa using hrc
  | closed hpc hread =>
    rw [hpc] at hrc hrd
    exact ⟨htodo, hoffers, hoff, hwc, by simpa using hrc, by simpa using hrd, by simp⟩
  | written hpc hok =>
    rw [hpc] at hrc hrd
    exact ⟨htodo, hoffers, hoff, hwc, by simpa using hrc, by simpa using hrd, by simp⟩
  | failed hpc herr =>
    rw [hpc] at hrc hrd
    exact ⟨htodo, hoffers, hoff, hwc, by simpa using hrc, by simpa using hrd, by simp⟩
  | close hpc =>
    rw [hpc] at hrd
    exact ⟨htodo, hoffers, hoff, hwc, by simp, by simpa using hrd, by simp⟩
  | finish hpc =>
    rw [hpc] at hrc
    exact ⟨htodo, hoffers, hoff, hwc, by simpa using hrc, by simp, by simp⟩

/-- **The invariant of every run.** -/
theorem runBase_reachable (hne : ∀ p ∈ chunks, p ≠ [])
    (h : (scanningWriter split outputDelimeter writer chunks).Reachable s) : RunBase s := by
  refine h.invariant (fun s hs => ?_) (fun s t _ hs hst => ?_)
  · rw [show s = { todo := chunks } from hs]
    exact runBase_initial hne
  · rcases hst with hst | ⟨g, hst, rfl⟩
    · exact hs.callerStep hst
    · exact hs.move (scanStep_move hst)

/-! ## Every run ends -/

/-- What is left of the caller's `Write`s. -/
def todoWeight (chunks : List Bytes) : Nat := chunks.foldr (fun p n => p.length + 2 + n) 0

/-- How much the caller has still to do. -/
def ScanCaller.weight : ScanCaller → Nat
  | .idle => 2
  | .inWrite _ => 3
  | .inClose => 1
  | .closed _ => 0

/-- How much the scanning goroutine has still to do in this round. -/
def Scan.weight : Scan → Nat
  | .scanning => 4
  | .reading _ => 3
  | .writing _ => 5
  | .closing => 2
  | .finish => 1
  | .returned => 0

/-- The end of the stream is still to be seen. -/
def eofWeight : Option ScanError → Nat
  | none => 2
  | some _ => 0

/-- What is left to do in a run: every byte is offered, read and scanned. -/
def runWeight (s : ScanRun) : Nat :=
  5 * todoWeight s.todo + s.caller.weight + 5 * s.scan.pipe.weight +
    3 * s.scan.scanner.data.length +
    eofWeight s.scan.scanner.err + s.scan.pc.weight

/-- A step of the caller makes the weight smaller. -/
theorem RunBase.callerStep_weight (h : RunBase s) (hst : s.callerStep = some t) :
    runWeight t < runWeight s := by
  unfold ScanRun.callerStep at hst
  unfold runWeight
  split at hst
  next hc =>
    have hoff : s.scan.pipe.offer = none := by
      by_contra hoff
      obtain ⟨p, hp⟩ := h.offer_none hoff
      rw [hc] at hp
      cases hp
    split at hst
    next p ps htodo =>
      cases hst
      rw [hc, htodo]
      simp only [ScanCaller.weight, todoWeight, List.foldr_cons, ScanState.write, Pipe.weight,
        Pipe.offerWrite, hoff, Option.elim_none, Option.elim_some]
      omega
    next htodo =>
      cases hst
      rw [hc]
      simp only [ScanCaller.weight, Pipe.weight, Pipe.closeWrite]
      omega
  next p hc =>
    split at hst
    · cases hst
    next res hres =>
      cases hst
      rw [hc]
      simp only [ScanCaller.weight, Pipe.weight, Pipe.withdraw, Option.elim_none]
      omega
  next hc =>
    split at hst
    next hdone =>
      cases hst
      rw [hc]
      simp only [ScanCaller.weight]
      omega
    · cases hst
  · cases hst

/-- The delimiter that is appended does not lengthen the data. -/
theorem length_data_appendToken (sc : Scanner) (a b : Nat) (tail : Bytes) :
    (sc.appendToken a b tail).2.data.length = sc.data.length := by
  rw [Scanner.length_data, Scanner.length_data]
  unfold Scanner.appendToken
  dsimp only
  split <;> rfl

/-- A move of the scanning goroutine makes the weight smaller. -/
theorem RunBase.move_weight (h : RunBase s) {g : ScanState}
    (hst : ScanMove split outputDelimeter writer s.scan g) : runWeight { s with scan := g } <
      runWeight s := by
  unfold runWeight
  cases hst with
  | token hpc hpass =>
    obtain ⟨a, b, htok, -, -, rfl⟩ := Scanner.pass_eq_token hpass
    have hpos := (split s.scan.scanner.data s.scan.scanner.err.isSome).advance_pos htok
    have hle := (split s.scan.scanner.data s.scan.scanner.err.isSome).advance_le
    have herr : (s.scan.scanner.advance _ hle).err = s.scan.scanner.err := rfl
    simp only [hpc, Scan.weight, length_data_appendToken, Scanner.appendToken_err,
      Scanner.data_advance, List.length_drop, herr]
    omega
  | room hpc hpass =>
    obtain ⟨herr, herr', -, hdata⟩ := Scanner.pass_eq_read hpass
    have hle : ∀ {sc : Scanner}, s.scan.scanner.pass split = .read sc →
        sc.data.length ≤ s.scan.scanner.data.length := by
      intro sc hsc
      obtain ⟨-, -, -, ⟨-, hd⟩ | ⟨-, hd⟩⟩ := Scanner.pass_eq_read hsc
      · rw [hd, List.length_drop]
        omega
      · rw [hd]
        exact Nat.zero_le _
    have hlen := hle hpass
    simp only [hpc, Scan.weight, herr, herr']
    omega
  | ended hpc hpass =>
    rcases Scanner.pass_eq_ended hpass with ⟨herr, herr', hdata, -⟩ | ⟨herr, herr', hdata, -⟩
    · simp only [hpc, Scan.weight, herr', hdata, List.length_nil]
      omega
    · simp only [hpc, Scan.weight, herr, herr', hdata, eofWeight]
      omega
  | empty hpc hread => exact absurd rfl (h.read_ne_nil hpc hread)
  | noProgress hpc hread => exact absurd rfl (h.read_ne_nil hpc hread)
  | fill hpc hread hd =>
    obtain ⟨hlt, hle⟩ := Pipe.read_weight (h.reading _ hpc).2 hread
    have hpos := List.length_pos_iff.mpr hd
    simp only [hpc, Scan.weight, Scanner.data_fill, List.length_append]
    have herr : ∀ d hd, (s.scan.scanner.fill d hd).err = s.scan.scanner.err := fun _ _ => rfl
    simp only [herr]
    omega
  | closed hpc hread =>
    have herr := (h.reading _ hpc).1
    have hdata : ∀ err, ({ s.scan.scanner with err := some err } : Scanner).data =
        s.scan.scanner.data :=
      fun _ => rfl
    simp only [hpc, Scan.weight, Scanner.setErr_eq herr, herr, hdata, eofWeight]
    omega
  | written hpc hok =>
    simp only [hpc, Scan.weight]
    omega
  | failed hpc herr =>
    simp only [hpc, Scan.weight]
    omega
  | close hpc =>
    simp only [hpc, Scan.weight, Pipe.weight, Pipe.closeRead]
    omega
  | finish hpc =>
    simp only [hpc, Scan.weight]
    omega

/-- **Every step of a run leaves less to do.** -/
theorem runWeight_step (hne : ∀ p ∈ chunks, p ≠ [])
    (hs : (scanningWriter split outputDelimeter writer chunks).Reachable s)
    (hst : (scanningWriter split outputDelimeter writer chunks).step s t) : runWeight t <
      runWeight s := by
  have hbase := runBase_reachable hne hs
  rcases hst with hst | ⟨g, hst, rfl⟩
  · exact hbase.callerStep_weight hst
  · exact hbase.move_weight (scanStep_move hst)

/-- **A run ends where `Close` has returned.** -/
theorem closed_of_stuck (hne : ∀ p ∈ chunks, p ≠ [])
    (hs : (scanningWriter split outputDelimeter writer chunks).Reachable s)
    (hstuck : (scanningWriter split outputDelimeter writer chunks).Stuck s) :
    ∃ err, s.caller = .closed err := by
  have hbase := runBase_reachable hne hs
  have hcaller : s.callerStep = none := by
    by_contra hsome
    obtain ⟨t, ht⟩ := Option.ne_none_iff_exists'.mp hsome
    exact hstuck t (.inl ht)
  have hgo : scanStep split outputDelimeter writer s.scan = none := by
    by_contra hsome
    obtain ⟨g, hg⟩ := Option.ne_none_iff_exists'.mp hsome
    exact hstuck _ (.inr ⟨g, hg, rfl⟩)
  unfold ScanRun.callerStep at hcaller
  split at hcaller
  next hc => split at hcaller <;> cases hcaller
  next p hc =>
    -- a `Write` waits for a reader that is there
    split at hcaller
    next hres =>
      exfalso
      unfold ScanState.writeResult at hres
      split at hres
      · cases hres
      next b hoff =>
        split at hres
        · cases hres
        next hdone =>
          rcases scanStep_eq_none hgo with hret | ⟨-, -, hnone⟩
          · apply hdone
            unfold Pipe.done
            rw [hbase.readClosed.mpr (.inr hret), Bool.true_or]
          · rw [hoff] at hnone
            cases hnone
    · cases hcaller
  next hc =>
    split at hcaller
    · cases hcaller
    next hdone =>
      exfalso
      rcases scanStep_eq_none hgo with hret | ⟨-, hopen, -⟩
      · exact hdone (hbase.readerDone.mpr hret)
      · unfold Pipe.done at hopen
        rw [hbase.writeClosed.mpr (.inl hc), Bool.or_true] at hopen
        cases hopen
  next err hc => exact ⟨err, hc⟩

end Base

end ShouldIAsync.HarnessIo
