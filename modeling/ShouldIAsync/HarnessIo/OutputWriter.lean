import ShouldIAsync.HarnessIo.MorphingCalls
import ShouldIAsync.HarnessIo.ScanningWriter

/-!
# `CreateOutputWriter`: log lines or pass them through

The writer connected to a command's output is a `MorphingWriter` for newline whose
`morph` looks at the first line: a JSON object with the keys of a log record makes
it pass everything to a `ScanningWriter` before the downstream writer, anything
else makes it log each `Write` (`morphOutput`). `outputs` are these two writers,
with the log entries and the goroutine of the `ScanningWriter` behind them; that
goroutine runs in both cases.

`encoding/json` is a parameter, `unmarshal`: the error (`none`), a nil map, or the
keys of the map. The downstream writer is one as well.

`OutputInv` is the invariant of the writers behind: the entries are the calls
made, and the scanning goroutine has been given the bytes of the calls made on it.
-/

namespace ShouldIAsync.HarnessIo

open ShouldIAsync.Lib ShouldIAsync.GoStd

/-- The value of an attribute of a log record. -/
inductive LogValue
  | int (i : Int)
  | text (s : String)
  | bytes (b : Bytes)
  deriving DecidableEq, Repr

/-- A record as `slog` is given it. -/
structure LogRecord where
  level : Int
  msg : String
  attrs : List (String × LogValue)
  deriving DecidableEq, Repr

/-- `slog.LevelInfo` -/
def levelInfo : Int := 0

/-- How to log as a writer: the attributes its logger was given with `With`, the
level, the message and the key of what is written. -/
structure LogWrapper where
  logger : List (String × LogValue)
  level : Int
  msg : String
  key : String

def createLogWrapper (commandIdx : Int) (outputStreamName : String) : LogWrapper where
  logger := [("command_index", .int commandIdx), ("output_stream_name", .text outputStreamName)]
  level := levelInfo
  msg := "command output"
  key := "line"

/-- The record that `LogWrapper.write(p)` logs. -/
def LogWrapper.write (w : LogWrapper) (p : Bytes) : LogRecord where
  level := w.level
  msg := w.msg
  attrs := w.logger ++ [(w.key, .bytes (trimRight p))]

/-- The two writers `PassthroughOrLogJsonWriter` morphs into. -/
inductive Output
  | logging
  | passthrough
  deriving DecidableEq, Repr

/-- `mapContainsAll(m, keys)`, for the keys of `m`. -/
def mapContainsAll (m keys : List String) : Bool := keys.all fun k => m.contains k

/-- The function given to `NewMorphingWriter`. -/
def morphOutput (unmarshal : Bytes → Option (Option (List String))) (firstToken : Bytes) : Output :=
  match unmarshal firstToken with
  | none | some none => .logging
  | some (some m) =>
    if mapContainsAll m ["time", "level", "msg"] then .passthrough else .logging

/-- What is behind the two writers. -/
structure OutputState where
  /-- the records logged -/
  entries : List LogRecord := []
  totalBytesWritten : UInt64 := 0
  /-- the `ScanningWriter` and its goroutine -/
  scanning : ScanState := {}

/-- `LoggingWriter.Write` and `ScanningWriter.Write`. -/
def outputs (wrapper : LogWrapper) (downstream : List Bytes → Bytes → Option IoErr) :
    Writers Output OutputState where
  call
    | .logging, p, x =>
      { x with
        entries := x.entries ++ [wrapper.write p]
        totalBytesWritten := x.totalBytesWritten + UInt64.ofNat p.length }
    | .passthrough, p, x => { x with scanning := x.scanning.write p }
  ret
    | .logging, p, _ => some (accepted p)
    | .passthrough, _, x => x.scanning.writeResult
  background x y :=
    ∃ t, scanStep scanLines [newline] downstream x.scanning = some t ∧ y = { x with scanning := t }

/-- The runs of a writer from `CreateOutputWriter`, given `chunks` and closed. -/
def createOutputWriter (unmarshal : Bytes → Option (Option (List String))) (wrapper : LogWrapper)
    (downstream : List Bytes → Bytes → Option IoErr) (chunks : List Bytes) :
    System (State Output OutputState newline) :=
  morphingWriter newline (outputs wrapper downstream) (morphOutput unmarshal) chunks {}

/-- The writer that a stream's first line makes. -/
def outputOf (unmarshal : Bytes → Option (Option (List String))) (stream : Bytes) : Output :=
  morphOutput unmarshal (firstToken newline stream)

/-- The bytes of the writes made on the `ScanningWriter`. -/
def scanned (calls : List (Output × Bytes)) : Bytes :=
  (calls.filterMap fun | (.passthrough, p) => some p | (.logging, _) => none).flatten

/-- The records of the writes made on the `LoggingWriter`. -/
def logged (wrapper : LogWrapper) (calls : List (Output × Bytes)) : List LogRecord :=
  calls.filterMap fun | (.logging, p) => some (wrapper.write p) | (.passthrough, _) => none

@[simp] theorem scanned_logging (writes : List Bytes) :
    scanned (writes.map (Output.logging, ·)) = [] := by
  induction writes with
  | nil => rfl
  | cons p ps ih => exact ih

@[simp] theorem scanned_passthrough (writes : List Bytes) :
    scanned (writes.map (Output.passthrough, ·)) = writes.flatten := by
  induction writes with
  | nil => rfl
  | cons p ps ih => exact congrArg (p ++ ·) ih

@[simp] theorem logged_logging (wrapper : LogWrapper) (writes : List Bytes) :
    logged wrapper (writes.map (Output.logging, ·)) = writes.map wrapper.write := by
  induction writes with
  | nil => rfl
  | cons p ps ih => exact congrArg (wrapper.write p :: ·) ih

theorem scanned_append (calls calls' : List (Output × Bytes)) :
    scanned (calls ++ calls') = scanned calls ++ scanned calls' := by
  simp [scanned]

theorem logged_append (wrapper : LogWrapper) (calls calls' : List (Output × Bytes)) :
    logged wrapper (calls ++ calls') = logged wrapper calls ++ logged wrapper calls' := by
  simp [logged]

/-! ## The invariant behind the writers -/

/-- What a `Write` in progress on the `ScanningWriter` has handed over and still
offers; without one nothing is on offer. -/
def Offering (pipe : Pipe) (p : Option Bytes) : Prop :=
  match p with
  | some p => pipe.sent + (pipe.offer.getD []).length = p.length
  | none => pipe.offer = none

/-- The `Write` in progress on the `ScanningWriter`. -/
def scanPending (k : Output) (s : State Output OutputState newline) : Option Bytes :=
  match k with
  | .logging => none
  | .passthrough => pending s

/-- The invariant of what is behind the writers, when the first line makes `k`. -/
structure OutputInv (wrapper : LogWrapper) (k : Output) (s : State Output OutputState newline) :
    Prop where
  entries : s.behind.entries = logged wrapper s.calls
  scan : ScanInv s.behind.scanning (scanned s.calls)
  offers : Offering s.behind.scanning.pipe (scanPending k s)

/-- What the scanning goroutine needs to forward everything: no chunk is cut by the
switch, the lines fit in its buffer and the downstream writer accepts them. -/
structure Passable (downstream : List Bytes → Bytes → Option IoErr) (chunks : List Bytes) :
    Prop where
  fits : switchFits newline 0 chunks = true
  short : Short chunks.flatten
  accepts : ∀ out bytes, downstream out bytes = none

/-- A read takes from the front of the offer. -/
theorem Offering.read {pipe pipe' : Pipe} {p : Option Bytes} {room : Nat} {d : Bytes}
    (h : Offering pipe p) (hread : pipe.read room = .data d pipe') : Offering pipe' p := by
  obtain ⟨-, b, hb, rfl, hoff, hsent, -, -⟩ := Pipe.read_data hread
  unfold Offering at h ⊢
  split at h
  next p =>
    rw [hb, Option.getD_some] at h
    have hrest : (pipe'.offer.getD []).length = b.length - (b.take room).length := by
      rw [hoff, List.length_take]
      split
      next hdrop =>
        rw [List.drop_eq_nil_iff] at hdrop
        simp only [Option.getD_none, List.length_nil]
        omega
      next =>
        rw [Option.getD_some, List.length_drop]
        omega
    have hle : (b.take room).length ≤ b.length := List.length_take_le' ..
    show pipe'.sent + _ = p.length
    omega
  next =>
    rw [hb] at h
    cases h

/-- A step of the scanning goroutine takes from the front of the offer, if at all. -/
theorem Offering.scanStep {split : SplitFunc} {outputDelimeter : Bytes}
    {writer : List Bytes → Bytes → Option IoErr} {s t : ScanState} {p : Option Bytes}
    (h : Offering s.pipe p) (hstep : scanStep split outputDelimeter writer s = some t) :
    Offering t.pipe p := by
  unfold HarnessIo.scanStep at hstep
  split at hstep
  · split at hstep <;> obtain rfl := Option.some.inj hstep <;> exact h
  · split at hstep
    · cases hstep
    next d pipe hread =>
      have hpipe := h.read hread
      split at hstep
      · split at hstep <;> obtain rfl := Option.some.inj hstep <;> exact hpipe
      · obtain rfl := Option.some.inj hstep
        exact hpipe
    · obtain rfl := Option.some.inj hstep
      exact h
  · split at hstep <;> obtain rfl := Option.some.inj hstep <;> exact h
  · obtain rfl := Option.some.inj hstep
    exact h
  · obtain rfl := Option.some.inj hstep
    exact h
  · cases hstep

section Run

variable {unmarshal : Bytes → Option (Option (List String))} {wrapper : LogWrapper}
  {downstream : List Bytes → Bytes → Option IoErr} {chunks : List Bytes}
  {s t : State Output OutputState newline}

theorem initial_outputInv (k : Output) : OutputInv wrapper k (initial newline chunks {}) := by
  refine ⟨rfl, scanInv_initial, ?_⟩
  cases k <;> exact Eq.refl none

/-- A call that is pending is one of the output that the stream gives. -/
theorem writer_of_pending (h : Inv (morphOutput unmarshal) chunks s) {p : Bytes}
    (hp : pending s = some p) : s.writer = some (outputOf unmarshal chunks.flatten) :=
  writer_of_inCall h ((inCall_iff h).mpr hp)

/-- All calls are on that output, and are the front of the stream if the switch fits. -/
theorem calls_of_inv (h : Inv (morphOutput unmarshal) chunks s) :
    ∃ writes : List Bytes, s.calls = writes.map (outputOf unmarshal chunks.flatten, ·) ∧
      (switchFits newline 0 chunks = true → writes.flatten <+: chunks.flatten) :=
  calls_front h

/-- A call in progress on the `ScanningWriter` returns once nothing is on offer. -/
theorem OutputInv.result_iff {k : Output} (hout : OutputInv wrapper k s) {p : Bytes}
    (hk : k = .passthrough) (hp : pending s = some p) (res : WriteResult) :
    (outputs wrapper downstream).ret k p s.behind = some res ↔
      s.behind.scanning.pipe.offer = none ∧ res = accepted p := by
  subst hk
  have hoffers : Offering s.behind.scanning.pipe (pending s) := hout.offers
  rw [hp] at hoffers
  show s.behind.scanning.writeResult = some res ↔ _
  unfold ScanState.writeResult
  split
  next hoff =>
    have hsent : s.behind.scanning.pipe.sent + 0 = p.length := by
      simpa [Offering, hoff] using hoffers
    rw [accepted, ← hsent, Nat.add_zero, Option.some_inj]
    exact ⟨fun h => ⟨hoff, h.symm⟩, fun h => h.2.symm⟩
  next b hoff =>
    rw [hout.scan.isOpen, if_neg Bool.false_ne_true]
    simp [hoff]

/-- A call in progress can only return that it took everything. -/
theorem OutputInv.acceptsIn (h : Inv (morphOutput unmarshal) chunks s)
    (hout : OutputInv wrapper (outputOf unmarshal chunks.flatten) s) :
    AcceptsIn (outputs wrapper downstream) s := by
  intro p res hcall hres
  have hp := (inCall_iff h).mp hcall
  rw [writerResult, writer_of_pending h hp, Option.bind_some] at hres
  cases hk : outputOf unmarshal chunks.flatten with
  | logging =>
    rw [hk] at hres
    exact (Option.some.inj hres).symm
  | passthrough => exact ((hout.result_iff hk hp res).mp hres).2

/-- The bytes given to the scanning goroutine are a front of the stream. -/
theorem scanned_short (h : Inv (morphOutput unmarshal) chunks s)
    (hpass : outputOf unmarshal chunks.flatten = .passthrough → Passable downstream chunks) :
    Short (scanned s.calls) := by
  obtain ⟨writes, hcalls, hfront⟩ := calls_of_inv h
  rw [hcalls]
  cases hk : outputOf unmarshal chunks.flatten with
  | logging =>
    rw [scanned_logging]
    exact Short.of_length (by decide)
  | passthrough =>
    obtain ⟨hfits, hshort, -⟩ := hpass hk
    rw [scanned_passthrough]
    obtain ⟨rest, hrest⟩ := hfront hfits
    rw [← hrest] at hshort
    exact hshort.isPrefix

/-- The downstream writer does not fail. -/
theorem downstream_accepts (h : Inv (morphOutput unmarshal) chunks s)
    (hout : OutputInv wrapper (outputOf unmarshal chunks.flatten) s)
    (hpass : outputOf unmarshal chunks.flatten = .passthrough → Passable downstream chunks)
    (bytes : Bytes) (hpc : s.behind.scanning.pc = .writing bytes) :
    downstream s.behind.scanning.out bytes = none := by
  cases hk : outputOf unmarshal chunks.flatten with
  | passthrough => exact (hpass hk).accepts _ _
  | logging =>
    -- nothing has been given to the goroutine, so it has nothing in hand
    exfalso
    obtain ⟨writes, hcalls, -⟩ := calls_of_inv h
    obtain ⟨ls, -, hgiven, hlines⟩ := hout.scan.lines
    rw [hcalls, hk, scanned_logging] at hgiven
    rw [hpc] at hlines
    cases ls with
    | nil => simp at hlines
    | cons l ls => simp at hgiven

/-- **One step of the two goroutines preserves the invariant behind the writers.** -/
theorem OutputInv.effect (h : Inv (morphOutput unmarshal) chunks s)
    (ht : Inv (morphOutput unmarshal) chunks t)
    (hout : OutputInv wrapper (outputOf unmarshal chunks.flatten) s)
    (heff : Effect (outputs wrapper downstream) s t) :
    OutputInv wrapper (outputOf unmarshal chunks.flatten) t := by
  obtain ⟨hentries, hscan, hoffers⟩ := hout
  cases heff with
  | quiet hbehind hcalls hpending =>
    refine ⟨by rw [hbehind, hcalls, hentries], by rw [hbehind, hcalls]; exact hscan, ?_⟩
    unfold scanPending at hoffers ⊢
    rw [hbehind, hpending]
    exact hoffers
  | returns hbehind hcalls p hpending hresult hdone =>
    refine ⟨by rw [hbehind, hcalls, hentries], by rw [hbehind, hcalls]; exact hscan, ?_⟩
    rw [hbehind]
    cases hk : outputOf unmarshal chunks.flatten with
    | logging =>
      rw [hk] at hoffers
      exact hoffers
    | passthrough =>
      obtain ⟨res, hres⟩ := Option.ne_none_iff_exists'.mp hresult
      rw [writerResult, writer_of_pending h hpending, Option.bind_some] at hres
      obtain ⟨hoff, -⟩ := (OutputInv.result_iff ⟨hentries, hscan, hoffers⟩ hk hpending res).mp hres
      rw [scanPending, hdone]
      exact hoff
  | enters k p hp hw hidle hpending hbehind hcalls =>
    -- the call is made on the one writer
    obtain ⟨writes, hwrites, -⟩ := calls_of_inv ht
    have hk : k = outputOf unmarshal chunks.flatten := by
      have hmem : (k, p) ∈ t.calls := by rw [hcalls]; simp
      rw [hwrites] at hmem
      obtain ⟨q, -, hq⟩ := List.mem_map.mp hmem
      exact (congrArg Prod.fst hq).symm
    rw [hk] at hbehind hcalls
    cases hmode : outputOf unmarshal chunks.flatten with
    | logging =>
      rw [hmode] at hbehind hcalls hoffers
      refine ⟨?_, ?_, ?_⟩
      · rw [hbehind, hcalls, logged_append, ← hentries]
        simp [outputs, logged]
      · rw [hbehind, hcalls, scanned_append]
        simpa [outputs, scanned] using hscan
      · rw [hbehind]
        exact hoffers
    | passthrough =>
      rw [hmode] at hbehind hcalls hoffers
      rw [scanPending, hidle] at hoffers
      refine ⟨?_, ?_, ?_⟩
      · rw [hbehind, hcalls, logged_append, ← hentries]
        simp [outputs, logged]
      · rw [hbehind, hcalls, scanned_append]
        have := hscan.write hoffers hp
        simpa [outputs, scanned] using this
      · rw [hbehind, scanPending, hpending]
        simp [outputs, ScanState.write, Offering]

/-- The state that a step of the scanning goroutine leads to. -/
theorem OutputInv.background (h : Inv (morphOutput unmarshal) chunks s)
    (hout : OutputInv wrapper (outputOf unmarshal chunks.flatten) s)
    (hpass : outputOf unmarshal chunks.flatten = .passthrough → Passable downstream chunks)
    {x : OutputState} (hstep : (outputs wrapper downstream).background s.behind x) :
    OutputInv wrapper (outputOf unmarshal chunks.flatten) { s with behind := x } ∧
      scanWeight x.scanning < scanWeight s.behind.scanning := by
  obtain ⟨t, hscan, rfl⟩ := hstep
  obtain ⟨hinv, hweight⟩ := scanStep_inv hout.scan (scanned_short h hpass)
    (downstream_accepts h hout hpass) hscan
  exact ⟨⟨hout.entries, hinv, hout.offers.scanStep hscan⟩, hweight⟩

/-- Both invariants hold in every reachable state. -/
theorem output_reachable (hne : ∀ p ∈ chunks, p ≠ [])
    (hpass : outputOf unmarshal chunks.flatten = .passthrough → Passable downstream chunks)
    (h : (createOutputWriter unmarshal wrapper downstream chunks).Reachable s) :
    Inv (morphOutput unmarshal) chunks s ∧
      OutputInv wrapper (outputOf unmarshal chunks.flatten) s := by
  refine h.invariant (P := fun s => Inv (morphOutput unmarshal) chunks s ∧
    OutputInv wrapper (outputOf unmarshal chunks.flatten) s) ?_ ?_
  · intro s hs
    obtain rfl : s = initial newline chunks {} := hs
    exact ⟨initial_inv _ _ _, initial_outputInv _⟩
  · rintro s t - ⟨hinv, hout⟩ hstep
    have hacc : AcceptsIn (outputs wrapper downstream) s := OutputInv.acceptsIn hinv hout
    rcases hstep with hr | hc | ⟨x, hb, rfl⟩
    · have ht := readerStep_inv hinv hacc hr
      exact ⟨ht, OutputInv.effect hinv ht hout (readerStep_effect hinv hr)⟩
    · have ht := callerStep_inv hne hinv hacc hc
      exact ⟨ht, OutputInv.effect hinv ht hout (callerStep_effect hne hinv hc)⟩
    · exact ⟨hinv.behind x, (hout.background hinv hpass hb).1⟩

/-- The measure of a run: the steps of the two goroutines, then those behind. -/
def outputWeight (s : State Output OutputState newline) : Nat ×ₗ Nat :=
  toLex (weight s, scanWeight s.behind.scanning)

/-- Each step of a run makes the weight smaller. -/
theorem output_step_weight (hne : ∀ p ∈ chunks, p ≠ [])
    (hpass : outputOf unmarshal chunks.flatten = .passthrough → Passable downstream chunks)
    (h : (createOutputWriter unmarshal wrapper downstream chunks).Reachable s)
    (hstep : (createOutputWriter unmarshal wrapper downstream chunks).step s t) :
    outputWeight t < outputWeight s := by
  rw [outputWeight, outputWeight, Prod.Lex.toLex_lt_toLex]
  rcases hstep with hr | hc | ⟨x, hb, rfl⟩
  · exact Or.inl (readerStep_weight hr)
  · exact Or.inl (callerStep_weight hc)
  · obtain ⟨hinv, hout⟩ := output_reachable hne hpass h
    exact Or.inr ⟨rfl, (hout.background hinv hpass hb).2⟩

end Run

end ShouldIAsync.HarnessIo
