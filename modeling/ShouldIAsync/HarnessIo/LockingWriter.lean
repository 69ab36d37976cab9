import Mathlib.Logic.Function.Basic
import ShouldIAsync.HarnessIo.ScanningLines

/-!
# `LockingWriter`: many `ScanningWriter`s, one log

`container1` writes its own log and every stream of its commands through `ScanningWriter`s
(`bufio.ScanLines`, newline) that share one `LockingWriter`. The model has a writer for each
`i : ι`, given any `Write`s and closed at any time, and the underlying writer, which takes the
bytes of a `Write` one at a time and may fail, but fails if it does not take them all.

What the lock is for is that these bytes are not mixed with those of another `Write`
(`SharedLog.Inv.one`); that they are whole lines, and each writer's own in order, is due to
the goroutines (`Scanned`). `lockingWriter_keeps_lines` puts the two together.
-/

namespace ShouldIAsync.HarnessIo

open ShouldIAsync.Lib ShouldIAsync.GoStd

/-! ## The model -/

/-- Where a goroutine is in `LockingWriter.Write`. -/
inductive Locking
  -- not in it, or at `w.locker.Lock()`
  | outside
  | locked
  -- in `w.writer.Write`, with `rest` still to be taken
  | writing (rest : Bytes)
  -- at `w.locker.Unlock()`, with what `w.writer.Write` returned
  | written (err : Option IoErr)

/-- A `ScanningWriter` before the `LockingWriter`. -/
structure LogWriter where
  scan : ScanState := {}
  locking : Locking := .outside
  -- the `Write` in progress on it; the pipe's own lock keeps other `Write`s waiting
  current : Option Bytes := none
  -- what the `Write`s that returned have accepted
  handed : Bytes := []

/-- The bytes accepted so far: those of the `Write`s that returned, and what the scanner has
taken of the one in progress. -/
def LogWriter.accepted (w : LogWriter) : Bytes :=
  w.handed ++ (w.current.getD []).take w.scan.pipe.sent

/-- The writers with their lock and what is behind it. -/
structure SharedLog (ι : Type) where
  writers : ι → LogWriter := fun _ => {}
  locked : Bool := false
  -- the `Write`s on the underlying writer, and what they returned
  calls : List (ι × Bytes) := []
  results : List (Option IoErr) := []
  -- the bytes the underlying writer has taken
  dest : Bytes := []

/-- One action of a producer, a goroutine or the underlying writer. -/
inductive LogAction (ι : Type)
  | write (i : ι) (p : Bytes)
  | ret (i : ι)
  | close (i : ι)
  | scan (i : ι)
  | lock (i : ι)
  | call (i : ι)
  | take (i : ι)
  | done (i : ι) (err : Option IoErr)
  | unlock (i : ι)

section Model

variable {ι : Type} [DecidableEq ι]

/-- Writer `i` becomes `w`. -/
def SharedLog.set (s : SharedLog ι) (i : ι) (w : LogWriter) : SharedLog ι :=
  { s with writers := Function.update s.writers i w }

/-- What an action does, or `none` where it cannot happen. -/
def SharedLog.act : LogAction ι → SharedLog ι → Option (SharedLog ι)
  | .write i p, s =>
    let w := s.writers i
    match w.current with
    | none => some (s.set i { w with scan := w.scan.write p, current := some p })
    | some _ => none
  | .ret i, s =>
    let w := s.writers i
    match w.current, w.scan.writeResult with
    | some p, some (n, _) =>
      some (s.set i { w with
        scan := { w.scan with pipe := w.scan.pipe.withdraw }
        current := none
        handed := w.handed ++ p.take n })
    | _, _ => none
  | .close i, s =>
    let w := s.writers i
    some (s.set i { w with scan := { w.scan with pipe := w.scan.pipe.closeWrite } })
  | .scan i, s =>
    let w := s.writers i
    match w.scan.pc with
    -- in `writer.Write(bytes)`, the `LockingWriter`'s
    | .writing _ => none
    | _ =>
      (scanStep scanLines [newline] (fun _ _ => none) w.scan).map fun scan =>
        s.set i { w with scan := scan }
  | .lock i, s =>
    let w := s.writers i
    match w.scan.pc, w.locking with
    | .writing _, .outside =>
      if s.locked then none
      else some { s.set i { w with locking := .locked } with locked := true }
    | _, _ => none
  | .call i, s =>
    let w := s.writers i
    match w.scan.pc, w.locking with
    | .writing bytes, .locked =>
      some { s.set i { w with locking := .writing bytes } with calls := s.calls ++ [(i, bytes)] }
    | _, _ => none
  | .take i, s =>
    let w := s.writers i
    match w.locking with
    | .writing (b :: rest) =>
      some { s.set i { w with locking := .writing rest } with dest := s.dest ++ [b] }
    | _ => none
  | .done i err, s =>
    let w := s.writers i
    match w.locking, err with
    -- "Write must return a non-nil error if it returns n < len(p)"
    | .writing (_ :: _), none => none
    | .writing _, err =>
      some { s.set i { w with locking := .written err } with results := s.results ++ [err] }
    | _, _ => none
  | .unlock i, s =>
    let w := s.writers i
    match w.locking with
    | .written err =>
      (scanStep scanLines [newline] (fun _ _ => err) w.scan).map fun scan =>
        { s.set i { w with scan := scan, locking := .outside } with locked := false }
    | _ => none

variable (ι) in
/-- The runs of the `ScanningWriter`s of a `LockingWriter`. -/
def lockingWriter : System (SharedLog ι) := System.ofActions (fun s => s = {}) SharedLog.act

/-- The bytes written to the underlying writer. -/
def SharedLog.written (s : SharedLog ι) : Bytes := (s.calls.map Prod.snd).flatten

/-- What the writer `i` has written to the underlying writer. -/
def SharedLog.of (s : SharedLog ι) (i : ι) : List Bytes :=
  (s.calls.filter fun c => c.1 = i).map Prod.snd

end Model

/-! ## One writer -/

/-- The write in hand, once it is made on the underlying writer. -/
def LogWriter.inCall (w : LogWriter) : List Bytes :=
  match w.locking with
  | .writing _ | .written _ => w.scan.inHand
  | .outside | .locked => []

/-- A writer that has made the writes `mine` on the underlying writer. -/
structure LogWriter.Inv (w : LogWriter) (mine : List Bytes) : Prop where
  scanned : Scanned scanLines [newline] maxScanTokenSize w.scan w.accepted
  offer : w.scan.pipe.offer.getD [] = (w.current.getD []).drop w.scan.pipe.sent
  locking : w.locking ≠ .outside → ∃ bytes, w.scan.pc = .writing bytes
  mine : mine = w.scan.out ++ w.inCall

section Writer

variable {w : LogWriter} {mine : List Bytes}

theorem LogWriter.inv_initial : LogWriter.Inv {} [] where
  scanned := scanned_initial _ _ _
  offer := rfl
  locking h := absurd rfl h
  mine := rfl

/-- A `Write` keeps the invariant. -/
theorem LogWriter.Inv.write (h : w.Inv mine) (hcur : w.current = none) (p : Bytes) :
    LogWriter.Inv { w with scan := w.scan.write p, current := some p } mine := by
  refine ⟨?_, rfl, h.locking, h.mine⟩
  have hscan := h.scanned
  unfold LogWriter.accepted at hscan
  rw [hcur] at hscan
  simpa [LogWriter.accepted, ScanState.write] using hscan.withPipe (w.scan.pipe.offerWrite p)

theorem LogWriter.Inv.ret (h : w.Inv mine) {p : Bytes} (hcur : w.current = some p) {n : Nat}
    {err : Option IoErr} (hres : w.scan.writeResult = some (n, err)) :
    LogWriter.Inv { w with
      scan := { w.scan with pipe := w.scan.pipe.withdraw }
      current := none
      handed := w.handed ++ p.take n } mine := by
  have hn : n = w.scan.pipe.sent := by
    unfold ScanState.writeResult at hres
    split at hres
    · cases hres
      rfl
    · split at hres
      · cases hres
        rfl
      · cases hres
  refine ⟨?_, by simp, h.locking, h.mine⟩
  have hscan := h.scanned
  unfold LogWriter.accepted at hscan
  rw [hcur] at hscan
  subst hn
  simpa [LogWriter.accepted] using hscan.withPipe w.scan.pipe.withdraw

theorem LogWriter.Inv.close (h : w.Inv mine) :
    LogWriter.Inv { w with scan := { w.scan with pipe := w.scan.pipe.closeWrite } } mine :=
  ⟨h.scanned.withPipe _, h.offer, h.locking, h.mine⟩

/-- What an action of the goroutine takes from the `Write` in progress is accepted. -/
theorem LogWriter.Inv.move (h : w.Inv mine) {writer : List Bytes → Bytes → Option IoErr}
    {t : ScanState} (hst : ScanMove scanLines [newline] writer w.scan t)
    (hmine : mine = w.scan.out ++ w.scan.inHand) :
    LogWriter.Inv { w with scan := t, locking := .outside } mine := by
  obtain ⟨d, hscan, hoff, hsent, -⟩ :=
    h.scanned.move lawful_scanLines (harmless_newline maxScanTokenSize) (bounded_max scanLines) hst
  have hcur : (w.current.getD []).drop w.scan.pipe.sent = d ++ t.pipe.offer.getD [] := by
    rw [← h.offer, hoff]
  refine ⟨?_, ?_, fun hne => absurd rfl hne, ?_⟩
  · have hacc : w.handed ++ (w.current.getD []).take t.pipe.sent = w.accepted ++ d := by
      rw [hsent, List.take_add, hcur, List.take_left, ← List.append_assoc]
      rfl
    show Scanned _ _ _ t (w.handed ++ (w.current.getD []).take t.pipe.sent)
    rw [hacc]
    exact hscan
  · show t.pipe.offer.getD [] = (w.current.getD []).drop t.pipe.sent
    rw [hsent, ← List.drop_drop, hcur, List.drop_left]
  · show mine = t.out ++ []
    rw [hst.out, hmine, List.append_nil]

/-- The lines a writer has written, and the one it may be about to write, are the first ones
of what it has accepted. -/
theorem LogWriter.Inv.lines (h : w.Inv mine) :
    ∃ ls : List Bytes, ls <+: (splitLines w.accepted).map dropCR ∧
    w.scan.out ++ w.scan.inHand = ls.map (· ++ [newline]) := by
  obtain ⟨T, hout, hprog⟩ := h.scanned.taken
  have hpre := hprog.isPrefix
  rw [tokenize_scanLines] at hpre
  exact ⟨T, hpre.trans ((List.takeWhile_prefix _).map dropCR), hout⟩

/-- The goroutine goes on in `LockingWriter.Write`. -/
theorem LogWriter.Inv.go (h : w.Inv mine) {bytes : Bytes} (hpc : w.scan.pc = .writing bytes)
    (l : Locking)
    {mine' : List Bytes} (hmine : mine' = w.scan.out ++ LogWriter.inCall { w with locking := l }) :
    LogWriter.Inv { w with locking := l } mine' :=
  ⟨h.scanned, h.offer, fun _ => ⟨bytes, hpc⟩, hmine⟩

/-- What is being written is the front of what is in hand. -/
theorem LogWriter.inCall_isPrefix (w : LogWriter) : w.inCall <+: w.scan.inHand := by
  unfold LogWriter.inCall
  split
  · exact List.prefix_refl _
  · exact List.prefix_refl _
  · exact List.nil_prefix
  · exact List.nil_prefix

/-- The calls of a writer are whole lines, in the order they were accepted. -/
theorem LogWriter.Inv.mine_lines (h : w.Inv mine) : ∃ ls : List Bytes,
    ls <+: (splitLines w.accepted).map dropCR ∧ mine = ls.map (· ++ [newline]) := by
  obtain ⟨ls, hls, hout⟩ := h.lines
  have hmine : mine <+: ls.map (· ++ [newline]) := by
    rw [h.mine, ← hout, List.prefix_append_right_inj]
    exact w.inCall_isPrefix
  obtain ⟨ls', hpre, rfl⟩ := List.prefix_map_iff.mp hmine
  exact ⟨ls', hpre.trans hls, rfl⟩

end Writer

/-! ## All of them -/

section All

variable {ι : Type} [DecidableEq ι] {s t : SharedLog ι}

@[simp] theorem SharedLog.set_self (s : SharedLog ι) (i : ι) (w : LogWriter) :
    (s.set i w).writers i = w :=
  Function.update_self ..

theorem SharedLog.set_of_ne (s : SharedLog ι) {i j : ι} (h : j ≠ i) (w : LogWriter) :
    (s.set i w).writers j = s.writers j :=
  Function.update_of_ne h ..

@[simp] theorem SharedLog.set_locked (s : SharedLog ι) (i : ι) (w : LogWriter) :
    (s.set i w).locked = s.locked := rfl

@[simp] theorem SharedLog.set_calls (s : SharedLog ι) (i : ι) (w : LogWriter) :
    (s.set i w).calls = s.calls := rfl

/-- The lock is held by one writer at most, and while no `Write` on the underlying writer has
failed it has taken the bytes written to it, but for the rest of a `Write` it is in. -/
structure SharedLog.Inv (s : SharedLog ι) : Prop where
  writer : ∀ i, (s.writers i).Inv (s.of i)
  held : ∀ i, (s.writers i).locking ≠ .outside → s.locked = true
  one : ∀ i j, (s.writers i).locking ≠ .outside → (s.writers j).locking ≠ .outside → i = j
  taking : (∀ r ∈ s.results, r = none) →
    ∀ i rest, (s.writers i).locking = .writing rest → s.dest ++ rest = s.written
  taken : (∀ r ∈ s.results, r = none) →
    (∀ i rest, (s.writers i).locking ≠ .writing rest) → s.dest = s.written

theorem SharedLog.inv_initial : SharedLog.Inv (ι := ι) {} where
  writer _ := LogWriter.inv_initial
  held _ h := absurd rfl h
  one _ _ h := absurd rfl h
  taking _ _ _ h := nomatch h
  taken _ _ := rfl

/-- A step of one writer that does not touch the lock. -/
theorem SharedLog.Inv.set (h : s.Inv) {i : ι} {w : LogWriter} (hw : w.Inv (s.of i))
    (hlock : w.locking = (s.writers i).locking) : (s.set i w).Inv := by
  have hsame : ∀ j, ((s.set i w).writers j).locking = (s.writers j).locking := by
    intro j
    by_cases hj : j = i
    · subst hj
      rw [SharedLog.set_self, hlock]
    · rw [SharedLog.set_of_ne s hj]
  refine ⟨fun j => ?_, fun j hj => ?_, fun j k hj hk => ?_, fun hres j rest hj => ?_,
    fun hres hno => ?_⟩
  · by_cases hj : j = i
    · subst hj
      rw [SharedLog.set_self]
      exact hw
    · rw [SharedLog.set_of_ne s hj]
      exact h.writer j
  · rw [hsame] at hj
    exact h.held j hj
  · rw [hsame] at hj hk
    exact h.one j k hj hk
  · rw [hsame] at hj
    exact h.taking hres j rest hj
  · refine h.taken hres fun j rest hj => hno j rest ?_
    rw [hsame]
    exact hj

/-- What `dest` is, by where the writer is that may be in a `Write`. -/
def SharedLog.Taking (s : SharedLog ι) : Locking → Prop
  | .writing rest => s.dest ++ rest = s.written
  | _ => s.dest = s.written

/-- The invariant where no writer but `i` has the lock. -/
theorem SharedLog.inv_of_only {i : ι} (hwriter : ∀ j, (s.writers j).Inv (s.of j))
    (hothers : ∀ j, j ≠ i → (s.writers j).locking = .outside)
    (hheld : (s.writers i).locking ≠ .outside → s.locked = true)
    (hdest : (∀ r ∈ s.results, r = none) → s.Taking (s.writers i).locking) : s.Inv := by
  have honly : ∀ j, (s.writers j).locking ≠ .outside → j = i := by
    intro j hj
    by_contra hne
    exact hj (hothers j hne)
  refine ⟨hwriter, fun j hj => ?_, fun j k hj hk => ?_, fun hres j rest hj => ?_,
    fun hres hno => ?_⟩
  · rw [honly j hj] at hj
    exact hheld hj
  · rw [honly j hj, honly k hk]
  · have hji := honly j (by rw [hj]; exact Locking.noConfusion)
    subst hji
    have htaking := hdest hres
    rw [hj] at htaking
    exact htaking
  · have htaking := hdest hres
    unfold SharedLog.Taking at htaking
    split at htaking
    next rest hi => exact absurd hi (hno i rest)
    next => exact htaking

/-- While one writer is at the lock the others are outside. -/
theorem SharedLog.Inv.others (h : s.Inv) {i : ι} (hi : (s.writers i).locking ≠ .outside) :
    ∀ j, j ≠ i → (s.writers j).locking = .outside := by
  intro j hj
  by_contra hne
  exact hj (h.one j i hne hi)

/-- Without an error the bytes that were taken are those of the calls. -/
theorem SharedLog.Inv.dest_of_only (h : s.Inv) {i : ι}
    (hothers : ∀ j, j ≠ i → (s.writers j).locking = .outside) (hres : ∀ r ∈ s.results, r = none) :
    s.Taking (s.writers i).locking := by
  unfold SharedLog.Taking
  split
  next rest hi => exact h.taking hres i rest hi
  next hno =>
    refine h.taken hres fun j rest hj => ?_
    by_cases hji : j = i
    · subst hji
      exact hno rest hj
    · rw [hothers j hji] at hj
      cases hj

/-- The writers after a step of `i` that has made the writes `new`. -/
theorem SharedLog.Inv.writer_set (h : s.Inv) {i : ι} {w : LogWriter} {new : List Bytes}
    (hw : w.Inv (s.of i ++ new)) {t : SharedLog ι} (hset : t.writers = (s.set i w).writers)
    (hcalls : t.calls = s.calls ++ new.map (i, ·)) : ∀ j, (t.writers j).Inv (t.of j) := by
  have hof : ∀ j, t.of j = s.of j ++ if j = i then new else [] := by
    intro j
    unfold SharedLog.of
    rw [hcalls, List.filter_append, List.map_append]
    refine congrArg _ ?_
    by_cases hj : j = i
    · subst hj
      rw [if_pos rfl, List.filter_eq_self.mpr (by simp), List.map_map]
      exact List.map_id new
    · rw [if_neg hj, List.filter_eq_nil_iff.mpr (by simp [Ne.symm hj])]
      rfl
  intro j
  rw [hset, hof]
  by_cases hj : j = i
  · subst hj
    rw [if_pos rfl, SharedLog.set_self]
    exact hw
  · rw [if_neg hj, SharedLog.set_of_ne s hj, List.append_nil]
    exact h.writer j

/-- A step in `LockingWriter.Write`. -/
theorem SharedLog.Inv.inside (h : s.Inv) {i : ι}
    (hothers : ∀ j, j ≠ i → (s.writers j).locking = .outside)
    {w : LogWriter} (new : List Bytes) (hw : w.Inv (s.of i ++ new)) {t : SharedLog ι}
    (hset : t.writers = (s.set i w).writers) (hcalls : t.calls = s.calls ++ new.map (i, ·))
    (hheld : w.locking ≠ .outside → t.locked = true)
    (hdest : (∀ r ∈ t.results, r = none) → t.Taking w.locking) : t.Inv := by
  have hi : t.writers i = w := by rw [hset, SharedLog.set_self]
  refine SharedLog.inv_of_only (i := i) (h.writer_set hw hset hcalls) ?_ ?_ ?_
  · intro j hj
    rw [hset, SharedLog.set_of_ne s hj]
    exact hothers j hj
  · rw [hi]
    exact hheld
  · rw [hi]
    exact hdest

/-- A `Write` keeps the invariant. -/
theorem SharedLog.Inv.write (h : s.Inv) {i : ι} {p : Bytes}
    (hact : SharedLog.act (.write i p) s = some t) : t.Inv := by
  unfold SharedLog.act at hact
  dsimp only at hact
  split at hact
  next hcur =>
    cases hact
    exact h.set ((h.writer i).write hcur p) rfl
  next => cases hact

theorem SharedLog.Inv.ret (h : s.Inv) {i : ι} (hact : SharedLog.act (.ret i) s = some t) :
    t.Inv := by
  unfold SharedLog.act at hact
  dsimp only at hact
  split at hact
  next p n err hcur hres =>
    cases hact
    exact h.set ((h.writer i).ret hcur hres) rfl
  next => cases hact

theorem SharedLog.Inv.close (h : s.Inv) {i : ι} (hact : SharedLog.act (.close i) s = some t) :
    t.Inv := by
  cases hact
  exact h.set (h.writer i).close rfl

theorem SharedLog.Inv.scan (h : s.Inv) {i : ι} (hact : SharedLog.act (.scan i) s = some t) :
    t.Inv := by
  unfold SharedLog.act at hact
  dsimp only at hact
  split at hact
  next => cases hact
  next hpc =>
    obtain ⟨g, hst, rfl⟩ := Option.map_eq_some_iff.mp hact
    have hout : (s.writers i).locking = .outside := by
      by_contra hne
      obtain ⟨bytes, hw⟩ := (h.writer i).locking hne
      exact hpc bytes hw
    have hmine := (h.writer i).mine
    have hhand : (s.writers i).scan.inHand = [] := by
      unfold ScanState.inHand
      split
      next bytes hw => exact absurd hw (hpc bytes)
      next => rfl
    have hw := (h.writer i).move (scanStep_move hst) (by
      rw [hmine, hhand]
      unfold LogWriter.inCall
      rw [hout])
    rw [← hout] at hw
    exact h.set hw rfl

theorem SharedLog.Inv.lock (h : s.Inv) {i : ι} (hact : SharedLog.act (.lock i) s = some t) :
    t.Inv := by
  unfold SharedLog.act at hact
  dsimp only at hact
  split at hact
  next bytes hpc hout =>
    split at hact
    next => cases hact
    next hfree =>
      cases hact
      have hall : ∀ j, (s.writers j).locking = .outside := by
        intro j
        by_contra hne
        exact hfree (h.held j hne)
      have hothers : ∀ j, j ≠ i → (s.writers j).locking = .outside := fun j _ => hall j
      have hmine := (h.writer i).mine
      unfold LogWriter.inCall at hmine
      rw [hout] at hmine
      refine h.inside hothers [] ((h.writer i).go hpc .locked ?_) rfl (by simp) (fun _ => rfl) ?_
      · rw [hmine, List.append_nil]
        rfl
      · intro hres
        have hdest := h.dest_of_only hothers hres
        rw [hout] at hdest
        exact hdest
  next => cases hact

theorem SharedLog.Inv.call (h : s.Inv) {i : ι} (hact : SharedLog.act (.call i) s = some t) :
    t.Inv := by
  unfold SharedLog.act at hact
  dsimp only at hact
  split at hact
  next bytes hpc hlocked =>
    cases hact
    have hin : (s.writers i).locking ≠ .outside := by rw [hlocked]; exact Locking.noConfusion
    have hothers := h.others hin
    have hmine := (h.writer i).mine
    unfold LogWriter.inCall at hmine
    rw [hlocked, List.append_nil] at hmine
    refine h.inside hothers [bytes] ((h.writer i).go hpc (.writing bytes) ?_) rfl rfl
      (fun _ => h.held i hin) ?_
    · rw [hmine]
      show _ = _ ++ ScanState.inHand _
      unfold ScanState.inHand
      rw [hpc]
    · intro hres
      have hdest := h.dest_of_only hothers hres
      rw [hlocked] at hdest
      show s.dest ++ bytes = ((s.calls ++ [(i, bytes)]).map Prod.snd).flatten
      rw [List.map_append, List.flatten_append, show s.dest = (s.calls.map Prod.snd).flatten
        from hdest]
      simp
  next => cases hact

theorem SharedLog.Inv.take (h : s.Inv) {i : ι} (hact : SharedLog.act (.take i) s = some t) :
    t.Inv := by
  unfold SharedLog.act at hact
  dsimp only at hact
  split at hact
  next b rest hwriting =>
    cases hact
    have hin : (s.writers i).locking ≠ .outside := by rw [hwriting]; exact Locking.noConfusion
    have hothers := h.others hin
    obtain ⟨bytes, hpc⟩ := (h.writer i).locking hin
    have hmine := (h.writer i).mine
    unfold LogWriter.inCall at hmine
    rw [hwriting] at hmine
    refine h.inside hothers [] ((h.writer i).go hpc (.writing rest) ?_) rfl (by simp)
      (fun _ => h.held i hin) ?_
    · rw [hmine, List.append_nil]
      rfl
    · intro hres
      have hdest := h.dest_of_only hothers hres
      rw [hwriting] at hdest
      show s.dest ++ [b] ++ rest = s.written
      rw [List.append_assoc]
      exact hdest
  next => cases hact

theorem SharedLog.Inv.done (h : s.Inv) {i : ι} {err : Option IoErr}
    (hact : SharedLog.act (.done i err) s = some t) : t.Inv := by
  have hdone : ∃ rest, (s.writers i).locking = .writing rest ∧ (err = none → rest = []) ∧
      t = { s.set i { s.writers i with locking := .written err } with
        results := s.results ++ [err] } := by
    unfold SharedLog.act at hact
    dsimp only at hact
    split at hact
    next => cases hact
    next err rest hwriting hall =>
      refine ⟨rest, hwriting, ?_, (Option.some.inj hact).symm⟩
      rintro rfl
      cases rest with
      | nil => rfl
      | cons b rest => exact (hall b rest rfl rfl).elim
    next => cases hact
  obtain ⟨rest, hwriting, hrest, rfl⟩ := hdone
  have hin : (s.writers i).locking ≠ .outside := by rw [hwriting]; exact Locking.noConfusion
  have hothers := h.others hin
  obtain ⟨bytes, hpc⟩ := (h.writer i).locking hin
  have hmine := (h.writer i).mine
  unfold LogWriter.inCall at hmine
  rw [hwriting] at hmine
  refine h.inside hothers [] ((h.writer i).go hpc (.written err) ?_) rfl (by simp)
    (fun _ => h.held i hin) ?_
  · rw [hmine, List.append_nil]
    rfl
  · intro hres
    have hdest := h.dest_of_only hothers fun r hr => hres r (List.mem_append_left _ hr)
    rw [hwriting, hrest (hres err (by simp))] at hdest
    exact (List.append_nil _).symm.trans hdest

theorem SharedLog.Inv.unlock (h : s.Inv) {i : ι} (hact : SharedLog.act (.unlock i) s = some t) :
    t.Inv := by
  unfold SharedLog.act at hact
  dsimp only at hact
  split at hact
  next err hwritten =>
    obtain ⟨g, hst, rfl⟩ := Option.map_eq_some_iff.mp hact
    have hin : (s.writers i).locking ≠ .outside := by rw [hwritten]; exact Locking.noConfusion
    have hothers := h.others hin
    have hmine := (h.writer i).mine
    unfold LogWriter.inCall at hmine
    rw [hwritten] at hmine
    have hw := (h.writer i).move (scanStep_move hst) hmine
    rw [← List.append_nil (s.of i)] at hw
    refine h.inside hothers [] hw rfl (by simp) (fun hne => absurd rfl hne) ?_
    intro hres
    have hdest := h.dest_of_only hothers hres
    rw [hwritten] at hdest
    exact hdest
  next => cases hact

/-- **One action preserves the invariant.** -/
theorem SharedLog.Inv.act (h : s.Inv) {a : LogAction ι} (hact : SharedLog.act a s = some t) :
    t.Inv := by
  cases a with
  | write i p => exact h.write hact
  | ret i => exact h.ret hact
  | close i => exact h.close hact
  | scan i => exact h.scan hact
  | lock i => exact h.lock hact
  | call i => exact h.call hact
  | take i => exact h.take hact
  | done i err => exact h.done hact
  | unlock i => exact h.unlock hact

/-- **The invariant of every run.** -/
theorem SharedLog.inv_reachable (h : (lockingWriter ι).Reachable s) : s.Inv := by
  refine h.invariant (fun s hs => ?_) (fun s t _ hs hst => ?_)
  · rw [show s = {} from hs]
    exact SharedLog.inv_initial
  · obtain ⟨a, hact⟩ := hst
    exact hs.act hact

/-- The underlying writer was given whole lines, in one `Write` each, and from every writer the
first lines of what that has accepted. -/
def SharedLog.WholeLines (s : SharedLog ι) : Prop :=
  ∃ lines : List (ι × Bytes), (∀ l ∈ lines, newline ∉ l.2) ∧
    s.calls = lines.map (fun l => (l.1, l.2 ++ [newline])) ∧
    s.written = (lines.map fun l => l.2 ++ [newline]).flatten ∧
    ∀ i, (lines.filter fun l => l.1 = i).map Prod.snd <+:
      (splitLines (s.writers i).accepted).map dropCR

/-- Each write of one writer is a line that it has accepted. -/
theorem SharedLog.Inv.line_of_call (h : s.Inv) {c : ι × Bytes} (hc : c ∈ s.calls) :
    ∃ l, newline ∉ l ∧ c.2 = l ++ [newline] := by
  obtain ⟨ls, hls, hmine⟩ := (h.writer c.1).mine_lines
  have hmem : c.2 ∈ s.of c.1 := List.mem_map_of_mem (List.mem_filter.mpr ⟨hc, decide_eq_true rfl⟩)
  rw [hmine] at hmem
  obtain ⟨l, hl, hcl⟩ := List.mem_map.mp hmem
  obtain ⟨line, hline, rfl⟩ := List.mem_map.mp (hls.subset hl)
  refine ⟨dropCR line, ?_, hcl.symm⟩
  intro hnl
  rw [← take_dropCR line] at hnl
  exact not_mem_of_mem_splitLines hline (List.mem_of_mem_take hnl)

/-- The calls are whole lines, and those of each writer in its order. -/
theorem SharedLog.Inv.wholeLines (h : s.Inv) : s.WholeLines := by
  have hback : ∀ c ∈ s.calls, newline ∉ c.2.dropLast ∧ (c.1, c.2.dropLast ++ [newline]) = c := by
    intro c hc
    obtain ⟨l, hl, hcl⟩ := h.line_of_call hc
    rw [hcl, List.dropLast_concat, ← hcl]
    exact ⟨hl, rfl⟩
  have hcalls : s.calls = (s.calls.map fun c => (c.1, c.2.dropLast)).map fun l =>
      (l.1, l.2 ++ [newline]) := by
    rw [List.map_map]
    exact ((List.map_congr_left fun c hc => (hback c hc).2).trans (List.map_id _)).symm
  refine ⟨s.calls.map fun c => (c.1, c.2.dropLast), ?_, hcalls, ?_, fun i => ?_⟩
  · intro l hl
    obtain ⟨c, hc, rfl⟩ := List.mem_map.mp hl
    exact (hback c hc).1
  · unfold SharedLog.written
    conv_lhs => rw [hcalls]
    rw [List.map_map, List.map_map, List.map_map]
    rfl
  · obtain ⟨ls, hls, hmine⟩ := (h.writer i).mine_lines
    have heq : ((s.calls.map fun c => (c.1, c.2.dropLast)).filter fun l =>
        l.1 = i).map Prod.snd = ls := by
      have hdrop := congrArg (List.map List.dropLast) hmine
      unfold SharedLog.of at hdrop
      rw [List.map_map, List.map_map] at hdrop
      rw [List.filter_map, List.map_map]
      refine hdrop.trans ?_
      refine (List.map_congr_left fun l _ => ?_).trans (List.map_id ls)
      exact List.dropLast_concat
    rw [heq]
    exact hls

/-- **Output never interleaves within a line.** In every reachable state the underlying writer
was given whole lines, from every writer those it has accepted, in order. It has taken their
bytes one `Write` after the other, as long as none has failed. -/
theorem lockingWriter_keeps_lines (h : (lockingWriter ι).Reachable s) :
    s.WholeLines ∧ ((∀ r ∈ s.results, r = none) →
      s.dest <+: s.written ∧ (s.locked = false → s.dest = s.written)) := by
  have hinv := SharedLog.inv_reachable h
  refine ⟨hinv.wholeLines, fun hres => ?_⟩
  by_cases hw : ∃ i rest, (s.writers i).locking = .writing rest
  · obtain ⟨i, rest, hwriting⟩ := hw
    refine ⟨⟨rest, hinv.taking hres i rest hwriting⟩, fun hfree => ?_⟩
    have hheld := hinv.held i (by rw [hwriting]; exact Locking.noConfusion)
    rw [hfree] at hheld
    cases hheld
  · have hdest := hinv.taken hres fun i rest hwriting => hw ⟨i, rest, hwriting⟩
    exact ⟨⟨[], by rw [hdest, List.append_nil]⟩, fun _ => hdest⟩

end All

/-- Two writers are given "a\nb" and "c\n"; the second one's line comes first, and of the first
one's the underlying writer has taken one byte. -/
def twoWriters : List (LogAction Bool) :=
  [.write false [97, 10, 98], .write true [99, 10], .scan false, .scan true, .scan false,
    .scan true,
    .scan true, .scan false, .lock true, .call true, .take true, .take true, .done true none,
      .unlock true,
    .lock false, .call false, .take false]

theorem lockingWriter_keeps_two : ∃ s : SharedLog Bool, (lockingWriter Bool).Reachable s ∧
    s.calls = [(true, [99, 10]), (false, [97, 10])] ∧ s.dest = [99, 10, 97] ∧ s.WholeLines ∧
      ((∀ r ∈ s.results, r = none) →
      s.dest <+: s.written ∧ (s.locked = false → s.dest = s.written)) := by
  have hrun : (System.runActions SharedLog.act twoWriters {}).map (fun s => (s.calls, s.dest)) =
      some ([(true, [99, 10]), (false, [97, 10])], [99, 10, 97]) := by decide +kernel
  obtain ⟨s, hs, heq⟩ := Option.map_eq_some_iff.mp hrun
  rw [Prod.mk.injEq] at heq
  have hreach : (lockingWriter Bool).Reachable s := System.reachable_of_runActions (.start rfl) hs
  exact ⟨s, hreach, heq.1, heq.2, lockingWriter_keeps_lines hreach⟩

end ShouldIAsync.HarnessIo
