import ShouldIAsync.HarnessIo.MorphingInv
import Mathlib.Algebra.GroupWithZero.Nat

/-!
# What a `MorphingWriter` delivers

Every run of a `MorphingWriter` ends, with the caller's `Close` returned, and in
an outcome the chunks alone determine (`Outcome`): the reader forwards the first
token and its buffer, and every chunk from the cut on is given to the morphed
writer whole. So the bytes arrive unchanged, and every `Write` returns
`len(p), nil`, exactly when the cut falls between two chunks.

`switchFits` says when it does, from the chunks: the chunk that holds the first
delimiter must end within the 4096-byte block of the stream that holds the
delimiter. A longer chunk is only partly consumed when the reader closes the
pipe, and `Write` then delegates the whole chunk: the bytes the pipe had taken
arrive twice and are counted twice.
-/

namespace ShouldIAsync.HarnessIo

open ShouldIAsync.Lib ShouldIAsync.GoStd

variable {κ σ : Type} {delim : UInt8}

/-! ## Every run ends -/

/-- The actions the caller can still take. -/
def callerWeight (s : State κ σ delim) : Nat :=
  let rest := (s.todo.map fun p => p.length + 4).sum
  match s.caller with
  | .idle => 2 + rest
  | .piping _ => 4 + rest
  | .waiting _ _ => 4 + rest
  | .delegating _ _ => 3 + rest
  | .closing => 1
  | .closed | .panicked => 0

/-- The statements left to the reader goroutine. -/
def readerWeight : Reader delim → Nat
  | .readBytes _ => 8
  | .switched .closePipe _ _ => 7
  | .switched .morph _ _ => 6
  | .switched .writeToken _ _ => 5
  | .switched .writingToken _ _ => 4
  | .switched (.copyBuffered _) _ _ => 3
  | .switched (.copyingBuffered _) _ _ => 2
  | .switched (.finish _ _) _ _ => 1
  | .switched .returned _ _ => 0

/-- The measure that the caller and the reader lower with every step. -/
def weight (s : State κ σ delim) : Nat :=
  callerWeight s + s.pipe.weight + readerWeight s.reader

/-- A step of the reader makes the weight smaller. -/
theorem readerStep_weight {W : Writers κ σ} {morph : Bytes → κ} {s t : State κ σ delim}
    (hstep : readerStep W morph s = some t) : weight t < weight s := by
  unfold weight
  cases readerStep_move hstep with
  | more hr hread =>
    obtain ⟨hlt, -⟩ := Pipe.read_weight (Collecting.room_pos _) hread
    simp only [callerWeight, readerWeight, hr]
    omega
  | line hr hread =>
    obtain ⟨hlt, -⟩ := Pipe.read_weight (Collecting.room_pos _) hread
    simp only [callerWeight, readerWeight, hr]
    omega
  | noProgress hr hread =>
    obtain ⟨hlt, -⟩ := Pipe.read_weight (Collecting.room_pos _) hread
    simp only [callerWeight, readerWeight, hr]
    omega
  | eof hr => simp [callerWeight, readerWeight, hr]
  | closePipe hr => simp [callerWeight, readerWeight, Pipe.weight, hr]
  | morph hr => simp [callerWeight, readerWeight, hr]
  | skipToken hr => simp [callerWeight, readerWeight, hr]
  | writeToken hr => simp [callerWeight, readerWeight, hr]
  | tokenWritten hr => simp [callerWeight, readerWeight, hr]
  | skipBuffered hr => simp [callerWeight, readerWeight, hr]
  | copyBuffered hr => simp [callerWeight, readerWeight, hr]
  | bufferedCopied hr => simp [callerWeight, readerWeight, hr]
  | finish hr => simp [callerWeight, readerWeight, hr]

theorem callerStep_weight {W : Writers κ σ} {s t : State κ σ delim}
    (hstep : callerStep W s = some t) : weight t < weight s := by
  unfold weight
  cases callerStep_move hstep with
  | close hcall =>
    simp only [callerWeight, hcall, Pipe.weight, Pipe.closeWrite_offer]
    omega
  | refused hcall htodo =>
    simp only [callerWeight, hcall, htodo, List.map_cons, List.sum_cons]
    omega
  | offer hcall htodo =>
    simp only [callerWeight, hcall, htodo, List.map_cons, List.sum_cons, Pipe.weight,
      Pipe.offerWrite_offer, Option.elim_some]
    omega
  | piped hcall =>
    simp only [callerWeight, returnWrite, hcall]
    omega
  | withdraw hcall hoff =>
    simp only [callerWeight, hcall, Pipe.weight, hoff, Pipe.withdraw_offer, Option.elim_none,
      Option.elim_some]
    omega
  | fail hcall =>
    simp only [callerWeight, returnWrite, hcall]
    omega
  | delegate hcall =>
    simp only [callerWeight, hcall]
    omega
  | nilWriter hcall =>
    simp only [callerWeight, hcall]
    omega
  | delegated hcall =>
    simp only [callerWeight, returnWrite, hcall]
    omega
  | closed hcall =>
    simp only [callerWeight, hcall]
    omega

/-- **Every step does.** -/
theorem step_weight {W : Writers κ σ} (hW : W.Accepting) {morph : Bytes → κ}
    {chunks : List Bytes} {x : σ} {s t : State κ σ delim}
    (hstep : (morphingWriter delim W morph chunks x).step s t) : weight t < weight s := by
  rcases hstep with hr | hc | ⟨y, hb, -⟩
  · exact readerStep_weight hr
  · exact callerStep_weight hc
  · exact absurd hb (hW.background _ _)

/-! ## Where it ends -/

theorem reachable_inv {W : Writers κ σ} (hW : W.Accepting) {morph : Bytes → κ}
    {chunks : List Bytes} (hne : ∀ p ∈ chunks, p ≠ []) {x : σ} {s : State κ σ delim}
    (h : (morphingWriter delim W morph chunks x).Reachable s) : Inv morph chunks s := by
  refine h.invariant ?_ ?_
  · intro s hs
    subst hs
    exact initial_inv morph chunks x
  · intro s t _ hinv hstep
    have hacc : AcceptsIn W s := by
      intro p res _ hres
      obtain ⟨k, -, hret⟩ := Option.bind_eq_some_iff.mp hres
      rw [hW.ret] at hret
      exact (Option.some.inj hret).symm
    rcases hstep with hr | hc | ⟨y, hb, -⟩
    · exact readerStep_inv hinv hacc hr
    · exact callerStep_inv hne hinv hacc hc
    · exact absurd hb (hW.background _ _)

/-- A call is made on the writer that `morph` built. -/
theorem writer_of_inCall {morph : Bytes → κ} {chunks : List Bytes} {s : State κ σ delim}
    {p : Bytes} (h : Inv morph chunks s) (hcall : InCall s p) :
    s.writer = some (morph (firstToken delim chunks.flatten)) := by
  obtain ⟨-, h⟩ := h
  rcases hcall with ⟨rest, hr⟩ | ⟨tok, err1, hr⟩ | ⟨n, hc⟩
  · simp only [hr] at h
    obtain ⟨d, t, n, extra, hsw, -, -, -, hwr, -⟩ := h
    rw [← hsw.tok_eq]
    exact hwr (by simp) (by simp)
  · simp only [hr] at h
    obtain ⟨d, t, n, extra, hsw, -, -, -, hwr, -⟩ := h
    rw [← hsw.tok_eq]
    exact hwr (by simp) (by simp)
  · cases hr : s.reader with
    | readBytes c =>
      simp only [hr, Sending, hc, and_false] at h
    | switched stage tok rest =>
      simp only [hr, Handover, hc] at h
      obtain ⟨d, t, n', extra, hsw, -, -, hdone, hwr, -, -, -, hd, -⟩ := h
      obtain rfl := hdone.mp hd
      rw [← hsw.tok_eq]
      exact hwr (by simp) (by simp)

/-- Every call in progress can return. -/
def CallsReturn (W : Writers κ σ) (s : State κ σ delim) : Prop :=
  ∀ p, InCall s p → writerResult W s p ≠ none

/-- Where no writer fails all calls return. -/
theorem Writers.Accepting.callsReturn {W : Writers κ σ} (hW : W.Accepting) {morph : Bytes → κ}
    {chunks : List Bytes} {s : State κ σ delim} (h : Inv morph chunks s) : CallsReturn W s := by
  intro p hcall
  simp [writerResult, writer_of_inCall h hcall, hW.ret]

/-- The reader goroutine only blocks in `ReadBytes` on an open, idle pipe. -/
theorem reader_blocked {W : Writers κ σ} {morph : Bytes → κ} {chunks : List Bytes}
    {s : State κ σ delim} (hret : CallsReturn W s) (h : Inv morph chunks s)
    (hstep : readerStep W morph s = none) :
    (∃ c, s.reader = .readBytes c ∧ s.pipe.done = false ∧ s.pipe.offer = none) ∨
      ∃ tok rest, s.reader = .switched .returned tok rest := by
  obtain ⟨-, h⟩ := h
  unfold readerStep at hstep
  split at hstep
  next c hr =>
    split at hstep
    next hread => exact Or.inl ⟨c, hr, Pipe.read_blocked hread⟩
    next => split at hstep <;> cases hstep
    next => cases hstep
  next stage tok rest hr =>
    simp only [hr] at h
    obtain ⟨d, tl, n, extra, -, -, -, -, hwr, -⟩ := h
    split at hstep
    · cases hstep
    · cases hstep
    · have hw := hwr (by simp) (by simp)
      split at hstep
      · cases hstep
      · rw [callWriter_eq hw] at hstep
        cases hstep
    · exact absurd (Option.map_eq_none_iff.mp hstep) (hret tok (Or.inl ⟨rest, hr⟩))
    next err1 =>
      have hw := hwr (by simp) (by simp)
      split at hstep
      · cases hstep
      · rw [callWriter_eq hw] at hstep
        cases hstep
    next err1 =>
      exact absurd (Option.map_eq_none_iff.mp hstep) (hret rest (Or.inr (Or.inl ⟨tok, err1, hr⟩)))
    · cases hstep
    · exact Or.inr ⟨tok, rest, hr⟩

/-- How every run ends: the `Close` has returned nil, and both the results of the
`Write`s and the calls on the morphed writer follow from the cut. -/
def Outcome (morph : Bytes → κ) (chunks : List Bytes) (s : State κ σ delim) : Prop :=
  ∃ d t n tok rest, SwitchAt delim chunks d t n tok rest ∧ s.caller = .closed ∧
    s.closeResult = some none ∧ s.writer = some (morph tok) ∧ carry n t = 0 ∧
    s.results = d.map accepted ++ delegated n t ∧
    s.calls = (asWrite tok ++ asWrite rest ++ t).map (morph tok, ·)

/-- Neither goroutine can go on. -/
structure Halted (W : Writers κ σ) (morph : Bytes → κ) (s : State κ σ delim) : Prop where
  reader : readerStep W morph s = none
  caller : callerStep W s = none

/-- A run that cannot go on has halted. -/
theorem halted_of_stuck {W : Writers κ σ} {morph : Bytes → κ} {chunks : List Bytes} {x : σ}
    {s : State κ σ delim} (h : (morphingWriter delim W morph chunks x).Stuck s) :
    Halted W morph s where
  reader := by
    cases hr : readerStep W morph s with
    | none => rfl
    | some t => exact absurd (Or.inl hr) (h t)
  caller := by
    cases hc : callerStep W s with
    | none => rfl
    | some t => exact absurd (Or.inr (Or.inl hc)) (h t)

/-- Two goroutines that cannot go on, and no call that blocks: the caller is through. -/
theorem halted_outcome {W : Writers κ σ} {morph : Bytes → κ} {chunks : List Bytes}
    {s : State κ σ delim} (hret : CallsReturn W s) (h : Inv morph chunks s)
    (hhalt : Halted W morph s) : Outcome morph chunks s := by
  obtain ⟨hreader, hcaller⟩ := hhalt
  rcases reader_blocked hret h hreader with ⟨c, hr, hopen, hoff⟩ | ⟨tok, rest, hr⟩
  · -- the reader waits for the caller, and the caller is not at rest
    exfalso
    obtain ⟨-, h⟩ := h
    simp only [hr] at h
    obtain ⟨-, -, -, hsend⟩ := h
    unfold callerStep at hcaller
    unfold Sending at hsend
    split at hsend
    next hcall =>
      simp only [hcall] at hcaller
      split at hcaller
      · cases hcaller
      · rw [if_neg (by cases s.readerDone <;> simp [polled]), hopen] at hcaller
        cases hcaller
    next p hcall =>
      simp only [hcall, hoff] at hcaller
      cases hcaller
    next hcall =>
      rw [Pipe.done, hsend.2.1, Bool.or_true] at hopen
      cases hopen
    next => exact hsend
  · obtain ⟨-, h⟩ := h
    simp only [hr] at h
    obtain ⟨d, t, n, extra, hsw, -, hrc, hdone, hwr, -, hcalls, hhand⟩ := h
    have hdone : s.readerDone = true := hdone.mpr trivial
    have hw : s.writer = some (morph tok) := hwr (by simp) (by simp)
    have hpipe : s.pipe.done = true := by simp [Pipe.done, hrc.mpr (by simp)]
    unfold callerStep at hcaller
    unfold Handover at hhand
    split at hhand
    next hcall =>
      simp only [hcall] at hcaller
      split at hcaller
      · cases hcaller
      · rw [if_neg (by cases s.readerDone <;> simp [polled]), hpipe] at hcaller
        cases hcaller
    next p hcall =>
      simp only [hcall] at hcaller
      split at hcaller
      · cases hcaller
      · rw [if_pos hpipe] at hcaller
        cases hcaller
    next p m hcall =>
      simp only [hcall, if_pos hdone] at hcaller
      cases hcaller
    next p m hcall =>
      simp only [hcall] at hcaller
      exact absurd (Option.map_eq_none_iff.mp hcaller) (hret p (Or.inr (Or.inr ⟨m, hcall⟩)))
    next hcall =>
      simp only [hcall, if_pos hdone] at hcaller
      cases hcaller
    next hcall =>
      obtain ⟨rfl, hcarry, -, hres, hclose⟩ := hhand
      exact ⟨d, t, n, tok, rest, hsw, hcall, hclose, hw, hcarry, hres, hcalls⟩
    next => exact absurd hhand (by simp)

/-! ## The cut, from the chunks -/

/-- The first chunk with a delimiter ends within the buffer-sized block that
holds the delimiter; `off` is where the first chunk starts in the stream. -/
def switchFits (delim : UInt8) : Nat → List Bytes → Bool
  | _, [] => true
  | off, p :: ps =>
    match cut delim p with
    | none => switchFits delim (off + p.length) ps
    | some (line, _) => decide (off + p.length ≤ blockEnd (off + (line.length - 1)))

/-- Writes without a delimiter leave the question to those that follow. -/
theorem switchFits_append {d t : List Bytes} (hd : delim ∉ d.flatten) :
    ∀ off : Nat, switchFits delim off (d ++ t) = switchFits delim (off + d.flatten.length) t := by
  induction d with
  | nil => intro off; rfl
  | cons p ps ih =>
    intro off
    rw [List.flatten_cons, List.mem_append, not_or] at hd
    rw [List.cons_append, switchFits, cut_eq_none.mpr hd.1, ih hd.2, List.flatten_cons,
      List.length_append, Nat.add_assoc]

/-- Without a delimiter the switch fits. -/
theorem switchFits_of_not_mem {chunks : List Bytes} (h : delim ∉ chunks.flatten) :
    switchFits delim 0 chunks = true := by
  have := switchFits_append (t := []) h 0
  rw [List.append_nil] at this
  rw [this]
  rfl

/-- If the chunks up to and including the delimiter's end within its block, so
does the delimiter's own chunk. -/
theorem switchFits_of_whole {t : List Bytes} {rest : Bytes} :
    ∀ (d : List Bytes) (off : Nat) (pre : Bytes), delim ∉ pre →
      d.flatten = pre ++ delim :: rest → off + d.flatten.length ≤ blockEnd (off + pre.length) →
      switchFits delim off (d ++ t) = true := by
  intro d
  induction d with
  | nil => intro off pre _ hflat _; simp at hflat
  | cons p ps ih =>
    intro off pre hpre hflat hle
    rw [List.flatten_cons] at hflat hle
    rw [List.cons_append, switchFits]
    split
    next hcut =>
      -- the delimiter is in a later chunk
      rw [cut_eq_none] at hcut
      rcases List.append_eq_append_iff.mp hflat with ⟨m, hm, hr⟩ | ⟨m, hm, hr⟩
      · subst hm
        rw [List.mem_append, not_or] at hpre
        refine ih _ m hpre.2 hr ?_
        simp only [List.length_append] at hle
        rw [Nat.add_assoc, Nat.add_assoc]
        exact hle
      · cases m with
        | nil =>
          rw [List.append_nil] at hm
          refine ih _ [] (by simp) (by simpa using hr.symm) ?_
          simp only [List.length_append, hm] at hle
          rw [hm, Nat.add_assoc]
          exact hle
        | cons b m =>
          obtain ⟨hb, -⟩ :=
            List.cons.inj (by simpa using hr : delim :: rest = b :: (m ++ ps.flatten))
          subst hb
          exact absurd (by rw [hm]; simp) hcut
    next line rest' hcut =>
      obtain ⟨hp, pre', rfl, hpre'⟩ := cut_eq_some hcut
      have hsplit : pre' ++ delim :: (rest' ++ ps.flatten) = pre ++ delim :: rest := by
        rw [← hflat, hp]
        simp
      obtain ⟨rfl, -⟩ := first_unique hpre' hpre hsplit
      rw [decide_eq_true_eq]
      simp only [List.length_append, List.length_cons, List.length_nil, Nat.zero_add,
        Nat.add_sub_cancel] at hle ⊢
      omega

/-- The cut falls between two chunks exactly when `switchFits`. -/
theorem SwitchAt.eq_zero_iff {chunks d t : List Bytes} {n : Nat} {tok rest : Bytes}
    (h : SwitchAt delim chunks d t n tok rest) : n = 0 ↔ switchFits delim 0 chunks = true := by
  constructor
  · intro hn
    have hread := h.read
    rw [hn, List.take_zero, List.append_nil] at hread
    rcases h.stop with ⟨pre, htok, hpre, hle⟩ | ⟨htok, hrest, ht⟩
    · rw [h.chunks_eq]
      rw [hread] at hle
      have hflat : d.flatten = pre ++ delim :: rest := by
        rw [← hread, htok]
        simp
      exact switchFits_of_whole d 0 pre hpre hflat (by simpa using hle)
    · apply switchFits_of_not_mem
      rw [h.chunks_eq, ht, List.append_nil, ← hread, hrest, List.append_nil]
      exact htok
  · intro hfits
    by_contra hn
    obtain ⟨p, ps, pre, ht, hlt, hd, htok, hpre, hlen⟩ := h.mid hn
    have hread := h.read
    rw [ht, List.headD_cons] at hread
    rw [h.chunks_eq, ht, switchFits_append hd, Nat.zero_add] at hfits
    -- the delimiter is in `p`, after the chunks `d`
    obtain ⟨m, hm, hr⟩ : ∃ m, pre = d.flatten ++ m ∧ p.take n = m ++ delim :: rest := by
      have hsplit : d.flatten ++ p.take n = pre ++ delim :: rest := by
        rw [← hread, htok]
        simp
      rcases List.append_eq_append_iff.mp hsplit with ⟨m, hm, hr⟩ | ⟨m, hm, hr⟩
      · exact ⟨m, hm, hr⟩
      · cases m with
        | nil => exact ⟨[], by simpa using hm.symm, by simpa using hr.symm⟩
        | cons b m =>
          obtain ⟨hb, -⟩ :=
            List.cons.inj (by simpa using hr : delim :: rest = b :: (m ++ p.take n))
          subst hb
          exact absurd (by rw [hm]; simp) hd
    have hmem : delim ∈ p := by
      have htake : delim ∈ p.take n := by rw [hr]; simp
      exact List.mem_of_mem_take htake
    rw [switchFits] at hfits
    split at hfits
    next hcut => exact cut_eq_none.mp hcut hmem
    next line rest' hcut =>
      obtain ⟨hp, pre', rfl, hpre'⟩ := cut_eq_some hcut
      rw [hm, List.mem_append, not_or] at hpre
      have hsplit : pre' ++ delim :: rest' = m ++ delim :: (rest ++ p.drop n) := by
        rw [← List.take_append_drop n p, hr] at hp
        simpa using hp.symm
      obtain ⟨rfl, -⟩ := first_unique hpre' hpre.2 hsplit
      rw [decide_eq_true_eq] at hfits
      have hpl : (tok ++ rest).length = d.flatten.length + n := by
        rw [hread, List.length_append, List.length_take, Nat.min_eq_left (by omega)]
      rw [hpl, hm] at hlen
      simp only [List.length_append, List.length_cons, List.length_nil] at hlen hfits
      simp only [Nat.zero_add, Nat.add_sub_cancel] at hfits
      omega

/-! ## The payoff -/

/-- The contract: the caller has closed the writer, every `Write` took its chunk
and `Close` returned nil, and the one writer that `morph` built has received the
chunks' bytes. -/
def Faithful (chunks : List Bytes) (s : State κ σ delim) : Prop :=
  s.caller = .closed ∧ s.results = chunks.map accepted ∧ s.closeResult = some none ∧
    ∃ (k : κ) (writes : List Bytes), s.writer = some k ∧ s.calls = writes.map (k, ·) ∧
      writes.flatten = chunks.flatten

/-- An outcome is faithful exactly when the cut falls between two chunks. -/
theorem Outcome.faithful_iff {morph : Bytes → κ} {chunks : List Bytes} {s : State κ σ delim}
    (h : Outcome morph chunks s) : Faithful chunks s ↔ switchFits delim 0 chunks = true := by
  obtain ⟨d, t, n, tok, rest, hsw, hclosed, hclose, hw, hcarry, hres, hcalls⟩ := h
  rw [← hsw.eq_zero_iff]
  constructor
  · rintro ⟨-, hresults, -⟩
    cases t with
    | nil => exact hcarry
    | cons p ps =>
      -- the first delegated `Write` returned `n` too much
      rw [hres, hsw.chunks_eq, List.map_append] at hresults
      have htail := List.append_cancel_left hresults
      simp only [delegated, accepted, List.map_cons, List.cons.injEq, Prod.mk.injEq] at htail
      omega
  · intro hn
    refine ⟨hclosed, ?_, hclose, morph tok, _, hw, hcalls, ?_⟩
    · rw [hres, hsw.chunks_eq, hn, List.map_append]
      cases t with
      | nil => rfl
      | cons p ps => simp [delegated, accepted]
    · have hread := hsw.read
      rw [hn, List.take_zero, List.append_nil] at hread
      simp only [List.flatten_append, flatten_asWrite]
      rw [hread, hsw.chunks_eq, List.flatten_append]

/-- **Faithful exactly when the switch falls between two chunks.** For writers
that take everything: every run ends, and ends with the bytes delivered once and
in order and counted right, if and only if the chunk that holds the first
delimiter ends within the buffer-sized block that holds it. -/
theorem morphingWriter_faithful_iff (delim : UInt8) (W : Writers κ σ) (hW : W.Accepting)
    (morph : Bytes → κ) (x : σ) (chunks : List Bytes) (hne : ∀ p ∈ chunks, p ≠ []) :
    (morphingWriter delim W morph chunks x).EveryRunEnds (Faithful chunks) ↔
      switchFits delim 0 chunks = true := by
  refine System.everyRunEnds_iff wellFounded_lt weight (fun s t _ hst => step_weight hW hst) rfl ?_
  intro s hs hstuck
  have hinv := reachable_inv hW hne hs
  exact (halted_outcome (hW.callsReturn hinv) hinv (halted_of_stuck hstuck)).faithful_iff

/-- A writer that takes everything and keeps nothing. -/
def discarding : Writers Unit Unit where
  call _ _ x := x
  ret _ p _ := some (accepted p)
  background _ _ := False

theorem discarding_accepting : discarding.Accepting :=
  ⟨fun _ _ _ => rfl, fun _ _ h => h⟩

/-- Two lines written in three chunks. -/
theorem morphingWriter_faithful_lines :
    (∀ p ∈ [[97, 98], [99, newline, 100], [newline]], p ≠ ([] : Bytes)) ∧
      (morphingWriter newline discarding (fun _ => ()) [[97, 98], [99, newline, 100], [newline]]
        ()).EveryRunEnds (Faithful [[97, 98], [99, newline, 100], [newline]]) := by
  have hne : ∀ p ∈ [[97, 98], [99, newline, 100], [newline]], p ≠ ([] : Bytes) := by decide
  exact ⟨hne, (morphingWriter_faithful_iff newline discarding discarding_accepting (fun _ => ()) ()
    _ hne).mpr (by decide)⟩

/-- A newline and 4096 further bytes in one chunk: the pipe takes 4096 bytes, and
then the whole chunk is written again. -/
theorem morphingWriter_long_chunk :
    ¬ (morphingWriter newline discarding (fun _ => ())
      [newline :: List.replicate defaultBufSize 97] ()).EveryRunEnds
        (Faithful [newline :: List.replicate defaultBufSize 97]) := by
  intro h
  obtain ⟨s, hs, hstuck, -⟩ := System.exists_stuck wellFounded_lt weight
    (fun s t _ hst => step_weight discarding_accepting hst)
    (.start rfl : (morphingWriter newline discarding (fun _ => ())
      [newline :: List.replicate defaultBufSize 97] ()).Reachable _)
  have hne : ∀ p ∈ [newline :: List.replicate defaultBufSize 97], p ≠ ([] : Bytes) := by
    intro p hp
    rw [List.mem_singleton.mp hp]
    exact List.cons_ne_nil _ _
  have hinv := reachable_inv discarding_accepting hne hs
  have hout := halted_outcome (discarding_accepting.callsReturn hinv) hinv (halted_of_stuck hstuck)
  have hfits := hout.faithful_iff.mp (h.ends s hs hstuck)
  -- 4097 bytes do not fit in the first block
  rw [switchFits, cut, if_pos rfl] at hfits
  simp only [List.length_cons, List.length_replicate, List.length_nil, blockEnd,
    decide_eq_true_eq] at hfits
  simp only [Nat.zero_add, Nat.sub_self, Nat.zero_div, Nat.mul_one] at hfits
  omega

end ShouldIAsync.HarnessIo
