import ShouldIAsync.HarnessIo.MorphingMoves

/-!
# What holds in every reachable state of a `MorphingWriter`

The bytes of the chunks travel by three routes: the first token, the bytes the
reader's buffer held at the switch, and direct calls on the morphed writer. The
invariant `Inv` follows them. While the reader is in `ReadBytes`, what it has
seen is exactly what the caller's returned and current `Write`s have handed over
(`Sending`). From the moment `ReadBytes` returns, the way the chunks were cut is
fixed: `SwitchAt delim chunks d t n` says that the chunks `d` had gone through
the pipe whole and that `n` bytes of the first chunk of `t` had gone through
with them. `Handover` is where the caller stands relative to that cut.

The cut is the heart of the matter: `writeDelegate(p)` is given the *whole*
chunk `p`, also when the pipe had already taken `n` bytes of it. `delegated` is
what the `Write`s return from there on.
-/

namespace ShouldIAsync.HarnessIo

open ShouldIAsync.Lib ShouldIAsync.GoStd

variable {κ σ : Type} {delim : UInt8}

/-- The `Write` made for a piece of the stream: none for an empty piece. -/
def asWrite (p : Bytes) : List Bytes := if p = [] then [] else [p]

@[simp] theorem flatten_asWrite (p : Bytes) : (asWrite p).flatten = p := by
  unfold asWrite
  split
  next h => rw [h]; rfl
  next => simp

theorem asWrite_of_ne_nil {p : Bytes} (hp : p ≠ []) : asWrite p = [p] := if_neg hp

/-- The calls the reader goroutine has made at each stage. -/
def Stage.calls (tok rest : Bytes) : Stage → List Bytes
  | .closePipe | .morph | .writeToken => []
  | .writingToken | .copyBuffered _ => asWrite tok
  | .copyingBuffered _ | .finish _ _ | .returned => asWrite tok ++ asWrite rest

/-- No writer has failed so far. -/
def Stage.clean : Stage → Prop
  | .copyBuffered err1 | .copyingBuffered err1 => err1 = none
  | .finish err1 err2 => err1 = none ∧ err2 = none
  | _ => True

/-- The reader has its writer, and is not done. -/
def Stage.working : Stage → Prop
  | .closePipe | .morph | .returned => False
  | _ => True

/-- A stage at work is past the switch and has not returned. -/
theorem Stage.working.ne {stage : Stage} (h : stage.working) :
    stage ≠ .closePipe ∧ stage ≠ .morph ∧ stage ≠ .returned := by
  refine ⟨?_, ?_, ?_⟩
  · rintro rfl
    exact h
  · rintro rfl
    exact h
  · rintro rfl
    exact h

/-- The `ReadBytes` of the reader ended with the chunks `d` through the pipe, and
`n` bytes of the first chunk of `t`. It ended at the delimiter, within the block
that holds it, or at the end of the stream; it ended with the chunk that brought
the delimiter, and left part of that chunk behind only by filling the buffer. -/
structure SwitchAt (delim : UInt8) (chunks d t : List Bytes) (n : Nat) (tok rest : Bytes) :
    Prop where
  chunks_eq : chunks = d ++ t
  read : tok ++ rest = d.flatten ++ (t.headD []).take n
  stop : (∃ pre, tok = pre ++ [delim] ∧ delim ∉ pre ∧ (tok ++ rest).length ≤ blockEnd pre.length) ∨
    (delim ∉ tok ∧ rest = [] ∧ t = [])
  mid : n ≠ 0 → ∃ p ps pre, t = p :: ps ∧ n < p.length ∧ delim ∉ d.flatten ∧
    tok = pre ++ [delim] ∧ delim ∉ pre ∧ (tok ++ rest).length = blockEnd pre.length
  last : n = 0 → delim ∈ tok → ∃ d' p, d = d' ++ [p] ∧ delim ∉ d'.flatten

/-- What a `ReadBytes(delim)` over the whole stream returns. -/
def firstToken (delim : UInt8) (stream : Bytes) : Bytes :=
  match cut delim stream with
  | some (line, _) => line
  | none => stream

/-- The token is the stream's first, however the stream was cut into chunks. -/
theorem SwitchAt.tok_eq {chunks d t : List Bytes} {n : Nat} {tok rest : Bytes}
    (h : SwitchAt delim chunks d t n tok rest) : tok = firstToken delim chunks.flatten := by
  rcases h.stop with ⟨pre, htok, hpre, -⟩ | ⟨htok, hrest, ht⟩
  · have hstream : chunks.flatten =
        pre ++ delim :: (rest ++ ((t.headD []).drop n ++ t.tail.flatten)) := by
      calc chunks.flatten = d.flatten ++ t.flatten := by rw [h.chunks_eq, List.flatten_append]
        _ = d.flatten ++ ((t.headD []).take n ++ ((t.headD []).drop n ++ t.tail.flatten)) := by
          cases t with
          | nil => simp
          | cons p ps =>
            rw [← List.append_assoc (List.take n _), List.headD_cons, List.take_append_drop]
            rfl
        _ = tok ++ rest ++ ((t.headD []).drop n ++ t.tail.flatten) := by
          rw [h.read, List.append_assoc]
        _ = _ := by
          rw [htok]
          simp
    rw [firstToken, hstream, cut_first hpre, htok]
  · have hstream : chunks.flatten = tok := by
      have hread := h.read
      rw [hrest, ht, List.headD_nil, List.take_nil, List.append_nil, List.append_nil] at hread
      rw [h.chunks_eq, ht, List.append_nil, hread]
    rw [firstToken, hstream, cut_eq_none.mpr htok]

/-- What the delegated `Write`s return: the first one adds the `n` bytes that
the pipe had taken of its chunk. -/
def delegated (n : Nat) : List Bytes → List WriteResult
  | [] => []
  | p :: ps => (n + p.length, none) :: ps.map accepted

/-- The bytes of the next delegated chunk that the pipe has already taken. -/
def carry (n : Nat) (deleg : List Bytes) : Nat := if deleg = [] then n else 0

theorem delegated_snoc (n : Nat) (deleg : List Bytes) (p : Bytes) :
    delegated n (deleg ++ [p]) = delegated n deleg ++ [(carry n deleg + p.length, none)] := by
  cases deleg with
  | nil => rfl
  | cons q qs => simp [delegated, carry, accepted]

@[simp] theorem carry_snoc (n : Nat) (deleg : List Bytes) (p : Bytes) :
    carry n (deleg ++ [p]) = 0 := by simp [carry]

@[simp] theorem carry_nil (n : Nat) : carry n [] = n := rfl

/-- The caller while the reader is still in `ReadBytes`: `consumed` is what has
gone through the pipe. -/
def Sending (chunks : List Bytes) (s : State κ σ delim) (consumed : Bytes) : Prop :=
  match s.caller with
  | .idle => s.pipe.offer = none ∧ s.pipe.writeClosed = false ∧
      ∃ d, chunks = d ++ s.todo ∧ s.results = d.map accepted ∧ consumed = d.flatten
  | .piping p => s.pipe.writeClosed = false ∧
      ∃ d, chunks = d ++ p :: s.todo ∧ s.results = d.map accepted ∧
        consumed = d.flatten ++ p.take s.pipe.sent ∧
        match s.pipe.offer with
        | none => s.pipe.sent = p.length
        | some b => b = p.drop s.pipe.sent ∧ s.pipe.sent < p.length
  | .closing => s.pipe.offer = none ∧ s.pipe.writeClosed = true ∧ s.todo = [] ∧
      s.results = chunks.map accepted ∧ consumed = chunks.flatten
  | _ => False

/-- The caller once the cut `d`, `t`, `n` is fixed; `extra` is what it has called
the morphed writer with. -/
def Handover (d t : List Bytes) (n : Nat) (s : State κ σ delim) (extra : List Bytes) : Prop :=
  match s.caller with
  | .idle => s.pipe.offer = none ∧ t = extra ++ s.todo ∧ carry n extra = 0 ∧
      s.results = d.map accepted ++ delegated n extra
  | .piping p => extra = [] ∧
      match s.pipe.offer with
      | none => n = 0 ∧ t = s.todo ∧ s.pipe.sent = p.length ∧
          ∃ d', d = d' ++ [p] ∧ s.results = d'.map accepted
      | some _ => t = p :: s.todo ∧ s.pipe.sent = n ∧ s.results = d.map accepted
  | .waiting p m => s.pipe.offer = none ∧ m = carry n extra ∧ t = extra ++ p :: s.todo ∧
      s.results = d.map accepted ++ delegated n extra
  | .delegating p m => s.pipe.offer = none ∧ s.readerDone = true ∧
      ∃ deleg, extra = deleg ++ [p] ∧ m = carry n deleg ∧ t = extra ++ s.todo ∧
        s.results = d.map accepted ++ delegated n deleg
  | .closing => s.pipe.offer = none ∧ s.todo = [] ∧ t = extra ∧ carry n extra = 0 ∧
      s.results = d.map accepted ++ delegated n extra
  | .closed => t = extra ∧ carry n extra = 0 ∧ s.readerDone = true ∧
      s.results = d.map accepted ++ delegated n extra ∧ s.closeResult = some none
  | .panicked => False

/-- The invariant of a run over writers that take everything. -/
def Inv (morph : Bytes → κ) (chunks : List Bytes) (s : State κ σ delim) : Prop :=
  s.readerErr = none ∧
  match s.reader with
  | .readBytes c => s.pipe.readClosed = false ∧ s.readerDone = false ∧ s.calls = [] ∧
      Sending chunks s c.seen
  | .switched stage tok rest => ∃ d t n extra, SwitchAt delim chunks d t n tok rest ∧
      stage.clean ∧
      (s.pipe.readClosed = true ↔ stage ≠ .closePipe) ∧
      (s.readerDone = true ↔ stage = .returned) ∧
      (stage ≠ .closePipe → stage ≠ .morph → s.writer = some (morph tok)) ∧
      (stage ≠ .returned → extra = []) ∧
      s.calls = (stage.calls tok rest ++ extra).map (morph tok, ·) ∧
      Handover d t n s extra

/-- A `Write(p)` on the morphed writer is in progress. -/
def InCall (s : State κ σ delim) (p : Bytes) : Prop :=
  (∃ rest, s.reader = .switched .writingToken p rest) ∨
    (∃ tok err1, s.reader = .switched (.copyingBuffered err1) tok p) ∨
    ∃ n, s.caller = .delegating p n

/-- The call in progress, if any, can only return that it took everything. -/
def AcceptsIn (W : Writers κ σ) (s : State κ σ delim) : Prop :=
  ∀ p res, InCall s p → writerResult W s p = some res → res = accepted p

theorem callWriter_eq {W : Writers κ σ} {s : State κ σ delim} {k : κ} (hw : s.writer = some k)
    (p : Bytes) : callWriter W s p =
      some { s with behind := W.call k p s.behind, calls := s.calls ++ [(k, p)] } := by
  unfold callWriter
  rw [hw]
  rfl

/-! ## The initial state -/

theorem initial_inv (morph : Bytes → κ) (chunks : List Bytes) (x : σ) :
    Inv morph chunks (initial delim chunks x) := by
  refine ⟨rfl, rfl, rfl, rfl, rfl, rfl, [], rfl, rfl, rfl⟩

/-! ## The reader goroutine -/

/-- A read of the pipe while the reader collects: the caller's `Write` has handed
over the bytes read. -/
theorem sending_read {chunks : List Bytes} {s : State κ σ delim} {consumed d : Bytes} {room : Nat}
    {pipe : Pipe} (hroom : 0 < room) (h : Sending chunks s consumed)
    (hread : s.pipe.read room = .data d pipe) :
    d ≠ [] ∧ ∀ r : Reader delim, Sending chunks { s with pipe := pipe, reader := r }
      (consumed ++ d) := by
  obtain ⟨hdone, b, hb, rfl, hoffer, hsent, hrc, hwc⟩ := Pipe.read_data hread
  unfold Sending at h
  split at h
  next hcall =>
    rw [hb] at h
    exact absurd h.1 (by simp)
  next p hcall =>
    obtain ⟨hw, d', hchunks, hres, hcons, hrest⟩ := h
    rw [hb] at hrest
    obtain ⟨hbp, hlt⟩ := hrest
    have hbne : b ≠ [] := by
      intro he
      rw [he] at hbp
      have := congrArg List.length hbp
      simp at this
      omega
    have htake : b.take room ≠ [] := by
      intro he
      rcases List.take_eq_nil_iff.mp he with h0 | h0
      · omega
      · exact hbne h0
    have hlen : b.length = p.length - s.pipe.sent := by rw [hbp, List.length_drop]
    refine ⟨htake, fun r => ?_⟩
    show Sending chunks _ _
    simp only [Sending, hcall]
    refine ⟨by rw [hwc]; exact hw, d', hchunks, hres, ?_, ?_⟩
    · rw [hcons, hsent, List.append_assoc]
      congr 1
      rw [List.length_take, hbp, List.length_drop, List.take_add]
      congr 1
      rcases Nat.le_total room (p.length - s.pipe.sent) with hle | hge
      · rw [Nat.min_eq_left hle]
      · rw [Nat.min_eq_right hge, List.take_of_length_le (by rw [List.length_drop]; exact hge),
          List.take_of_length_le (by rw [List.length_drop])]
    · rw [hoffer]
      rw [hsent, List.length_take]
      by_cases hdrop : b.drop room = []
      · rw [if_pos hdrop]
        rw [List.drop_eq_nil_iff] at hdrop
        show s.pipe.sent + min room b.length = p.length
        omega
      · rw [if_neg hdrop]
        rw [List.drop_eq_nil_iff] at hdrop
        show b.drop room = p.drop (s.pipe.sent + min room b.length) ∧ _
        refine ⟨?_, by omega⟩
        rw [Nat.min_eq_left (by omega), hbp, List.drop_drop]
  next hcall =>
    rw [hb] at h
    exact absurd h.1 (by simp)
  next => exact absurd h (by simp)

/-- The caller's position turned into a cut, at the moment `ReadBytes` returns. -/
theorem handover_of_sending {chunks : List Bytes} {s : State κ σ delim} {tok rest : Bytes}
    (h : Sending chunks s (tok ++ rest)) (r : Reader delim) :
    ∃ d t n, chunks = d ++ t ∧ tok ++ rest = d.flatten ++ (t.headD []).take n ∧
      (n ≠ 0 → ∃ p, s.caller = .piping p ∧ s.pipe.offer = some (p.drop n) ∧ s.pipe.sent = n ∧
        n < p.length ∧ t = p :: s.todo) ∧
      (s.pipe.writeClosed = true → t = []) ∧
      Handover d t n { s with reader := r } [] := by
  unfold Sending at h
  split at h
  next hcall =>
    obtain ⟨hoff, hw, d, hchunks, hres, hcons⟩ := h
    refine ⟨d, s.todo, 0, hchunks, by simpa using hcons, fun h0 => absurd rfl h0,
      fun hwc => absurd hwc (by simp [hw]), ?_⟩
    simp only [Handover, hcall]
    exact ⟨hoff, rfl, rfl, by simpa [delegated] using hres⟩
  next p hcall =>
    obtain ⟨hw, d, hchunks, hres, hcons, hrest⟩ := h
    cases hoff : s.pipe.offer with
    | none =>
      rw [hoff] at hrest
      have hsent : s.pipe.sent = p.length := hrest
      refine ⟨d ++ [p], s.todo, 0, by simpa using hchunks, ?_, fun h0 => absurd rfl h0,
        fun hwc => absurd hwc (by simp [hw]), ?_⟩
      · rw [hcons, hsent]
        simp
      · simp only [Handover, hcall, hoff]
        exact ⟨trivial, trivial, trivial, hsent, d, rfl, hres⟩
    | some b =>
      rw [hoff] at hrest
      obtain ⟨hb, hlt⟩ : b = p.drop s.pipe.sent ∧ s.pipe.sent < p.length := hrest
      refine ⟨d, p :: s.todo, s.pipe.sent, hchunks, by simpa using hcons,
        fun _ => ⟨p, hcall, by rw [hb], rfl, hlt, rfl⟩, fun hwc => absurd hwc (by simp [hw]), ?_⟩
      simp only [Handover, hcall, hoff]
      exact ⟨trivial, trivial, trivial, hres⟩
  next hcall =>
    obtain ⟨hoff, hw, htodo, hres, hcons⟩ := h
    refine ⟨chunks, [], 0, by simp, by simpa using hcons, fun h0 => absurd rfl h0, fun _ => rfl, ?_⟩
    simp only [Handover, hcall]
    exact ⟨hoff, htodo, trivial, rfl, by simpa [delegated] using hres⟩
  next => exact absurd h (by simp)

/-- `Handover` looks at the caller's side of the state only. -/
theorem Handover.congr {d t : List Bytes} {n : Nat} {extra : List Bytes} {s s' : State κ σ delim}
    (h : Handover d t n s extra) (hcaller : s'.caller = s.caller)
    (hoffer : s'.pipe.offer = s.pipe.offer) (hsent : s'.pipe.sent = s.pipe.sent)
    (htodo : s'.todo = s.todo) (hresults : s'.results = s.results)
    (hclose : s'.closeResult = s.closeResult)
    (hdone : s.readerDone = true → s'.readerDone = true) : Handover d t n s' extra := by
  unfold Handover at h ⊢
  rw [hcaller, hoffer, hsent, htodo, hresults, hclose]
  split at h
  · exact h
  · exact h
  · exact h
  next p m hcall => exact ⟨h.1, hdone h.2.1, h.2.2⟩
  · exact h
  next hcall => exact ⟨h.1, h.2.1, hdone h.2.2.1, h.2.2.2⟩
  · exact h

/-- The chunk a read takes from; the chunks before it had gone through. -/
theorem sending_chunk {chunks : List Bytes} {s : State κ σ delim} {c : Collecting delim} {d : Bytes}
    {pipe : Pipe} (h : Sending chunks s c.seen) (hread : s.pipe.read c.room = .data d pipe) :
    ∃ p, s.caller = .piping p ∧ ∃ d₁, chunks = d₁ ++ p :: s.todo ∧ delim ∉ d₁.flatten := by
  obtain ⟨-, b, hb, -⟩ := Pipe.read_data hread
  unfold Sending at h
  split at h
  next hcall =>
    rw [hb] at h
    exact absurd h.1 (by simp)
  next p hcall =>
    obtain ⟨-, d₁, hchunks, -, hseen, -⟩ := h
    refine ⟨p, hcall, d₁, hchunks, fun hmem => c.noDelim ?_⟩
    show delim ∈ c.seen
    rw [hseen]
    exact List.mem_append_left _ hmem
  next hcall =>
    rw [hb] at h
    exact absurd h.1 (by simp)
  next => exact absurd h (by simp)

/-- `ReadBytes` returns the first token: the cut it leaves. -/
theorem switch_at_line {chunks : List Bytes} {s : State κ σ delim} {c : Collecting delim}
    {d tok rest : Bytes} {pipe : Pipe} {hd : d.length ≤ c.room}
    {hrest : rest.length ≤ defaultBufSize} (h : Sending chunks s c.seen)
    (hread : s.pipe.read c.room = .data d pipe) (hline : c.absorb d hd = .line tok rest hrest)
    (r : Reader delim) :
    ∃ dn t n, SwitchAt delim chunks dn t n tok rest ∧
      Handover dn t n { s with pipe := pipe, reader := r } [] := by
  obtain ⟨hsplit, pre, htok, hpre, hge, hle, hfill⟩ := Collecting.absorb_line hline
  obtain ⟨-, hsend⟩ := sending_read c.room_pos h hread
  have hsend' : Sending chunks { s with pipe := pipe, reader := r } (tok ++ rest) := by
    rw [hsplit]; exact hsend r
  obtain ⟨dn, t, n, hchunks, hcons, hmid, -, hhand⟩ := handover_of_sending hsend' r
  -- the chunks before the current one had gone through before this read
  obtain ⟨p, hcall, d₁, hchunks₁, hd₁⟩ := sending_chunk h hread
  refine ⟨dn, t, n, ⟨hchunks, hcons, Or.inl ⟨pre, htok, hpre, by rw [hsplit]; exact hle⟩, ?_, ?_⟩,
    hhand⟩
  · intro hn
    obtain ⟨p', hcall', hoff, hsent, hlt, ht⟩ := hmid hn
    obtain rfl : p' = p := by
      have hcall'' : s.caller = .piping p' := hcall'
      rw [hcall] at hcall''
      cases hcall''
      rfl
    refine ⟨p', s.todo, pre, ht, hlt, ?_, htok, hpre, ?_⟩
    · have hdn : dn = d₁ := by
        rw [hchunks₁, ht] at hchunks
        exact (List.append_cancel_right hchunks).symm
      rw [hdn]
      exact hd₁
    -- part of the chunk is left, so the read filled the buffer
    · obtain ⟨-, b, hb, rfl, hoffer, -, -, -⟩ := Pipe.read_data hread
      rw [hsplit]
      apply hfill
      rw [show pipe.offer = some (p'.drop n) from hoff] at hoffer
      split at hoffer
      · cases hoffer
      next hdrop =>
        rw [List.drop_eq_nil_iff, Nat.not_le] at hdrop
        rw [List.length_take, Nat.min_eq_left (by omega)]
  · intro hn _
    simp only [Handover, hcall] at hhand
    obtain ⟨-, hhand⟩ := hhand
    cases hoff : pipe.offer with
    | none =>
      rw [hoff] at hhand
      obtain ⟨-, ht, -, d', hd', -⟩ := hhand
      refine ⟨d', p, hd', ?_⟩
      have heq : d' = d₁ := by
        rw [hd', ht, hchunks₁, List.append_assoc] at hchunks
        exact (List.append_cancel_right hchunks).symm
      rw [heq]
      exact hd₁
    | some b =>
      rw [hoff] at hhand
      obtain ⟨-, -, -, -, -, hsent, -⟩ := Pipe.read_data hread
      have hpos := List.length_pos_iff.mpr (sending_read c.room_pos h hread).1
      have := hhand.2.1
      omega

/-- `ReadBytes` sees the end of the stream: everything has gone through. -/
theorem switch_at_eof {chunks : List Bytes} {s : State κ σ delim} {c : Collecting delim}
    {e : PipeError} (hrc : s.pipe.readClosed = false) (h : Sending chunks s c.seen)
    (hread : s.pipe.read c.room = .closed e) (r : Reader delim) :
    ∃ d t n, SwitchAt delim chunks d t n c.seen [] ∧ Handover d t n { s with reader := r } [] := by
  have hsend : Sending chunks s (c.seen ++ []) := by rw [List.append_nil]; exact h
  obtain ⟨d, t, n, hchunks, hcons, hmid, hend, hhand⟩ := handover_of_sending hsend r
  have hwc : s.pipe.writeClosed = true := by
    have hdone := (Pipe.read_closed hread).1
    simpa [Pipe.done, hrc] using hdone
  have ht := hend hwc
  refine ⟨d, t, n, ⟨hchunks, hcons, Or.inr ⟨c.noDelim, rfl, ht⟩, ?_, ?_⟩, hhand⟩
  · intro hn
    obtain ⟨p, -, -, -, -, htp⟩ := hmid hn
    rw [ht] at htp
    exact absurd htp (by simp)
  · intro _ hmem
    exact absurd hmem c.noDelim

/-- `ReadBytes` returns. -/
theorem inv_switch {morph : Bytes → κ} {chunks : List Bytes} {s : State κ σ delim}
    {tok rest : Bytes} {pipe : Pipe} {d t : List Bytes} {n : Nat} (herr : s.readerErr = none)
    (hrc : pipe.readClosed = false) (hdone : s.readerDone = false) (hcalls : s.calls = [])
    (hsw : SwitchAt delim chunks d t n tok rest)
    (hhand : Handover d t n
      ({ s with pipe := pipe, reader := .switched .closePipe tok rest } : State κ σ delim) []) :
    Inv morph chunks
      ({ s with pipe := pipe, reader := .switched .closePipe tok rest } : State κ σ delim) := by
  refine ⟨herr, d, t, n, [], hsw, trivial, ?_, ?_, fun h => (h rfl).elim, fun _ => rfl,
    hcalls, hhand⟩
  · exact iff_of_false (ne_true_of_eq_false hrc) fun h => h rfl
  · exact iff_of_false (ne_true_of_eq_false hdone) Stage.noConfusion

/-- From there to the end the stage moves on, and calls are made; the rest stays. -/
theorem Inv.stage {morph : Bytes → κ} {chunks : List Bytes} {s : State κ σ delim} {stage : Stage}
    {tok rest : Bytes} (h : Inv morph chunks s) (hr : s.reader = .switched stage tok rest)
    (stage' : Stage) (hworking : stage.working) (hworking' : stage'.working)
    (hclean : stage.clean → stage'.clean) (x : σ) {calls : List (κ × Bytes)}
    (hcalls : s.calls = (stage.calls tok rest).map (morph tok, ·) →
      calls = (stage'.calls tok rest).map (morph tok, ·)) :
    Inv morph chunks
      ({ s with behind := x, calls := calls, reader := .switched stage' tok rest } :
        State κ σ delim) := by
  obtain ⟨herr, h⟩ := h
  simp only [hr] at h
  obtain ⟨d, tl, n, extra, hsw, hclean', hrc, hdone, hwr, hextra, hcalls', hhand⟩ := h
  obtain ⟨hclosed, hmorphed, hreturned⟩ := hworking.ne
  obtain ⟨hclosed', -, hreturned'⟩ := hworking'.ne
  obtain rfl := hextra hreturned
  refine ⟨herr, d, tl, n, [], hsw, hclean hclean', iff_of_true (hrc.mpr hclosed) hclosed',
    iff_of_false (mt hdone.mp hreturned) hreturned', fun _ _ =>
      hwr hclosed hmorphed, fun _ => rfl, ?_,
    hhand.congr rfl rfl rfl rfl rfl rfl id⟩
  rw [List.append_nil] at hcalls' ⊢
  exact hcalls hcalls'

/-- The writer is the one that the token gives. -/
theorem Inv.writer {morph : Bytes → κ} {chunks : List Bytes} {s : State κ σ delim} {stage : Stage}
    {tok rest : Bytes} {k : κ} (h : Inv morph chunks s) (hr : s.reader = .switched stage tok rest)
    (hworking : stage.working) (hw : s.writer = some k) : k = morph tok := by
  obtain ⟨-, h⟩ := h
  simp only [hr] at h
  obtain ⟨-, -, -, -, -, -, -, -, hwr, -⟩ := h
  obtain ⟨hclosed, hmorphed, -⟩ := hworking.ne
  exact Option.some.inj (hw.symm.trans (hwr hclosed hmorphed))

/-- **One step of the reader goroutine preserves the invariant**, provided the
writers take everything. -/
theorem readerStep_inv {W : Writers κ σ} {morph : Bytes → κ} {chunks : List Bytes}
    {s t : State κ σ delim} (h : Inv morph chunks s) (hacc : AcceptsIn W s)
    (hstep : readerStep W morph s = some t) : Inv morph chunks t := by
  cases readerStep_move hstep with
  | more hr hread hmore =>
    obtain ⟨herr, h⟩ := h
    simp only [hr] at h
    obtain ⟨hrc, hdone, hcalls, hsend⟩ := h
    obtain ⟨-, -, -, -, -, -, hrc', -⟩ := Pipe.read_data hread
    refine ⟨herr, hrc'.trans hrc, hdone, hcalls, ?_⟩
    rw [Collecting.absorb_more hmore]
    exact (sending_read (Collecting.room_pos _) hsend hread).2 _
  | line hr hread hline =>
    obtain ⟨herr, h⟩ := h
    simp only [hr] at h
    obtain ⟨hrc, hdone, hcalls, hsend⟩ := h
    obtain ⟨-, -, -, -, -, -, hrc', -⟩ := Pipe.read_data hread
    obtain ⟨d, t, n, hsw, hhand⟩ := switch_at_line hsend hread hline _
    exact inv_switch herr (hrc'.trans hrc) hdone hcalls hsw hhand
  | noProgress hr hread hnone =>
    obtain ⟨-, h⟩ := h
    simp only [hr] at h
    obtain ⟨-, -, -, hsend⟩ := h
    exact (Collecting.absorb_ne_noProgress (sending_read (Collecting.room_pos _) hsend hread).1
      hnone).elim
  | eof hr hread =>
    obtain ⟨herr, h⟩ := h
    simp only [hr] at h
    obtain ⟨hrc, hdone, hcalls, hsend⟩ := h
    obtain ⟨d, t, n, hsw, hhand⟩ := switch_at_eof hrc hsend hread _
    exact inv_switch herr hrc hdone hcalls hsw hhand
  | closePipe hr =>
    obtain ⟨herr, h⟩ := h
    simp only [hr] at h
    obtain ⟨d, tl, n, extra, hsw, hclean, hrc, hdone, hwr, hextra, hcalls, hhand⟩ := h
    refine ⟨herr, d, tl, n, extra, hsw, trivial, by simp, by simpa using hdone, ?_, ?_,
      hcalls, hhand.congr rfl rfl rfl rfl rfl rfl id⟩
    · intro _ hmorph
      exact (hmorph rfl).elim
    · exact fun _ => hextra Stage.noConfusion
  | morph hr =>
    obtain ⟨herr, h⟩ := h
    simp only [hr] at h
    obtain ⟨d, tl, n, extra, hsw, hclean, hrc, hdone, hwr, hextra, hcalls, hhand⟩ := h
    exact ⟨herr, d, tl, n, extra, hsw, trivial, by simpa using hrc, by simpa using hdone,
      fun _ _ => rfl, fun _ => hextra Stage.noConfusion, hcalls,
        hhand.congr rfl rfl rfl rfl rfl rfl id⟩
  | skipToken hr => exact h.stage hr (.copyBuffered none) trivial trivial (fun _ => rfl) _ id
  | writeToken hr htok hw =>
    obtain rfl := h.writer hr trivial hw
    refine h.stage hr .writingToken trivial trivial id _ fun hcalls => ?_
    rw [hcalls, Stage.calls, Stage.calls, asWrite_of_ne_nil htok]
    rfl
  | tokenWritten hr hres =>
    obtain rfl := hacc _ _ (Or.inl ⟨_, hr⟩) hres
    exact h.stage hr (.copyBuffered none) trivial trivial (fun _ => rfl) _ id
  | @skipBuffered _ err1 hr =>
    refine h.stage hr (.finish err1 none) trivial trivial (fun hclean =>
      ⟨hclean, rfl⟩) _ fun hcalls => ?_
    rw [hcalls, Stage.calls, Stage.calls, asWrite, asWrite, if_pos rfl, List.append_nil]
  | @copyBuffered _ _ err1 _ hr hrest hw =>
    obtain rfl := h.writer hr trivial hw
    refine h.stage hr (.copyingBuffered err1) trivial trivial id _ fun hcalls => ?_
    rw [hcalls, Stage.calls, Stage.calls, asWrite_of_ne_nil hrest, List.map_append]
    rfl
  | @bufferedCopied _ rest err1 _ hr hres =>
    obtain rfl := hacc _ _ (Or.inr (Or.inl ⟨_, _, hr⟩)) hres
    exact h.stage hr (.finish err1 (copyNError rest.length (accepted rest))) trivial trivial
      (fun hclean => ⟨hclean, by simp [copyNError, accepted]⟩) _ id
  | finish hr =>
    -- `close(w.readerDone)`
    obtain ⟨herr, h⟩ := h
    simp only [hr] at h
    obtain ⟨d, tl, n, extra, hsw, ⟨rfl, rfl⟩, hrc, hdone, hwr, hextra, hcalls, hhand⟩ := h
    refine ⟨?_, d, tl, n, extra, hsw, trivial, by simpa using hrc, by simp,
      fun _ _ => hwr Stage.noConfusion Stage.noConfusion, fun _ => hextra Stage.noConfusion, hcalls,
      hhand.congr rfl rfl rfl rfl rfl rfl fun _ => rfl⟩
    show Error.joinAll [s.readerErr, _, _] = none
    rw [herr]
    rfl

/-! ## The caller -/

/-- One step of the caller while the reader is in `ReadBytes`. -/
theorem sending_callerStep {W : Writers κ σ} {chunks : List Bytes} {s t : State κ σ delim}
    {consumed : Bytes} (hne : ∀ p ∈ chunks, p ≠ []) (hrc : s.pipe.readClosed = false)
    (hdone : s.readerDone = false) (h : Sending chunks s consumed)
    (hstep : callerStep W s = some t) :
    Sending chunks t consumed ∧ t.pipe.readClosed = false ∧ t.readerDone = false ∧
      t.reader = s.reader ∧ t.calls = s.calls ∧ t.readerErr = s.readerErr := by
  have hpipe : ∀ p todo, s.caller = .idle → s.todo = p :: todo → s.pipe.done = false := by
    intro p todo hcall _
    simp only [Sending, hcall] at h
    rw [Pipe.done, hrc, h.2.1]
    rfl
  cases callerStep_move hstep with
  | close hcall htodo =>
    simp only [Sending, hcall] at h
    obtain ⟨hoff, hw, d, hchunks, hres, hcons⟩ := h
    rw [htodo, List.append_nil] at hchunks
    exact ⟨⟨hoff, rfl, htodo, by rw [hchunks]; exact hres, by rw [hchunks]; exact hcons⟩,
      hrc, hdone, rfl, rfl, rfl⟩
  | refused hcall htodo hclosed => exact (ne_true_of_eq_false (hpipe _ _ hcall htodo) hclosed).elim
  | @offer p todo hcall htodo =>
    simp only [Sending, hcall] at h
    obtain ⟨hoff, hw, d, hchunks, hres, hcons⟩ := h
    have hp : p ≠ [] := hne p (by rw [hchunks, htodo]; simp)
    refine ⟨⟨hw, d, by rw [hchunks, htodo], hres, ?_, rfl, ?_⟩, hrc, hdone, rfl, rfl, rfl⟩
    · show consumed = d.flatten ++ p.take 0
      rw [hcons]
      simp
    · exact List.length_pos_iff.mpr hp
  | @piped p hcall hoff =>
    simp only [Sending, hcall] at h
    obtain ⟨hw, d, hchunks, hres, hcons, hrest⟩ := h
    rw [hoff] at hrest
    have hsent : s.pipe.sent = p.length := hrest
    have hchunks' : chunks = (d ++ [p]) ++ s.todo := by rw [hchunks]; simp
    refine ⟨⟨hoff, hw, d ++ [p], hchunks', ?_, ?_⟩, hrc, hdone, rfl, rfl, rfl⟩
    · show s.results ++ [_] = _
      rw [hres, hsent]
      simp [accepted]
    · rw [hcons, hsent]
      simp
  | withdraw hcall hoff hclosed =>
    simp only [Sending, hcall] at h
    rw [Pipe.done, hrc, h.1] at hclosed
    cases hclosed
  | fail hcall => simp only [Sending, hcall] at h
  | delegate hcall => simp only [Sending, hcall] at h
  | nilWriter hcall => simp only [Sending, hcall] at h
  | delegated hcall => simp only [Sending, hcall] at h
  | closed hcall hdone' => exact (ne_true_of_eq_false hdone hdone').elim

/-- One step of the caller after `ReadBytes`; `new` are the calls it makes. -/
theorem handover_callerStep {W : Writers κ σ} {s t : State κ σ delim} {d tl extra : List Bytes}
    {n : Nat} {k : κ} (hacc : AcceptsIn W s) (herr : s.readerErr = none)
    (hwr : s.readerDone = true → s.writer = some k)
    (hopen : s.pipe.readClosed = false → extra = [])
    (h : Handover d tl n s extra) (hstep : callerStep W s = some t) :
    ∃ new, Handover d tl n t (extra ++ new) ∧ (s.readerDone = false → new = []) ∧
      t.calls = s.calls ++ new.map (k, ·) ∧
      t.pipe.readClosed = s.pipe.readClosed ∧ t.readerDone = s.readerDone ∧
      t.reader = s.reader ∧ t.writer = s.writer ∧ t.readerErr = s.readerErr := by
  -- all steps but the call of `writeDelegate` make no call
  have hquiet : ∀ t : State κ σ delim, Handover d tl n t extra → t.calls = s.calls →
      t.pipe.readClosed = s.pipe.readClosed ∧ t.readerDone = s.readerDone ∧
        t.reader = s.reader ∧ t.writer = s.writer ∧ t.readerErr = s.readerErr →
      ∃ new, Handover d tl n t (extra ++ new) ∧ (s.readerDone = false → new = []) ∧
        t.calls = s.calls ++ new.map (k, ·) ∧
        t.pipe.readClosed = s.pipe.readClosed ∧ t.readerDone = s.readerDone ∧
        t.reader = s.reader ∧ t.writer = s.writer ∧ t.readerErr = s.readerErr := by
    intro t ht hcalls hrest
    exact ⟨[], by rw [List.append_nil]; exact ht, fun _ => rfl, by simpa using hcalls, hrest⟩
  cases callerStep_move hstep with
  | close hcall htodo =>
    simp only [Handover, hcall] at h
    obtain ⟨hoff, htl, hcarry, hres⟩ := h
    rw [htodo, List.append_nil] at htl
    exact hquiet _ ⟨hoff, htodo, htl, hcarry, hres⟩ rfl ⟨rfl, rfl, rfl, rfl, rfl⟩
  | refused hcall htodo =>
    simp only [Handover, hcall] at h
    obtain ⟨hoff, htl, hcarry, hres⟩ := h
    exact hquiet _ ⟨hoff, hcarry.symm, by rw [htl, htodo], hres⟩ rfl ⟨rfl, rfl, rfl, rfl, rfl⟩
  | offer hcall htodo hpipe =>
    simp only [Handover, hcall] at h
    obtain ⟨hoff, htl, hcarry, hres⟩ := h
    obtain rfl := hopen (Bool.or_eq_false_iff.mp hpipe).1
    exact hquiet _ ⟨rfl, by rw [htl, htodo]; rfl, hcarry.symm, by simpa [delegated] using hres⟩ rfl
      ⟨rfl, rfl, rfl, rfl, rfl⟩
  | piped hcall hoff =>
    simp only [Handover, hcall, hoff] at h
    obtain ⟨rfl, hn, htl, hsent, d', hd, hres⟩ := h
    refine hquiet _ ⟨hoff, htl, hn, ?_⟩ rfl ⟨rfl, rfl, rfl, rfl, rfl⟩
    show s.results ++ [_] = _
    rw [hres, hd, hsent]
    simp [delegated, accepted]
  | withdraw hcall hoff =>
    simp only [Handover, hcall, hoff] at h
    obtain ⟨rfl, htl, hsent, hres⟩ := h
    exact hquiet _ ⟨rfl, hsent, htl, by simpa [delegated] using hres⟩ rfl ⟨rfl, rfl, rfl, rfl, rfl⟩
  | fail hcall hdone hfail =>
    rw [herr] at hfail
    cases hfail
  | @delegate p m k' hcall hdone _ hw =>
    simp only [Handover, hcall] at h
    obtain ⟨hoff, hm, htl, hres⟩ := h
    obtain rfl : k = k' := Option.some.inj ((hwr hdone).symm.trans hw)
    refine ⟨[p], ⟨hoff, hdone, extra, rfl, hm, by rw [htl]; simp, hres⟩, fun hnot => ?_, rfl,
      rfl, rfl, rfl, rfl, rfl⟩
    rw [hdone] at hnot
    cases hnot
  | nilWriter hcall hdone _ hw =>
    rw [hwr hdone] at hw
    cases hw
  | delegated hcall hret =>
    simp only [Handover, hcall] at h
    obtain ⟨hoff, hdone, deleg, rfl, hm, htl, hres⟩ := h
    obtain rfl := hacc _ _ (Or.inr (Or.inr ⟨_, hcall⟩)) hret
    refine hquiet _ ⟨hoff, htl, by simp, ?_⟩ rfl ⟨rfl, rfl, rfl, rfl, rfl⟩
    show s.results ++ [_] = _
    rw [hres, hm, delegated_snoc, List.append_assoc]
    rfl
  | closed hcall hdone =>
    simp only [Handover, hcall] at h
    obtain ⟨hoff, htodo, htl, hcarry, hres⟩ := h
    refine hquiet _ ⟨htl, hcarry, hdone, hres, ?_⟩ rfl ⟨rfl, rfl, rfl, rfl, rfl⟩
    show some (Error.joinAll [none, s.readerErr]) = some none
    rw [herr]
    rfl

/-- **One step of the caller preserves the invariant.** -/
theorem callerStep_inv {W : Writers κ σ} {morph : Bytes → κ} {chunks : List Bytes}
    {s t : State κ σ delim} (hne : ∀ p ∈ chunks, p ≠ []) (h : Inv morph chunks s)
    (hacc : AcceptsIn W s) (hstep : callerStep W s = some t) : Inv morph chunks t := by
  obtain ⟨herr, h⟩ := h
  cases hr : s.reader with
  | readBytes c =>
    simp only [hr] at h
    obtain ⟨hrc, hdone, hcalls, hsend⟩ := h
    obtain ⟨hsend', hrc', hdone', hr', hcalls', herr'⟩ :=
      sending_callerStep hne hrc hdone hsend hstep
    refine ⟨herr'.trans herr, ?_⟩
    rw [hr', hr]
    exact ⟨hrc', hdone', hcalls'.trans hcalls, hsend'⟩
  | switched stage tok rest =>
    simp only [hr] at h
    obtain ⟨d, tl, n, extra, hsw, hclean, hrc, hdone, hwr, hextra, hcalls, hhand⟩ := h
    obtain ⟨new, hhand', hsame, hcalls', hrc', hdone', hr', hw', herr'⟩ :=
      handover_callerStep (k := morph tok) hacc herr
        (fun hd => by
          have hst := hdone.mp hd
          exact hwr (by rw [hst]; simp) (by rw [hst]; simp))
        (fun hopen => hextra (by
          intro hst
          have := hrc.mpr (by rw [hst]; simp)
          rw [hopen] at this
          cases this))
        hhand hstep
    refine ⟨herr'.trans herr, ?_⟩
    rw [hr', hr]
    refine ⟨d, tl, n, extra ++ new, hsw, hclean, by rw [hrc']; exact hrc,
      by rw [hdone']; exact hdone, fun h1 h2 => hw'.trans (hwr h1 h2), ?_, ?_, hhand'⟩
    · intro hst
      have hnd : s.readerDone = false := by
        cases hb : s.readerDone with
        | false => rfl
        | true => exact absurd (hdone.mp hb) hst
      rw [hsame hnd, hextra hst]
      rfl
    · rw [hcalls', hcalls, ← List.map_append, List.append_assoc]

end ShouldIAsync.HarnessIo
