import Mathlib.Data.List.Basic

/-!
# Go's `bufio.Reader.ReadBytes`, one underlying read at a time

`ReadBytes(delim)` searches the buffer for the delimiter, and while it does not
find it reads more: into the free space of the buffer, or, when the buffer is
full of bytes without a delimiter (`ErrBufferFull`), after setting the full
buffer aside. A call in progress is therefore a `Collecting`: the bytes set
aside and the bytes in the buffer. `Collecting.absorb` is what one underlying
`Read` does to it.

The type carries what the search loop maintains: no byte seen so far is the
delimiter, the buffer has room, and what was set aside is a whole number of
buffers. `absorb_line` is the consequence the callers rest on: the read that
brings in the delimiter cannot reach past the end of the buffer-sized block of
the stream that holds it (`blockEnd`).
-/

namespace ShouldIAsync.GoStd

/-- The bytes of a `[]byte`. -/
abbrev Bytes := List UInt8

/-- `'\n'` -/
def newline : UInt8 := 10

/-- `'\r'` -/
def carriageReturn : UInt8 := 13

def defaultBufSize : Nat := 4096

def maxConsecutiveEmptyReads : Nat := 100

theorem defaultBufSize_pos : 0 < defaultBufSize := by decide

/-- The bytes up to and including the first `delim`, and the bytes after it. -/
def cut (delim : UInt8) : Bytes → Option (Bytes × Bytes)
  | [] => none
  | b :: bs => if b = delim then some ([b], bs) else (cut delim bs).map fun (l, r) => (b :: l, r)

/-- Nothing is cut where the delimiter does not occur. -/
theorem cut_eq_none {delim : UInt8} : ∀ {bs : Bytes}, cut delim bs = none ↔ delim ∉ bs
  | [] => by simp [cut]
  | b :: bs => by
    unfold cut
    split
    next h => simp [h]
    next h =>
      rw [Option.map_eq_none_iff, @cut_eq_none delim bs, List.mem_cons, not_or]
      exact ⟨fun hbs => ⟨fun he => h he.symm, hbs⟩, fun hbs => hbs.2⟩

/-- The delimiter ends the first part and does not occur before. -/
theorem cut_eq_some {delim : UInt8} : ∀ {bs line rest : Bytes}, cut delim bs = some (line, rest) →
    bs = line ++ rest ∧ ∃ pre, line = pre ++ [delim] ∧ delim ∉ pre
  | [], line, rest, h => by simp [cut] at h
  | b :: bs, line, rest, h => by
    unfold cut at h
    split at h
    next hb =>
      obtain ⟨rfl, rfl⟩ : [b] = line ∧ bs = rest := by simpa using h
      exact ⟨rfl, [], by simp [hb], by simp⟩
    next hb =>
      obtain ⟨⟨line', rest'⟩, hcut, heq⟩ := Option.map_eq_some_iff.mp h
      obtain ⟨rfl, rfl⟩ : b :: line' = line ∧ rest' = rest := by simpa using heq
      obtain ⟨rfl, pre, rfl, hpre⟩ := cut_eq_some hcut
      refine ⟨rfl, b :: pre, rfl, ?_⟩
      rw [List.mem_cons, not_or]
      exact ⟨fun he => hb he.symm, hpre⟩

/-- The first `delim` is where `cut` cuts. -/
theorem cut_first {delim : UInt8} {pre : Bytes} (hpre : delim ∉ pre) (rest : Bytes) :
    cut delim (pre ++ delim :: rest) = some (pre ++ [delim], rest) := by
  induction pre with
  | nil => simp [cut]
  | cons b bs ih =>
    rw [List.mem_cons, not_or] at hpre
    rw [List.cons_append, cut, if_neg (fun he => hpre.1 he.symm), ih hpre.2]
    rfl

/-- A front without `delim` goes with the first part. -/
theorem cut_append {delim : UInt8} {a : Bytes} (ha : delim ∉ a) (bs : Bytes) :
    cut delim (a ++ bs) = (cut delim bs).map fun (l, r) => (a ++ l, r) := by
  cases hcut : cut delim bs with
  | none =>
    rw [Option.map_none, cut_eq_none, List.mem_append, not_or]
    exact ⟨ha, cut_eq_none.mp hcut⟩
  | some p =>
    obtain ⟨line, rest⟩ := p
    obtain ⟨rfl, pre, rfl, hpre⟩ := cut_eq_some hcut
    have hnd : delim ∉ a ++ pre := by
      rw [List.mem_append, not_or]
      exact ⟨ha, hpre⟩
    have := cut_first hnd rest
    simpa using this

/-- A list has one first `delim`. -/
theorem first_unique {delim : UInt8} {pre rest pre' rest' : Bytes} (hpre : delim ∉ pre)
    (hpre' : delim ∉ pre') (h : pre ++ delim :: rest = pre' ++ delim :: rest') :
    pre = pre' ∧ rest = rest' := by
  have heq := cut_first hpre rest
  rw [h, cut_first hpre'] at heq
  obtain ⟨hl, hr⟩ := Prod.mk.inj (Option.some.inj heq)
  exact ⟨(List.append_cancel_right hl).symm, hr.symm⟩

/-- The end of the buffer-sized block of the stream that holds offset `k`. -/
def blockEnd (k : Nat) : Nat := defaultBufSize * (k / defaultBufSize + 1)

/-- Each position is before the end of its block. -/
theorem lt_blockEnd (k : Nat) : k < blockEnd k := by
  unfold blockEnd defaultBufSize
  omega

/-- An offset inside the block that starts at a multiple of the buffer size. -/
theorem blockEnd_of_aligned {a k : Nat} (ha : defaultBufSize ∣ a) (hak : a ≤ k)
    (hka : k < a + defaultBufSize) : blockEnd k = a + defaultBufSize := by
  obtain ⟨m, rfl⟩ := ha
  unfold blockEnd defaultBufSize at *
  omega

/-- A `ReadBytes(delim)` in progress. -/
structure Collecting (delim : UInt8) where
  /-- `fullBuffers`: what `ReadSlice` returned with `ErrBufferFull` -/
  full : Bytes
  /-- the unread bytes of the buffer -/
  buf : Bytes
  /-- consecutive empty reads of the current `fill` -/
  empties : Nat
  noDelim : delim ∉ full ++ buf
  buf_lt : buf.length < defaultBufSize
  aligned : defaultBufSize ∣ full.length

/-- What a `ReadBytes` call is left with after one underlying read. -/
inductive Collected (delim : UInt8)
  /-- no delimiter yet: read again -/
  | more (c : Collecting delim)
  /-- the line with its delimiter, and what stays in the buffer -/
  | line (token rest : Bytes) (rest_le : rest.length ≤ defaultBufSize)
  /-- `io.ErrNoProgress` after too many empty reads, with the bytes so far -/
  | noProgress (token : Bytes)

/-- The bytes a call has taken in so far, whether it goes on or returns. -/
def Collected.held {delim : UInt8} : Collected delim → Bytes
  | .more c => c.full ++ c.buf
  | .line token rest _ => token ++ rest
  | .noProgress token => token

namespace Collecting

variable {delim : UInt8}

/-- A call on a reader with an empty buffer. -/
def start (delim : UInt8) : Collecting delim where
  full := []
  buf := []
  empties := 0
  noDelim := by simp
  buf_lt := defaultBufSize_pos
  aligned := Nat.dvd_zero _

/-- Everything the call has read. -/
def seen (c : Collecting delim) : Bytes := c.full ++ c.buf

@[simp] theorem seen_start : (start delim).seen = [] := rfl

/-- The free space of the buffer: how much the next `Read` may return. -/
def room (c : Collecting delim) : Nat := defaultBufSize - c.buf.length

theorem room_pos (c : Collecting delim) : 0 < c.room := Nat.sub_pos_of_lt c.buf_lt

/-- The search at the top of the loop of `ReadSlice`, over a buffer `buf` that
does not exceed its size. -/
def search (full buf : Bytes) (hfull : delim ∉ full) (haligned : defaultBufSize ∣ full.length)
    (hbuf : buf.length ≤ defaultBufSize) : Collected delim :=
  match h : cut delim buf with
  | some (line, rest) => .line (full ++ line) rest (by
      rw [(cut_eq_some h).1, List.length_append] at hbuf
      omega)
  | none =>
    have hnd : delim ∉ full ++ buf := by
      rw [List.mem_append, not_or]; exact ⟨hfull, cut_eq_none.mp h⟩
    if hlt : buf.length < defaultBufSize then
      .more ⟨full, buf, 0, hnd, hlt, haligned⟩
    else
      -- `ErrBufferFull`: the whole buffer is set aside
      .more ⟨full ++ buf, [], 0, by simpa using hnd, defaultBufSize_pos, by
        rw [List.length_append]
        exact Nat.dvd_add haligned ⟨1, by omega⟩⟩

/-- A call on a reader that has `buf` in its buffer: it searches before it reads. -/
def resume (delim : UInt8) (buf : Bytes) (hbuf : buf.length ≤ defaultBufSize) : Collected delim :=
  search [] buf (by simp) (Nat.dvd_zero _) hbuf

/-- One underlying `Read` has returned `d`, at most as much as there was room for. -/
def absorb (c : Collecting delim) (d : Bytes) (hd : d.length ≤ c.room) : Collected delim :=
  if d = [] then
    if c.empties + 1 = maxConsecutiveEmptyReads then .noProgress c.seen
    else .more { c with empties := c.empties + 1 }
  else
    search c.full (c.buf ++ d) (fun h => c.noDelim (List.mem_append_left _ h)) c.aligned (by
      have := c.buf_lt
      unfold room at hd
      rw [List.length_append]
      omega)

/-- While no delimiter turns up, the call has seen exactly what the reads returned. -/
theorem absorb_more {c c' : Collecting delim} {d : Bytes} {hd : d.length ≤ c.room}
    (h : c.absorb d hd = .more c') : c'.seen = c.seen ++ d := by
  unfold absorb at h
  split at h
  next hnil =>
    split at h
    · cases h
    · cases h
      rw [hnil, List.append_nil]
      rfl
  next =>
    unfold search at h
    split at h
    · cases h
    · split at h
      · cases h
        simp [seen]
      · cases h
        simp [seen]

/-- **The read that brings in the delimiter.** The line and the rest are what was
read; the delimiter came with this read; and the bytes read end within the block
that holds the delimiter, at its very end if the read filled the buffer. -/
theorem absorb_line {c : Collecting delim} {d tok rest : Bytes} {hd : d.length ≤ c.room}
    {hrest : rest.length ≤ defaultBufSize} (h : c.absorb d hd = .line tok rest hrest) :
    tok ++ rest = c.seen ++ d ∧ ∃ pre, tok = pre ++ [delim] ∧ delim ∉ pre ∧
      c.seen.length ≤ pre.length ∧ (c.seen ++ d).length ≤ blockEnd pre.length ∧
      (d.length = c.room → (c.seen ++ d).length = blockEnd pre.length) := by
  unfold absorb at h
  split at h
  next hnil =>
    split at h <;> cases h
  next hne =>
    unfold search at h
    split at h
    next line rest' hcut =>
      obtain ⟨rfl, rfl⟩ : c.full ++ line = tok ∧ rest' = rest := by simpa using h
      obtain ⟨hbuf, pre, rfl, hpre⟩ := cut_eq_some hcut
      have hseen : c.full ++ (pre ++ [delim]) ++ rest' = c.seen ++ d := by
        rw [seen, List.append_assoc, ← hbuf, List.append_assoc]
      -- the delimiter is not among the bytes seen before
      have hge : c.buf.length ≤ pre.length := by
        rcases Nat.lt_or_ge pre.length c.buf.length with hlt | hge
        · exfalso
          have hmem : delim ∈ c.buf := by
            have hget : (c.buf ++ d)[pre.length]? = some delim := by rw [hbuf]; simp
            rw [List.getElem?_append_left hlt] at hget
            exact List.mem_of_getElem? hget
          exact c.noDelim (List.mem_append_right _ hmem)
        · exact hge
      have hnd : delim ∉ c.full ++ pre := by
        rw [List.mem_append, not_or]
        exact ⟨fun h => c.noDelim (List.mem_append_left _ h), hpre⟩
      have hlen : (c.buf ++ d).length = pre.length + 1 + rest'.length := by
        rw [hbuf, List.length_append, List.length_append]; rfl
      have hblock : blockEnd (c.full ++ pre).length = c.full.length + defaultBufSize := by
        have hbl := c.buf_lt
        unfold room at hd
        rw [List.length_append] at hlen
        refine blockEnd_of_aligned c.aligned ?_ ?_ <;> rw [List.length_append] <;> omega
      refine ⟨hseen, c.full ++ pre, by simp, hnd, ?_, ?_, ?_⟩
      · simpa [seen] using hge
      · rw [hblock]
        have hbl := c.buf_lt
        unfold room at hd
        simp only [seen, List.length_append]
        omega
      · intro hfill
        rw [hblock]
        have hbl := c.buf_lt
        unfold room at hfill
        simp only [seen, List.length_append]
        omega
    next =>
      split at h <;> cases h

/-- A line ends with the first delimiter of what is in the buffer. -/
theorem resume_line {buf tok rest : Bytes} {hbuf : buf.length ≤ defaultBufSize}
    {hrest : rest.length ≤ defaultBufSize} (h : resume delim buf hbuf = .line tok rest hrest) :
    tok ++ rest = buf ∧ ∃ pre, tok = pre ++ [delim] ∧ delim ∉ pre := by
  unfold resume search at h
  split at h
  next line rest' hcut =>
    obtain ⟨rfl, rfl⟩ : line = tok ∧ rest' = rest := by simpa using h
    obtain ⟨hsplit, hpre⟩ := cut_eq_some hcut
    exact ⟨hsplit.symm, hpre⟩
  · split at h <;> cases h

/-- What is in the buffer is never `io.ErrNoProgress`. -/
theorem resume_ne_noProgress {buf tok : Bytes} {hbuf : buf.length ≤ defaultBufSize} :
    resume delim buf hbuf ≠ .noProgress tok := by
  unfold resume search
  split
  · simp
  · split <;> simp

@[simp] theorem resume_nil (hbuf : ([] : Bytes).length ≤ defaultBufSize) :
    resume delim [] hbuf = .more (start delim) := by
  unfold resume search
  split
  next hcut => cases hcut
  next =>
    rw [dif_pos (by exact defaultBufSize_pos)]
    exact Eq.refl _

/-- A search loses nothing. -/
theorem search_held {full buf : Bytes} {hfull : delim ∉ full}
    {haligned : defaultBufSize ∣ full.length} {hbuf : buf.length ≤ defaultBufSize} :
    (search full buf hfull haligned hbuf).held = full ++ buf := by
  unfold search
  split
  next line rest hcut =>
    show full ++ line ++ rest = full ++ buf
    rw [(cut_eq_some hcut).1, List.append_assoc]
  next =>
    split
    · exact Eq.refl _
    · show full ++ buf ++ [] = full ++ buf
      rw [List.append_nil]

/-- The call holds what it held before and what was read. -/
theorem absorb_held {c : Collecting delim} {d : Bytes} {hd : d.length ≤ c.room} :
    (c.absorb d hd).held = c.seen ++ d := by
  unfold absorb
  split
  next hnil =>
    rw [hnil, List.append_nil]
    split <;> exact Eq.refl _
  next =>
    rw [search_held, seen, List.append_assoc]

theorem resume_held {buf : Bytes} {hbuf : buf.length ≤ defaultBufSize} :
    (resume delim buf hbuf).held = buf := search_held

/-- A nonempty read never ends in `io.ErrNoProgress`. -/
theorem absorb_ne_noProgress {c : Collecting delim} {d tok : Bytes} {hd : d.length ≤ c.room}
    (hne : d ≠ []) : c.absorb d hd ≠ .noProgress tok := by
  unfold absorb
  rw [if_neg hne]
  unfold search
  split
  · simp
  · split <;> simp

end Collecting

end ShouldIAsync.GoStd
