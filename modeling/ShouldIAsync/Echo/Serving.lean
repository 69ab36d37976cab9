import ShouldIAsync.Echo.RoundTrip
import ShouldIAsync.Lib.System

/-!
# What the handler echoes

One handler without a stop condition, and a peer that sends lines as it likes:
pipelined, in segments of any size, before it closes its side. A `Read` returns what is
left of the segment that is there, or as much of it as there is room for.

The handler reads its first line through a `bufio.Reader` and hands `runRoundTripLoop`
the connection, not the reader. Whatever the reader had taken in behind the first line is
not echoed, and everything else is (`Inv`, `Echoed`). Nothing is behind the first line
exactly if the read that brought its newline stopped there: at the end of the segment, or
at the end of a buffer (`firstReadFits`).
-/

namespace ShouldIAsync.Echo

open ShouldIAsync.GoStd ShouldIAsync.Lib

/-! ## The handler and its peer -/

/-- No number of iterations, and the barrier `func() {}`. -/
def unlimited : LoopArgs := ⟨0, false⟩

/-- A handler without a bound, and its connection. -/
structure Serving where
  handler : Party
  /-- what is still to arrive -/
  segments : List Bytes
  /-- what has been written to the connection -/
  out : Bytes

/-- What is still to arrive when `left` is left of a segment. -/
def arriving (left : Bytes) (segs : List Bytes) : List Bytes :=
  if left = [] then segs else left :: segs

/-- What the handler does next; what has arrived is read a segment at a time. -/
def Serving.next (s : Serving) : Option Serving :=
  match s.handler.advance unlimited false true with
  | some (bytes, p) => some ⟨p, s.segments, s.out ++ bytes⟩
  | none =>
    match s.segments with
    | [] => (s.handler.eof unlimited).map fun p => ⟨p, [], s.out⟩
    | seg :: segs =>
      (s.handler.read unlimited seg seg.length).map fun (p, left) => ⟨p, arriving left segs, s.out⟩

/-- `handleConnection` on a connection on which `segments` arrive. -/
def serving (segments : List Bytes) : System Serving where
  init s := s = ⟨.handler, segments, []⟩
  step s t := s.next = some t

/-- A stream of newline-terminated lines. -/
def Terminated (stream : Bytes) : Prop := stream = [] ∨ stream.getLast? = some newline

/-- The read that brings the first newline ends with it: `off` bytes are before `segments`,
none of them a newline. -/
def firstReadFits (off : Nat) : List Bytes → Bool
  | [] => true
  | seg :: segs =>
    match cut newline seg with
    | none => firstReadFits (off + seg.length) segs
    | some (line, rest) => rest = [] ∨ (off + line.length) % defaultBufSize = 0

/-- What a read leaves arrives first. -/
@[simp] theorem arriving_flatten (left : Bytes) (segs : List Bytes) :
    (arriving left segs).flatten = left ++ segs.flatten := by
  unfold arriving
  split
  next h => rw [h, List.nil_append]
  next => exact List.flatten_cons

theorem arriving_ne_nil {left : Bytes} {segs : List Bytes} (h : ∀ seg ∈ segs, seg ≠ []) :
    ∀ seg ∈ arriving left segs, seg ≠ [] := by
  unfold arriving
  split
  · exact h
  next hleft =>
    intro seg hmem
    rcases List.mem_cons.mp hmem with hseg | hmem
    · rw [hseg]
      exact hleft
    · exact h seg hmem

/-- What is left of terminated bytes is terminated. -/
theorem Terminated.of_append {a b : Bytes} (h : Terminated (a ++ b)) : Terminated b := by
  by_cases hb : b = []
  · exact Or.inl hb
  · right
    rcases h with h | h
    · exact absurd (List.append_eq_nil_iff.mp h).2 hb
    · rw [List.getLast?_append_of_ne_nil _ hb] at h
      exact h

/-- Without a newline nothing is terminated but the empty stream. -/
theorem Terminated.eq_nil {a : Bytes} (h : Terminated a) (ha : newline ∉ a) : a = [] := by
  rcases h with h | h
  · exact h
  · exact absurd (List.mem_of_getLast? h) ha

/-! ## The reads before the first newline -/

/-- A read without a newline: the rest of the segment is what remains to be looked at. -/
theorem firstReadFits_more {off : Nat} {d left : Bytes} {segs : List Bytes} (hd : newline ∉ d) :
    firstReadFits (off + d.length) (arriving left segs) =
      firstReadFits off ((d ++ left) :: segs) := by
  rw [firstReadFits, cut_append hd]
  unfold arriving
  split
  next hleft =>
    subst hleft
    simp [cut]
  next =>
    rw [firstReadFits]
    cases cut newline left with
    | none => simp [Nat.add_assoc]
    | some p => simp [Nat.add_assoc]

/-- The read that brings the newline. -/
theorem firstReadFits_line (segs : List Bytes) {c : Collecting newline} {d left tok rest : Bytes}
    {hd : d.length ≤ c.room} {hrest : rest.length ≤ defaultBufSize}
    (h : c.absorb d hd = .line tok rest hrest) (hfill : left ≠ [] → d.length = c.room) :
    firstReadFits c.seen.length ((d ++ left) :: segs) = true ↔ rest = [] := by
  obtain ⟨hsplit, pre, rfl, hpre, hseen, hle, heq⟩ := Collecting.absorb_line h
  -- the newline comes with this read, `line` into it
  obtain ⟨mid, rfl⟩ : c.seen <+: pre := by
    have hleft : c.seen <+: c.seen ++ d := List.prefix_append ..
    refine List.prefix_of_prefix_length_le hleft ?_ hseen
    rw [← hsplit, List.append_assoc]
    exact List.prefix_append ..
  have hd' : d = mid ++ newline :: rest := by
    have : c.seen ++ (mid ++ newline :: rest) = c.seen ++ d := by simpa using hsplit
    exact (List.append_cancel_left this).symm
  have hmid : newline ∉ mid := fun hm => hpre (List.mem_append_right _ hm)
  have hcut : cut newline (d ++ left) = some (mid ++ [newline], rest ++ left) := by
    rw [hd', List.append_assoc, List.cons_append]
    exact cut_first hmid (rest ++ left)
  have hlen : (c.seen ++ d).length = (c.seen ++ mid).length + 1 + rest.length := by
    rw [← hsplit]
    simp only [List.length_append, List.length_singleton]
  have hblock : defaultBufSize ∣ blockEnd (c.seen ++ mid).length := ⟨_, Eq.refl _⟩
  rw [firstReadFits, hcut]
  simp only [decide_eq_true_eq, List.append_eq_nil_iff, List.length_append, List.length_singleton,
    ← Nat.add_assoc]
  rw [← List.length_append, ← Nat.dvd_iff_mod_eq_zero]
  constructor
  · rintro (hnil | hend)
    · exact hnil.1
    · -- the line ends a buffer, so the read cannot have gone past it
      have hlt := lt_blockEnd (c.seen ++ mid).length
      have hends : blockEnd (c.seen ++ mid).length = (c.seen ++ mid).length + 1 := by
        unfold blockEnd defaultBufSize at *
        omega
      rw [List.eq_nil_iff_length_eq_zero]
      omega
  · intro hnil
    by_cases hleft : left = []
    · exact Or.inl ⟨hnil, hleft⟩
    · right
      have := heq (hfill hleft)
      rw [hnil, List.length_nil, Nat.add_zero] at hlen
      rw [← hlen, this]
      exact hblock

/-- What a `Read` does with the segment that is there. -/
theorem readQueue_segment (c : Collecting newline) {seg : Bytes} (hseg : seg ≠ []) :
    ∃ d left, ∃ hd : d.length ≤ c.room, readQueue c seg seg.length = (c.absorb d hd, left) ∧
      d ++ left = seg ∧ d ≠ [] ∧ (left ≠ [] → d.length = c.room) := by
  have hroom := c.room_pos
  have hpos := List.length_pos_of_ne_nil hseg
  refine ⟨seg.take (min seg.length c.room), seg.drop (min seg.length c.room), ?_, Eq.refl _,
    ?_, ?_, ?_⟩
  · exact Nat.le_trans (List.length_take_le ..) (Nat.min_le_right ..)
  · exact List.take_append_drop ..
  · apply List.ne_nil_of_length_pos
    rw [List.length_take]
    omega
  · intro hleft
    have := List.length_pos_of_ne_nil hleft
    rw [List.length_drop] at this
    rw [List.length_take]
    omega

/-! ## What has been echoed -/

/-- `bytes` is what was given, but for some bytes behind the first line, which are none
exactly if `fits`. -/
def Echoed (given : Bytes) (fits : Bool) (bytes : Bytes) : Prop :=
  ∃ line lost rest, given = line ++ (lost ++ rest) ∧ bytes = line ++ rest ∧
    (lost = [] ↔ fits = true)

/-- All comes back exactly if the first read fits. -/
theorem Echoed.eq_iff {given bytes : Bytes} {fits : Bool} (h : Echoed given fits bytes) :
    bytes = given ↔ fits = true := by
  obtain ⟨line, lost, rest, rfl, rfl, hlost⟩ := h
  rw [← hlost, List.append_cancel_left_eq]
  constructor
  · intro heq
    have := congrArg List.length heq
    rw [List.length_append] at this
    rw [List.eq_nil_iff_length_eq_zero]
    omega
  · intro hnil
    rw [hnil, List.nil_append]

section Invariant

variable {given : Bytes} {fits : Bool} {s t : Serving}

/-- Where the handler stands: what it has written, holds, has buffered and is still to
get is what was given, except for what it lost after the first line. -/
def Serving.Place (given : Bytes) (fits : Bool) (s : Serving) : Prop :=
  match s.handler.pc with
  | .firstRead c => s.out = [] ∧ Terminated given ∧ c.seen ++ s.segments.flatten = given ∧
      firstReadFits c.seen.length s.segments = fits
  | .head _ false bytes buf => Terminated (buf.1 ++ s.segments.flatten) ∧
      Echoed given fits (s.out ++ bytes ++ (buf.1 ++ s.segments.flatten))
  | .head _ true _ _ => s.segments = [] ∧ Echoed given fits s.out
  | .reading _ c => Terminated (c.seen ++ s.segments.flatten) ∧
      Echoed given fits (s.out ++ (c.seen ++ s.segments.flatten))
  | .barrier .. => False
  | .returned _ => s.segments = [] ∧ Echoed given fits s.out

/-- What holds between any two steps. -/
structure Serving.Inv (given : Bytes) (fits : Bool) (s : Serving) : Prop where
  place : s.Place given fits
  segments : ∀ seg ∈ s.segments, seg ≠ []

/-- What is left to do: bytes to read, bytes to search, and the rest of the iteration. -/
def Serving.weight (s : Serving) : Nat :=
  2 * s.segments.flatten.length +
    match s.handler.pc with
    | .firstRead _ | .reading _ _ => 2
    | .head _ false _ buf => 2 * buf.1.length + 3
    | .head _ true _ _ => 1
    | .barrier .. | .returned _ => 0

/-- A line ends the read and counts. -/
theorem collect_line {i : Nat} {p : Party} {tok rest : Bytes}
    (hrest : rest.length ≤ defaultBufSize) :
    collect unlimited i p (.line tok rest hrest) =
      ⟨.head (i + 1) false tok ⟨rest, hrest⟩, some (p.count.getD 0 + 1)⟩ := by
  simp [collect, readBytes, afterRead, unlimited]

/-- After a search that took in `r.held`, in iteration `i` of the loop. -/
theorem collect_place {r : Collected newline} {i : Nat} {p : Party} {segs : List Bytes}
    {out : Bytes} (hr : ∀ tok, r ≠ .noProgress tok) (hterm : Terminated (r.held ++ segs.flatten))
    (hecho : Echoed given fits (out ++ (r.held ++ segs.flatten))) :
    Serving.Place given fits ⟨collect unlimited i p r, segs, out⟩ := by
  cases r with
  | more c => exact ⟨hterm, hecho⟩
  | line tok rest hrest =>
    have hsplit : tok ++ rest ++ segs.flatten = tok ++ (rest ++ segs.flatten) :=
      List.append_assoc ..
    rw [collect_line]
    refine ⟨?_, ?_⟩
    · refine Terminated.of_append (a := tok) ?_
      rw [← hsplit]
      exact hterm
    · show Echoed given fits (out ++ tok ++ (rest ++ segs.flatten))
      rw [List.append_assoc, ← hsplit]
      exact hecho
  | noProgress tok => exact absurd (Eq.refl _) (hr tok)

/-- A read makes the weight smaller. -/
theorem collect_weight {r : Collected newline} {i k : Nat} {p : Party} {segs : List Bytes}
    {out : Bytes} (hr : ∀ tok, r ≠ .noProgress tok)
    (hk : ∀ tok rest hrest, r = .line tok rest hrest → rest.length < k) :
    Serving.weight ⟨collect unlimited i p r, segs, out⟩ ≤
      2 * segs.flatten.length + max 2 (2 * k + 1) := by
  cases r with
  | more c => exact Nat.add_le_add_left (Nat.le_max_left ..) _
  | line tok rest hrest =>
    have := hk tok rest hrest (Eq.refl _)
    rw [collect_line]
    show 2 * segs.flatten.length + (2 * rest.length + 3) ≤ _
    omega
  | noProgress tok => exact absurd (Eq.refl _) (hr tok)

/-- One `Read` into the loop's reader. -/
theorem reading_step {i : Nat} {c : Collecting newline} {count : Option Nat} {segs : List Bytes}
    {out : Bytes} (h : Serving.Inv given fits ⟨⟨.reading i c, count⟩, segs, out⟩)
    (hstep : Serving.next ⟨⟨.reading i c, count⟩, segs, out⟩ = some t) :
    t.Inv given fits ∧ t.weight < Serving.weight ⟨⟨.reading i c, count⟩, segs, out⟩ := by
  obtain ⟨hterm, hecho⟩ := h.place
  cases segs with
  | nil =>
    -- the stream is terminated, so there is no line begun
    have hseen : c.seen = [] := by
      refine Terminated.eq_nil ?_ c.noDelim
      simpa using hterm
    have ht : t = ⟨⟨.head (i + 1) true [] .empty, some (count.getD 0 + 1)⟩, [], out⟩ := by
      simpa [Serving.next, Party.advance, Party.eof, hseen, readBytes, afterRead, unlimited] using
        hstep.symm
    subst ht
    refine ⟨⟨⟨Eq.refl _, ?_⟩, by simp⟩, ?_⟩
    · simpa [hseen] using hecho
    · show 2 * ([] : List Bytes).flatten.length + 1 < 2 * ([] : List Bytes).flatten.length + 2
      omega
  | cons seg segs =>
    obtain ⟨hseg, hsegs⟩ := List.forall_mem_cons.mp h.segments
    obtain ⟨d, left, hd, hq, hsplit, hne, -⟩ := readQueue_segment c hseg
    have ht : t =
        ⟨collect unlimited i ⟨.reading i c, count⟩ (c.absorb d hd), arriving left segs, out⟩ := by
      simpa [Serving.next, Party.advance, Party.read, hq, hseg] using hstep.symm
    subst ht hsplit
    have hr : ∀ tok, c.absorb d hd ≠ .noProgress tok :=
      fun tok => Collecting.absorb_ne_noProgress hne
    refine ⟨⟨collect_place hr ?_ ?_, arriving_ne_nil hsegs⟩, ?_⟩
    · rw [Collecting.absorb_held, arriving_flatten]
      simpa using hterm
    · rw [Collecting.absorb_held, arriving_flatten]
      simpa using hecho
    · refine Nat.lt_of_le_of_lt (collect_weight (k := d.length) hr ?_) ?_
      · intro tok rest hrest hline
        obtain ⟨hsplit, pre, rfl, -, hle, -⟩ := Collecting.absorb_line hline
        have := congrArg List.length hsplit
        simp only [List.length_append, List.length_singleton] at this
        omega
      · have := List.length_pos_of_ne_nil hne
        show _ < 2 * ((d ++ left) :: segs).flatten.length + 2
        rw [arriving_flatten, List.flatten_cons, List.append_assoc, @List.length_append _ d]
        omega

/-- One `Read` into the reader of the first line. -/
theorem firstRead_step {c : Collecting newline} {count : Option Nat} {segs : List Bytes}
    {out : Bytes} (h : Serving.Inv given fits ⟨⟨.firstRead c, count⟩, segs, out⟩)
    (hstep : Serving.next ⟨⟨.firstRead c, count⟩, segs, out⟩ = some t) :
    t.Inv given fits ∧ t.weight < Serving.weight ⟨⟨.firstRead c, count⟩, segs, out⟩ := by
  obtain ⟨hout, hterm, hgiven, hfits⟩ := h.place
  have hnil : out = [] := hout
  cases segs with
  | nil =>
    -- no line at all, so nothing was given and nothing is lost
    have hempty : given = [] := by
      refine hterm.eq_nil ?_
      rw [← hgiven, List.flatten_nil, List.append_nil]
      exact c.noDelim
    have hseen : c.seen = [] := by
      rw [hempty] at hgiven
      exact (List.append_eq_nil_iff.mp hgiven).1
    have ht : t = ⟨⟨.returned (some .serverUnexpectedEof), count⟩, [], out⟩ := by
      simpa [Serving.next, Party.advance, Party.eof, hseen, readBytes, afterFirstRead] using
        hstep.symm
    subst ht
    refine ⟨⟨⟨Eq.refl _, [], [], [], ?_, ?_, ?_⟩, by simp⟩, ?_⟩
    · simpa using hempty
    · simpa using hnil
    · rw [← hfits]
      simp [firstReadFits]
    · show 2 * ([] : List Bytes).flatten.length + 0 < 2 * ([] : List Bytes).flatten.length + 2
      omega
  | cons seg segs =>
    obtain ⟨hseg, hsegs⟩ := List.forall_mem_cons.mp h.segments
    obtain ⟨d, left, hd, hq, hsplit, hne, hfill⟩ := readQueue_segment c hseg
    have ht : t =
        ⟨collectFirst ⟨.firstRead c, count⟩ (c.absorb d hd), arriving left segs, out⟩ := by
      simpa [Serving.next, Party.advance, Party.read, hq, hseg] using hstep.symm
    subst ht hsplit
    have hd0 := List.length_pos_of_ne_nil hne
    have hbytes : c.seen ++ d ++ (arriving left segs).flatten = given := by
      rw [← hgiven, arriving_flatten]
      simp
    have hweight : Serving.weight ⟨⟨.firstRead c, count⟩, (d ++ left) :: segs, out⟩ =
        2 * (d.length + (arriving left segs).flatten.length) + 2 := by
      rw [arriving_flatten, ← List.length_append, ← List.append_assoc]
      exact Eq.refl _
    rw [hweight]
    cases hc : c.absorb d hd with
    | more c' =>
      have hseen : c'.seen = c.seen ++ d := Collecting.absorb_more hc
      have hnl : newline ∉ d := by
        have := c'.noDelim
        change newline ∉ c'.seen at this
        rw [hseen, List.mem_append, not_or] at this
        exact this.2
      refine ⟨⟨⟨hout, hterm, ?_, ?_⟩, arriving_ne_nil hsegs⟩, ?_⟩
      · rw [hseen]
        exact hbytes
      · rw [hseen, List.length_append, firstReadFits_more hnl]
        exact hfits
      · show 2 * (arriving left segs).flatten.length + 2 < _
        omega
    | line tok rest hrest =>
      have hlost := firstReadFits_line segs hc hfill
      have hsplit : tok ++ rest = c.seen ++ d := (Collecting.absorb_line hc).1
      rw [← hsplit, List.append_assoc] at hbytes
      rw [← hbytes, ← List.append_assoc] at hterm
      refine ⟨⟨⟨hterm.of_append, tok, rest, (arriving left segs).flatten, hbytes.symm, ?_, ?_⟩,
        arriving_ne_nil hsegs⟩, ?_⟩
      · show out ++ tok ++ ([] ++ (arriving left segs).flatten) = _
        rw [hnil, List.nil_append, List.nil_append]
      · rw [← hlost, ← hfits]
      · show 2 * (arriving left segs).flatten.length + (2 * 0 + 3) < _
        omega
    | noProgress tok => exact absurd hc (Collecting.absorb_ne_noProgress hne)

/-- One iteration's writes, or the end of the loop. -/
theorem head_step {i : Nat} {done : Bool} {bytes : Bytes} {buf : Buffered} {count : Option Nat}
    {segs : List Bytes} {out : Bytes}
    (h : Serving.Inv given fits ⟨⟨.head i done bytes buf, count⟩, segs, out⟩)
    (hstep : Serving.next ⟨⟨.head i done bytes buf, count⟩, segs, out⟩ = some t) :
    t.Inv given fits ∧ t.weight < Serving.weight ⟨⟨.head i done bytes buf, count⟩, segs, out⟩ := by
  cases done with
  | true =>
    have ht : t = ⟨⟨.returned none, count⟩, segs, out⟩ := by
      simpa [Serving.next, Party.advance] using hstep.symm
    subst ht
    exact ⟨⟨h.place, h.segments⟩, Nat.lt_succ_self _⟩
  | false =>
    obtain ⟨hterm, hecho⟩ := h.place
    have ht : t = ⟨collect unlimited i ⟨.head i false bytes buf, count⟩
        (Collecting.resume newline buf.1 buf.2), segs, out ++ bytes⟩ := by
      simpa [Serving.next, Party.advance, unlimited] using hstep.symm
    subst ht
    have hr : ∀ tok, Collecting.resume newline buf.1 buf.2 ≠ .noProgress tok := fun tok =>
      Collecting.resume_ne_noProgress
    refine ⟨⟨collect_place hr ?_ ?_, h.segments⟩, ?_⟩
    · rw [Collecting.resume_held]
      exact hterm
    · rw [Collecting.resume_held]
      exact hecho
    · refine Nat.lt_of_le_of_lt (collect_weight (k := buf.1.length) hr ?_) ?_
      · intro tok rest hrest hline
        obtain ⟨hsplit, pre, rfl, -⟩ := Collecting.resume_line hline
        rw [← hsplit]
        simp only [List.length_append, List.length_singleton]
        omega
      · show _ < 2 * segs.flatten.length + (2 * buf.1.length + 3)
        omega

/-- **Each step keeps the invariant and makes the weight smaller.** -/
theorem serving_step (h : s.Inv given fits) (hstep : s.next = some t) :
    t.Inv given fits ∧ t.weight < s.weight := by
  obtain ⟨⟨pc, count⟩, segs, out⟩ := s
  cases pc with
  | firstRead c => exact firstRead_step h hstep
  | head i done bytes buf => exact head_step h hstep
  | reading i c => exact reading_step h hstep
  | barrier done bytes buf => exact h.place.elim
  | returned err =>
    have hsegs : segs = [] := h.place.1
    subst hsegs
    cases hstep

/-- A handler that cannot go on has returned. -/
theorem returned_of_stuck (h : s.Inv given fits) (hstuck : s.next = none) :
    s.handler.isReturned = true := by
  obtain ⟨⟨pc, count⟩, segs, out⟩ := s
  cases pc with
  | returned err => exact Eq.refl _
  | barrier done bytes buf => exact h.place.elim
  | head i done bytes buf =>
    cases done <;> simp [Serving.next, Party.advance, unlimited] at hstuck
  | firstRead c =>
    cases segs with
    | nil => simp [Serving.next, Party.advance, Party.eof] at hstuck
    | cons seg segs =>
      have := (List.forall_mem_cons.mp h.segments).1
      simp [Serving.next, Party.advance, Party.read, this] at hstuck
  | reading i c =>
    cases segs with
    | nil => simp [Serving.next, Party.advance, Party.eof] at hstuck
    | cons seg segs =>
      have := (List.forall_mem_cons.mp h.segments).1
      simp [Serving.next, Party.advance, Party.read, this] at hstuck

end Invariant

/-! ## The payoff -/

section Runs

variable {segments : List Bytes} {s t : Serving}

theorem serving_reachable (hseg : ∀ seg ∈ segments, seg ≠ []) (hlines : Terminated segments.flatten)
    (h : (serving segments).Reachable s) : s.Inv segments.flatten (firstReadFits 0 segments) := by
  refine h.invariant (P := fun s => s.Inv segments.flatten (firstReadFits 0 segments)) ?_ ?_
  · intro s hs
    obtain rfl : s = _ := hs
    exact ⟨⟨Eq.refl _, hlines, Eq.refl _, Eq.refl _⟩, hseg⟩
  · intro s t _ hs hstep
    exact (serving_step hs hstep).1

/-- Each step of a run makes the weight smaller. -/
theorem serving_weight (hseg : ∀ seg ∈ segments, seg ≠ []) (hlines : Terminated segments.flatten)
    (h : (serving segments).Reachable s) (hstep : (serving segments).step s t) :
    t.weight < s.weight :=
  (serving_step (serving_reachable hseg hlines h) hstep).2

/-- A run that cannot go on has read everything and returned. -/
theorem serving_stuck (hseg : ∀ seg ∈ segments, seg ≠ []) (hlines : Terminated segments.flatten)
    (h : (serving segments).Reachable s) (hstuck : (serving segments).Stuck s) :
    s.handler.isReturned = true ∧ s.segments = [] ∧
      Echoed segments.flatten (firstReadFits 0 segments) s.out := by
  have hinv := serving_reachable hseg hlines h
  have hret := returned_of_stuck hinv (Option.eq_none_iff_forall_not_mem.mpr hstuck)
  obtain ⟨⟨pc, count⟩, segs, out⟩ := s
  cases pc with
  | returned err => exact ⟨hret, hinv.place⟩
  | _ => cases hret

end Runs

/-- **The handler echoes everything exactly if its first read ends with the first line.**
However the lines of the peer arrive, the handler returns after the end of the stream, and
has then written the stream back if and only if the read that brought the first newline
brought nothing behind it. -/
theorem handler_echoes_iff (segments : List Bytes) (hseg : ∀ seg ∈ segments, seg ≠ [])
    (hlines : Terminated segments.flatten) :
    (serving segments).EveryRunEnds fun s => s.handler.isReturned = true ∧ s.segments = [] ∧
      (s.out = segments.flatten ↔ firstReadFits 0 segments = true) := by
  refine System.everyRunEnds_of_measure wellFounded_lt Serving.weight ?_ ?_
  · intro s t hs hstep
    exact serving_weight hseg hlines hs hstep
  · intro s hs hstuck
    obtain ⟨hret, hsegs, hecho⟩ := serving_stuck hseg hlines hs hstuck
    exact ⟨hret, hsegs, hecho.eq_iff⟩

/-- "a\nb\n", pipelined, the second line in a segment of its own. -/
theorem handler_echoes_two_lines :
    (serving [[97, newline], [98, newline]]).EveryRunEnds fun s => s.handler.isReturned = true ∧
      s.segments = [] ∧ (s.out = [97, newline, 98, newline] ↔
        firstReadFits 0 [[97, newline], [98, newline]] = true) :=
  handler_echoes_iff [[97, newline], [98, newline]] (by decide) (Or.inr (by decide))

/-- "a\nb\n" in one segment: the second line is not echoed. -/
theorem handler_drops_second_line :
    ¬ (serving [[97, newline, 98, newline]]).EveryRunEnds fun s =>
        s.out = [97, newline, 98, newline] := by
  intro hends
  have hseg : ∀ seg ∈ [[97, newline, 98, newline]], seg ≠ [] := by decide
  have hlines : Terminated [[97, newline, 98, newline]].flatten := Or.inr (by decide)
  obtain ⟨s, hs, hstuck, -⟩ := System.exists_stuck wellFounded_lt Serving.weight
    (fun s t hs hstep => serving_weight hseg hlines hs hstep) (.start (Eq.refl _))
  have hout := hends.ends s hs hstuck
  have hfits := (serving_stuck hseg hlines hs hstuck).2.2.eq_iff.mp hout
  revert hfits
  decide

end ShouldIAsync.Echo
