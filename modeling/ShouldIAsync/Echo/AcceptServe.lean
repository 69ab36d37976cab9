import ShouldIAsync.Echo.Tcp

/-!
# `Accept` after a handler has failed

`Accept` serves its connections under `ctxGroup`, the context of an errgroup: the first
handler that returns an error cancels it, and every connection whose handler is still
running is closed, by the `AfterFunc` of that handler. The listener is closed by another
context, `ctx`, and so `Accept` goes on accepting; what it accepts from then on is closed
as soon as the `AfterFunc` of its handler runs, which is at any time.

Clients do what they like here: send, close their side, reset the connection. A handler
fails on its own exactly when its connection gives it something bad (`bad`): an error, an end
of the stream before the first line or inside a line, or, with a number of iterations, any
end of the stream in the loop. So the runs that accept nothing after something bad (`careful`)
are those that accept nothing after a handler has failed.
-/

namespace ShouldIAsync.Echo

open ShouldIAsync.GoStd ShouldIAsync.Lib

namespace AcceptServe

/-- A `Read` or a `Write` of the party fails with `cause`. -/
def fail (args : LoopArgs) (stopCh : Bool) (cause : ConnError) (p : Party) : Option Party :=
  match p.pc with
  | .firstRead c => some (afterFirstRead p (readBytes c.seen (some cause)))
  | .reading i c => some (afterRead args i .empty p (readBytes c.seen (some cause)))
  | .head i done _ _ =>
    if done ∨ (args.numIterations ≠ 0 ∧ args.numIterations ≤ i) ∨ stopCh then none
    else
      some { p with pc := .returned (some (if i = 0 then .firstIteration (.writeBytes cause)
        else .writeBytes cause)) }
  | .barrier .. | .returned _ => none

/-- The end of the stream, where the party does not expect it. -/
def badEof (args : LoopArgs) (p : Party) : Bool :=
  match p.pc with
  | .firstRead _ => true
  | .reading _ c => c.seen ≠ [] ∨ args.numIterations ≠ 0
  | .head .. | .barrier .. | .returned _ => false

/-- The party has returned an error. -/
def failed (p : Party) : Bool :=
  match p.pc with
  | .returned (some _) => true
  | _ => false

/-- An accepted connection and its handler. -/
structure Conn where
  handler : Party
  up : Stream
  /-- what has been written to the client -/
  out : Bytes
  /-- the client has reset the connection -/
  reset : Bool
  /-- the `AfterFunc` of the handler has closed it -/
  closed : Bool
  /-- the connection has given its handler something bad -/
  bad : Bool
  /-- a handler had returned an error when it was accepted -/
  late : Bool

/-- What the handler of a connection does next. -/
inductive HandlerAct
  | advance
  | read (k : Nat)
  | eof
  | fail (cause : ConnError)

/-- What the handler of a connection does, with its reads and writes as the connection allows them.
-/
def Conn.handle (args : LoopArgs) (stopCh : Bool) (a : HandlerAct) (conn : Conn) : Option Conn :=
  match a with
  | .advance =>
    if conn.closed ∨ conn.reset then
      -- no write gets through, but the loop may still end
      match conn.handler.advance args stopCh true with
      | some ([], p) => some { conn with handler := p }
      | _ => none
    else
      (conn.handler.advance args stopCh true).map fun (bytes, p) =>
        { conn with handler := p, out := conn.out ++ bytes }
  | .read k =>
    if conn.closed ∨ conn.reset then none
    else
      (conn.handler.read args conn.up.queue k).map fun (p, queue) =>
        { conn with handler := p, up := { conn.up with queue := queue } }
  | .eof =>
    if conn.closed = false ∧ conn.reset = false ∧ conn.up.queue = [] ∧ conn.up.closed then
      (conn.handler.eof args).map fun p =>
        { conn with handler := p, bad := conn.bad || badEof args conn.handler }
    else none
  | .fail cause =>
    if conn.closed then
      if cause = .closed then (fail args stopCh cause conn.handler).map fun p =>
        { conn with handler := p }
      else none
    else if conn.reset ∧ (cause = .connReset ∨ cause = .brokenPipe) then
      (fail args stopCh cause conn.handler).map fun p => { conn with handler := p, bad := true }
    else none

/-- What a client does. -/
inductive ClientAct
  | send (bytes : Bytes)
  | close
  | reset

/-- What the client does. -/
def Conn.client (a : ClientAct) (conn : Conn) : Conn :=
  match a with
  | .send bytes => if conn.up.closed then conn else { conn with up := conn.up.write bytes }
  | .close => { conn with up := { conn.up with closed := true } }
  | .reset => { conn with reset := true }

/-- `Accept` with the connections it has accepted. -/
structure Server where
  conns : List Conn
  /-- `ctxGroup` is done -/
  cancelled : Bool
  /-- the `StopCh` is closed -/
  stopCh : Bool

inductive Action
  | accept
  | client (c : Nat) (a : ClientAct)
  | handle (c : Nat) (a : HandlerAct)
  -- the errgroup cancels its context
  | cancel
  -- the `AfterFunc` of a handler
  | afterFunc (c : Nat)
  | stop

/-- The arguments of the handlers' loops. -/
def serverArgs (stop : StopConditions) : LoopArgs := ⟨stop.numIterations, false⟩

/-- Some handler has failed. -/
def Server.anyFailed (s : Server) : Bool := s.conns.any fun conn => failed conn.handler

/-- Connection `c` becomes `conn`. -/
def Server.setConn (s : Server) (c : Nat) (conn : Conn) : Server :=
  { s with conns := s.conns.set c conn }

/-- What it does, or `none` where it cannot happen. -/
def act (stop : StopConditions) : Action → Server → Option Server
  | .accept, s =>
    some { s with conns := s.conns ++ [⟨.handler, {}, [], false, false, false, s.anyFailed⟩] }
  | .client c a, s => (s.conns[c]?).map fun conn => s.setConn c (conn.client a)
  | .handle c a, s => do
    let conn ← s.conns[c]?
    let conn ← conn.handle (serverArgs stop) s.stopCh a
    return s.setConn c conn
  | .cancel, s => if s.anyFailed then some { s with cancelled := true } else none
  | .afterFunc c, s => do
    let conn ← s.conns[c]?
    -- a handler that returns stops its `AfterFunc`
    if s.cancelled ∧ conn.handler.isReturned = false then
      return s.setConn c { conn with closed := true }
    else none
  | .stop, s => if stop.stopCh then some { s with stopCh := true } else none

/-- Nobody has connected yet. -/
def listening : Server := ⟨[], false, false⟩

/-- The runs of `Accept` with `ctx` unfinished. -/
def accept (stop : StopConditions) : System Server := .ofActions (fun s => s = listening) (act stop)

/-- A connection is accepted after some connection has given its handler something bad. -/
def acceptsAfterBad : Action → Server → Bool
  | .accept, s => s.conns.any (·.bad)
  | _, _ => false

/-- The actions less those. -/
def carefulAct (stop : StopConditions) (a : Action) (s : Server) : Option Server :=
  if acceptsAfterBad a s then none else act stop a s

/-- The runs without such an `Accept`. -/
def careful (stop : StopConditions) : System Server :=
  .ofActions (fun s => s = listening) (carefulAct stop)

/-- Accepted after a handler had failed, and closed without being served. -/
def ClosedUnserved (conn : Conn) : Prop :=
  conn.late = true ∧ conn.closed = true ∧ failed conn.handler = true

/-! ## A handler fails when its connection does -/

section Handler

variable {args : LoopArgs} {stopCh : Bool} {p p' : Party}

/-- A line that is read whole does not fail the handler. -/
theorem afterRead_line {i : Nat} {buf : Buffered} {tok : Bytes} :
    failed (afterRead args i buf p (readBytes tok none)) = false := by
  unfold readBytes afterRead
  simp only
  split
  next h => exact absurd h.2 (by simp)
  next =>
    split <;> exact Eq.refl _

theorem collect_ok {i : Nat} {r : Collected newline} (hr : ∀ tok, r ≠ .noProgress tok) :
    failed (collect args i p r) = false := by
  cases r with
  | more c => exact Eq.refl _
  | line tok rest h => exact afterRead_line
  | noProgress tok => exact absurd (Eq.refl _) (hr tok)

theorem advance_ok {pass : Bool} {bytes : Bytes}
    (h : p.advance args stopCh pass = some (bytes, p')) :
    failed p' = false := by
  unfold Party.advance at h
  split at h
  next i done bytes' buf hpc =>
    split at h
    next =>
      obtain ⟨-, rfl⟩ := Prod.mk.inj (Option.some.inj h)
      exact Eq.refl _
    next =>
      split at h
      next =>
        obtain ⟨-, rfl⟩ := Prod.mk.inj (Option.some.inj h)
        exact Eq.refl _
      next =>
        split at h
        next =>
          obtain ⟨-, rfl⟩ := Prod.mk.inj (Option.some.inj h)
          exact Eq.refl _
        next =>
          obtain ⟨-, rfl⟩ := Prod.mk.inj (Option.some.inj h)
          exact collect_ok fun tok => Collecting.resume_ne_noProgress
  next =>
    split at h
    next =>
      obtain ⟨-, rfl⟩ := Prod.mk.inj (Option.some.inj h)
      exact Eq.refl _
    next => cases h
  all_goals cases h

theorem read_ok {queue queue' : Bytes} {k : Nat} (h : p.read args queue k = some (p', queue')) :
    failed p' = false := by
  unfold Party.read at h
  split at h
  next => cases h
  next hne =>
    rw [not_or] at hne
    have hread : ∀ c : Collecting newline, ∀ tok, (readQueue c queue k).1 ≠ .noProgress tok := by
      intro c tok
      have hroom := c.room_pos
      have htake : queue.take (min k c.room) ≠ [] := by
        rw [ne_eq, List.take_eq_nil_iff, not_or]
        exact ⟨by omega, hne.1⟩
      have hfit : (queue.take (min k c.room)).length ≤ c.room :=
        Nat.le_trans (List.length_take_le ..) (Nat.min_le_right ..)
      intro hnone
      exact @Collecting.absorb_ne_noProgress newline c _ tok hfit htake hnone
    split at h
    next c hpc =>
      obtain ⟨rfl, -⟩ := Prod.mk.inj (Option.some.inj h)
      cases hr : (readQueue c queue k).1 with
      | more c' => exact Eq.refl _
      | line tok rest hle => exact Eq.refl _
      | noProgress tok => exact absurd hr (hread c tok)
    next i c hpc =>
      obtain ⟨rfl, -⟩ := Prod.mk.inj (Option.some.inj h)
      exact collect_ok (hread c)
    all_goals cases h

/-- The end of the stream is an error exactly where it is not expected. -/
theorem eof_failed (h : p.eof args = some p') : failed p' = badEof args p := by
  unfold Party.eof at h
  split at h
  next c hpc =>
    obtain rfl := Option.some.inj h
    have hbad : badEof args p = true := by
      unfold badEof
      rw [hpc]
    rw [hbad]
    unfold readBytes
    simp only
    split <;> exact Eq.refl _
  next i c hpc =>
    obtain rfl := Option.some.inj h
    have hbad : badEof args p = decide (c.seen ≠ [] ∨ args.numIterations ≠ 0) := by
      unfold badEof
      rw [hpc]
    rw [hbad]
    unfold readBytes
    by_cases hseen : c.seen = []
    · simp only [hseen, and_self, if_true, afterRead]
      by_cases hN : args.numIterations = 0
      · rw [if_neg (fun h => h.1 hN)]
        simp only [hN]
        split <;> exact Eq.refl _
      · rw [if_pos ⟨hN, trivial⟩]
        simp [failed, hN]
    · simp [hseen, afterRead, failed]
  all_goals cases h

/-- An error of the connection is one of the handler. -/
theorem fail_failed {cause : ConnError} (hcause : cause ≠ .eof)
    (h : fail args stopCh cause p = some p') : failed p' = true := by
  have hread : ∀ bytes, readBytes bytes (some cause) = (true, bytes,
      some (.readBytes bytes cause)) := by
    intro bytes
    exact if_neg fun hboth => hcause hboth.1
  unfold fail at h
  split at h
  next c hpc =>
    obtain rfl := Option.some.inj h
    rw [hread]
    exact Eq.refl _
  next i c hpc =>
    obtain rfl := Option.some.inj h
    rw [hread]
    exact Eq.refl _
  next i done bytes buf hpc =>
    split at h
    next => cases h
    next =>
      obtain rfl := Option.some.inj h
      exact Eq.refl _
  all_goals cases h

/-- A handler that has failed does nothing any more. -/
theorem handle_failed {conn : Conn} {a : HandlerAct} (h : failed conn.handler = true) :
    conn.handle args stopCh a = none := by
  obtain ⟨err, hpc⟩ : ∃ err, conn.handler.pc = .returned err := by
    unfold failed at h
    split at h
    next err hpc => exact ⟨_, hpc⟩
    next => cases h
  unfold Conn.handle
  cases a with
  | advance => simp [Party.advance, hpc]
  | read k => simp [Party.read, hpc]
  | eof => simp [Party.eof, hpc]
  | fail cause => simp [fail, hpc]

/-- What a step of a handler is to its connection: the handler goes on, or it fails and the
connection is bad, or the connection had been closed. -/
structure Conn.Handled (conn conn' : Conn) : Prop where
  late : conn'.late = conn.late
  closed : conn'.closed = conn.closed
  outcome : (conn'.bad = conn.bad ∧ failed conn'.handler = false) ∨
    (conn'.bad = true ∧ failed conn'.handler = true) ∨ (conn'.bad = conn.bad ∧ conn.closed = true)

/-- **A handler fails only if its connection has given it something bad or has been closed.** -/
theorem handle_cases {conn conn' : Conn} {a : HandlerAct}
    (h : conn.handle args stopCh a = some conn') : conn.Handled conn' := by
  unfold Conn.handle at h
  cases a with
  | advance =>
    simp only at h
    split at h
    next =>
      split at h
      next p hadv =>
        obtain rfl := Option.some.inj h
        exact ⟨Eq.refl _, Eq.refl _, Or.inl ⟨Eq.refl _, advance_ok hadv⟩⟩
      next => cases h
    next =>
      obtain ⟨⟨bytes, p⟩, hadv, rfl⟩ := Option.map_eq_some_iff.mp h
      exact ⟨Eq.refl _, Eq.refl _, Or.inl ⟨Eq.refl _, advance_ok hadv⟩⟩
  | read k =>
    simp only at h
    split at h
    next => cases h
    next =>
      obtain ⟨⟨p, queue⟩, hread, rfl⟩ := Option.map_eq_some_iff.mp h
      exact ⟨Eq.refl _, Eq.refl _, Or.inl ⟨Eq.refl _, read_ok hread⟩⟩
  | eof =>
    simp only at h
    split at h
    next =>
      obtain ⟨p, heof, rfl⟩ := Option.map_eq_some_iff.mp h
      have hf := eof_failed heof
      refine ⟨Eq.refl _, Eq.refl _, ?_⟩
      cases hbad : badEof args conn.handler with
      | true => exact Or.inr (Or.inl ⟨Bool.or_true _, hf.trans hbad⟩)
      | false => exact Or.inl ⟨Bool.or_false _, hf.trans hbad⟩
    next => cases h
  | fail cause =>
    simp only at h
    split at h
    next hclosed =>
      split at h
      next =>
        obtain ⟨p, -, rfl⟩ := Option.map_eq_some_iff.mp h
        exact ⟨Eq.refl _, Eq.refl _, Or.inr (Or.inr ⟨Eq.refl _, hclosed⟩)⟩
      next => cases h
    next =>
      split at h
      next hreset =>
        obtain ⟨p, hfail, rfl⟩ := Option.map_eq_some_iff.mp h
        refine ⟨Eq.refl _, Eq.refl _, Or.inr (Or.inl ⟨Eq.refl _, fail_failed ?_ hfail⟩)⟩
        rcases hreset.2 with rfl | rfl <;> decide
      next => cases h

end Handler

/-! ## What holds in every run -/

/-- Some client has been bad to its handler. -/
def Server.anyBad (s : Server) : Prop := ∃ conn ∈ s.conns, conn.bad = true

/-- Some handler has failed because its connection was bad, and only then is anything cancelled
or closed. -/
structure Inv (s : Server) : Prop where
  failed : ∀ conn ∈ s.conns, failed conn.handler = true → s.anyBad
  bad : ∀ conn ∈ s.conns, conn.bad = true → AcceptServe.failed conn.handler = true
  cancelled : s.cancelled = true → s.anyBad
  closed : ∀ conn ∈ s.conns, conn.closed = true → s.cancelled = true

section Runs

variable {stop : StopConditions} {s t : Server} {c : Nat} {conn conn' : Conn}

/-- A step at one connection. -/
theorem Inv.setConn (h : Inv s) (hc : s.conns[c]? = some conn)
    (hbad : conn.bad = true → conn'.bad = true)
    (hbadFailed : conn'.bad = true → AcceptServe.failed conn'.handler = true)
    (hclosed : conn'.closed = true → conn.closed = true ∨ s.cancelled = true)
    (hfailed : AcceptServe.failed conn'.handler = true →
      AcceptServe.failed conn.handler = true ∨ conn'.bad = true ∨ conn.closed = true) :
    Inv (s.setConn c conn') := by
  have hmem : conn ∈ s.conns := List.mem_of_getElem? hc
  obtain ⟨hlt, hget⟩ := List.getElem?_eq_some_iff.mp hc
  have hnew : conn' ∈ (s.setConn c conn').conns := List.mem_set hlt conn'
  have hany : s.anyBad → (s.setConn c conn').anyBad := by
    rintro ⟨other, hother, hb⟩
    obtain ⟨i, hi, rfl⟩ := List.getElem_of_mem hother
    by_cases hci : c = i
    · subst hci
      refine ⟨conn', hnew, hbad ?_⟩
      rw [← hget]
      exact hb
    · refine ⟨s.conns[i], ?_, hb⟩
      have : (s.conns.set c conn')[i]? = some s.conns[i] := by
        rw [List.getElem?_set_ne hci, List.getElem?_eq_getElem hi]
      exact List.mem_of_getElem? this
  refine ⟨?_, ?_, fun hcan => hany (h.cancelled hcan), ?_⟩
  · intro other hother hf
    rcases List.mem_or_eq_of_mem_set hother with hother | rfl
    · exact hany (h.failed other hother hf)
    · rcases hfailed hf with hf | hb | hcl
      · exact hany (h.failed conn hmem hf)
      · exact ⟨other, hnew, hb⟩
      · exact hany (h.cancelled (h.closed conn hmem hcl))
  · intro other hother hb
    rcases List.mem_or_eq_of_mem_set hother with hother | rfl
    · exact h.bad other hother hb
    · exact hbadFailed hb
  · intro other hother hcl
    rcases List.mem_or_eq_of_mem_set hother with hother | rfl
    · exact h.closed other hother hcl
    · rcases hclosed hcl with hcl | hcan
      · exact h.closed conn hmem hcl
      · exact hcan

/-- A step of a handler. -/
theorem handle_inv {args : LoopArgs} {stopCh : Bool} {a : HandlerAct} (h : Inv s)
    (hc : s.conns[c]? = some conn) (hact : conn.handle args stopCh a = some conn') :
    Inv (s.setConn c conn') := by
  have hgood : conn.bad = false := by
    by_contra hbad
    have hf := h.bad conn (List.mem_of_getElem? hc) (by simpa using hbad)
    rw [handle_failed hf] at hact
    cases hact
  obtain ⟨-, hclosed, hout⟩ := handle_cases hact
  have hsame : conn'.bad = conn.bad → conn'.bad ≠ true := by
    intro heq hbad
    rw [heq, hgood] at hbad
    cases hbad
  refine h.setConn hc (fun hb => ?_) (fun hb => ?_) (fun hcl => Or.inl (hclosed ▸ hcl)) fun hf => ?_
  · rw [hgood] at hb
    cases hb
  · rcases hout with ⟨hbad, -⟩ | ⟨-, hf⟩ | ⟨hbad, -⟩
    · exact absurd hb (hsame hbad)
    · exact hf
    · exact absurd hb (hsame hbad)
  · rcases hout with ⟨-, hok⟩ | ⟨hbad, -⟩ | ⟨-, hcl⟩
    · rw [hok] at hf
      cases hf
    · exact Or.inr (Or.inl hbad)
    · exact Or.inr (Or.inr hcl)

/-- What a client does keeps the invariant. -/
theorem client_inv (h : Inv s) (hc : s.conns[c]? = some conn) (a : ClientAct) :
    Inv (s.setConn c (conn.client a)) := by
  have hbad := h.bad conn (List.mem_of_getElem? hc)
  cases a with
  | send bytes =>
    unfold Conn.client
    simp only
    split
    · exact h.setConn hc id hbad Or.inl Or.inl
    · exact h.setConn hc id hbad Or.inl Or.inl
  | close => exact h.setConn hc id hbad Or.inl Or.inl
  | reset => exact h.setConn hc id hbad Or.inl Or.inl

/-- The server with another connection. -/
def Server.accepted (s : Server) : Server :=
  { s with conns := s.conns ++ [⟨.handler, {}, [], false, false, false, s.anyFailed⟩] }

/-- A connection that is accepted keeps it. -/
theorem accept_inv (h : Inv s) : Inv s.accepted := by
  have hold : s.anyBad → s.accepted.anyBad := by
    rintro ⟨conn, hmem, hbad⟩
    exact ⟨conn, List.mem_append_left _ hmem, hbad⟩
  refine ⟨?_, ?_, fun hcan => hold (h.cancelled hcan), ?_⟩
  · intro conn hmem hf
    rcases List.mem_append.mp hmem with hmem | hmem
    · exact hold (h.failed conn hmem hf)
    · rw [List.mem_singleton.mp hmem] at hf
      cases hf
  · intro conn hmem hb
    rcases List.mem_append.mp hmem with hmem | hmem
    · exact h.bad conn hmem hb
    · rw [List.mem_singleton.mp hmem] at hb
      cases hb
  · intro conn hmem hcl
    rcases List.mem_append.mp hmem with hmem | hmem
    · exact h.closed conn hmem hcl
    · rw [List.mem_singleton.mp hmem] at hcl
      cases hcl

/-- **One step keeps the invariant**, and marks as late exactly what is accepted after a handler
has failed. -/
theorem act_inv {a : Action} (h : Inv s) (hact : act stop a s = some t) :
    Inv t ∧ (t = s.accepted ∧ a = .accept ∨
      t.conns.map (·.late) = s.conns.map (·.late) ∧ a ≠ .accept) := by
  have hset : ∀ {c : Nat} {conn conn' : Conn}, s.conns[c]? = some conn → conn'.late = conn.late →
      (s.setConn c conn').conns.map (·.late) = s.conns.map (·.late) := by
    intro c conn conn' hc hlate
    obtain ⟨hlt, hget⟩ := List.getElem?_eq_some_iff.mp hc
    show (s.conns.set c conn').map (·.late) = _
    refine List.ext_getElem? fun i => ?_
    by_cases hci : c = i
    · subst hci
      simp [hlt, hget, hlate]
    · simp [List.getElem?_set_ne hci]
  cases a with
  | accept =>
    obtain rfl := Option.some.inj hact
    exact ⟨accept_inv h, Or.inl ⟨Eq.refl _, Eq.refl _⟩⟩
  | client c a =>
    obtain ⟨conn, hc, rfl⟩ := Option.map_eq_some_iff.mp hact
    refine ⟨client_inv h hc a, Or.inr ⟨hset hc ?_, by simp⟩⟩
    cases a with
    | send bytes =>
      unfold Conn.client
      simp only
      split <;> exact Eq.refl _
    | close => exact Eq.refl _
    | reset => exact Eq.refl _
  | handle c a =>
    obtain ⟨conn, hc, hact⟩ := Option.bind_eq_some_iff.mp hact
    obtain ⟨conn', hconn, hact⟩ := Option.bind_eq_some_iff.mp hact
    obtain rfl := Option.some.inj hact
    exact ⟨handle_inv h hc hconn, Or.inr ⟨hset hc (handle_cases hconn).late, by simp⟩⟩
  | cancel =>
    simp only [act] at hact
    split at hact
    next hany =>
      obtain rfl := Option.some.inj hact
      obtain ⟨conn, hmem, hf⟩ := List.any_eq_true.mp hany
      exact ⟨⟨h.failed, h.bad, fun _ => h.failed conn hmem hf, fun _ _ _ => Eq.refl _⟩,
        Or.inr ⟨Eq.refl _, by simp⟩⟩
    next => cases hact
  | afterFunc c =>
    obtain ⟨conn, hc, hact⟩ := Option.bind_eq_some_iff.mp hact
    split at hact
    next hcan =>
      obtain rfl := Option.some.inj hact
      have hbad := h.bad conn (List.mem_of_getElem? hc)
      exact ⟨h.setConn hc id hbad (fun _ => Or.inr hcan.1) Or.inl,
        Or.inr ⟨hset hc (Eq.refl _), by simp⟩⟩
    next => cases hact
  | stop =>
    simp only [act] at hact
    split at hact
    next =>
      obtain rfl := Option.some.inj hact
      exact ⟨⟨h.failed, h.bad, h.cancelled, h.closed⟩, Or.inr ⟨Eq.refl _, by simp⟩⟩
    next => cases hact

theorem accept_reachable (h : (accept stop).Reachable s) : Inv s := by
  refine h.invariant (P := Inv) ?_ ?_
  · intro s hs
    obtain rfl : s = listening := hs
    refine ⟨fun conn hmem => ?_, fun conn hmem => ?_, fun hcan =>
      (by cases hcan), fun conn hmem => ?_⟩
    all_goals cases hmem
  · rintro s t - hs ⟨a, hact⟩
    exact (act_inv hs hact).1

/-- **A handler has failed exactly if some connection has been bad.** -/
theorem Inv.anyFailed_iff (h : Inv s) : s.anyFailed = true ↔ s.anyBad := by
  constructor
  · intro hany
    obtain ⟨conn, hmem, hf⟩ := List.any_eq_true.mp hany
    exact h.failed conn hmem hf
  · rintro ⟨conn, hmem, hbad⟩
    exact List.any_eq_true.mpr ⟨conn, hmem, h.bad conn hmem hbad⟩

end Runs

/-! ## Careful runs -/

section Careful

variable {stop : StopConditions} {s t : Server} {a : Action}

/-- What the careful runs leave out. -/
theorem acceptsAfterBad_eq_true : acceptsAfterBad a s = true ↔ a = .accept ∧ s.anyBad := by
  cases a with
  | accept =>
    refine List.any_eq_true.trans ⟨fun ⟨conn, hmem, hbad⟩ => ⟨Eq.refl _, conn, hmem, hbad⟩, ?_⟩
    rintro ⟨-, conn, hmem, hbad⟩
    exact ⟨conn, hmem, hbad⟩
  | _ => simp [acceptsAfterBad]

/-- A careful action is an action that is not left out. -/
theorem carefulAct_eq_some :
    carefulAct stop a s = some t ↔ act stop a s = some t ∧ ¬(a = .accept ∧ s.anyBad) := by
  unfold carefulAct
  split
  next h => simp [acceptsAfterBad_eq_true.mp h]
  next h =>
    rw [acceptsAfterBad_eq_true] at h
    exact (and_iff_left h).symm

theorem accept_of_careful (h : (careful stop).Reachable s) : (accept stop).Reachable s := by
  have hstep : ∀ s t, (careful stop).step s t → (accept stop).step s t := by
    rintro s t ⟨a, hact⟩
    exact ⟨a, (carefulAct_eq_some.mp hact).1⟩
  have hinit : ∀ s, (careful stop).init s → (accept stop).init s := fun _ hs => hs
  exact h.mono hinit hstep

/-- No connection is late exactly if it was not before, and none is accepted too late. -/
theorem late_act (h : Inv s) (hact : act stop a s = some t) :
    (∀ conn ∈ t.conns, conn.late = false) ↔
      (∀ conn ∈ s.conns, conn.late = false) ∧ ¬(a = .accept ∧ s.anyBad) := by
  have hall : ∀ s : Server, (∀ conn ∈ s.conns, conn.late = false) ↔
      ∀ late ∈ s.conns.map (·.late), late = false := by
    intro s
    simp
  rcases (act_inv h hact).2 with ⟨rfl, rfl⟩ | ⟨hmap, hne⟩
  · rw [← h.anyFailed_iff]
    refine List.forall_mem_append.trans (and_congr_right fun _ =>
      List.forall_mem_singleton.trans ?_)
    simp
  · rw [hall, hmap, ← hall]
    exact (and_iff_left fun hboth => hne hboth.1).symm

/-- **The careful runs are those in which nothing is accepted after a handler has failed.** -/
theorem careful_iff :
    (careful stop).Reachable s ↔
      (accept stop).Reachable s ∧ ∀ conn ∈ s.conns, conn.late = false := by
  constructor
  · intro h
    refine ⟨accept_of_careful h, ?_⟩
    refine h.invariant (P := fun s => ∀ conn ∈ s.conns, conn.late = false) ?_ ?_
    · intro s hs conn hmem
      obtain rfl : s = listening := hs
      cases hmem
    · rintro s t hs hlate ⟨a, hact⟩
      obtain ⟨hact, hgood⟩ := carefulAct_eq_some.mp hact
      exact (late_act (accept_reachable (accept_of_careful hs)) hact).mpr ⟨hlate, hgood⟩
  · rintro ⟨h, hlate⟩
    induction h with
    | start h0 => exact .start h0
    | next hs hstep ih =>
      obtain ⟨a, hact⟩ := hstep
      obtain ⟨hbefore, hgood⟩ := (late_act (accept_reachable hs) hact).mp hlate
      exact .next (ih hbefore) ⟨a, carefulAct_eq_some.mpr ⟨hact, hgood⟩⟩

/-- **What is accepted after a handler has failed may be closed unserved.** -/
theorem closedUnserved_of_anyBad (h : (accept stop).Reachable s) (hbad : s.anyBad) :
    ∃ t, Relation.ReflTransGen (accept stop).step s t ∧ ∃ conn ∈ t.conns, ClosedUnserved conn := by
  have hany := (accept_reachable h).anyFailed_iff.mpr hbad
  have hnew : s.accepted.conns[s.conns.length]? =
      some ⟨.handler, {}, [], false, false, false, s.anyFailed⟩ := List.getElem?_concat_length ..
  have hanyNew : s.accepted.anyFailed = true := by
    obtain ⟨conn, hmem, hf⟩ := List.any_eq_true.mp hany
    exact List.any_eq_true.mpr ⟨conn, List.mem_append_left _ hmem, hf⟩
  -- it is accepted, the group cancels its context, and the connection is closed before it is read
  let cancelled : Server := { s.accepted with cancelled := true }
  let closed : Conn := ⟨.handler, {}, [], false, true, false, s.anyFailed⟩
  let failed : Conn := { closed with handler := ⟨.returned (some (.readBytes [] .closed)), none⟩ }
  have hset : ∀ conn, (cancelled.setConn s.conns.length conn).conns[s.conns.length]? =
      some conn := by
    intro conn
    refine List.getElem?_set_self ?_
    exact (List.getElem?_eq_some_iff.mp hnew).1
  have haccept : (accept stop).step s s.accepted := ⟨.accept, Eq.refl _⟩
  have hcancel : (accept stop).step s.accepted cancelled := ⟨.cancel, if_pos hanyNew⟩
  have hclose : (accept stop).step cancelled (cancelled.setConn s.conns.length closed) := by
    refine ⟨.afterFunc s.conns.length, ?_⟩
    show (cancelled.conns[s.conns.length]?).bind _ = _
    rw [show cancelled.conns[s.conns.length]? = _ from hnew, Option.bind_some]
    exact if_pos ⟨Eq.refl _, Eq.refl _⟩
  have hfail : (accept stop).step (cancelled.setConn s.conns.length closed)
      ((cancelled.setConn s.conns.length closed).setConn s.conns.length failed) := by
    refine ⟨.handle s.conns.length (.fail .closed), ?_⟩
    show ((cancelled.setConn s.conns.length closed).conns[s.conns.length]?).bind _ = _
    rw [hset closed, Option.bind_some]
    exact Eq.refl _
  refine ⟨_, .tail (.tail (.tail (.single haccept) hcancel) hclose) hfail, failed, ?_, hany,
    Eq.refl _, Eq.refl _⟩
  refine List.mem_set ?_ failed
  exact (List.getElem?_eq_some_iff.mp (hset closed)).1

end Careful

/-! ## The payoff -/

/-- **While no connection has been bad, `Accept` serves what it accepts.** In every run in
which it accepts nothing once a connection has given its handler something bad, no
connection is accepted after a handler has failed, let alone closed unserved. These are all
the runs in which none is accepted after a handler has failed; and where something bad has come,
what is accepted next may be closed unserved. -/
theorem accept_serves (stop : StopConditions) (s : Server) :
    ((careful stop).Reachable s → ∀ conn ∈ s.conns, conn.late = false ∧ ¬ ClosedUnserved conn) ∧
    ((careful stop).Reachable s ↔
      (accept stop).Reachable s ∧ ∀ conn ∈ s.conns, conn.late = false) ∧
    ((accept stop).Reachable s → s.anyBad →
      ∃ t, Relation.ReflTransGen (accept stop).step s t ∧
        ∃ conn ∈ t.conns, ClosedUnserved conn) := by
  refine ⟨fun h conn hmem => ?_, careful_iff, closedUnserved_of_anyBad⟩
  have hlate := (careful_iff.mp h).2 conn hmem
  refine ⟨hlate, fun hbad => ?_⟩
  rw [hbad.1] at hlate
  cases hlate

/-- Two connections, the first one closed by its client after a line. -/
theorem accept_serves_two :
    ∃ s, (careful ⟨0, true⟩).Reachable s ∧ s.conns.length = 2 ∧
      ∀ conn ∈ s.conns, conn.late = false ∧ ¬ ClosedUnserved conn := by
  have hrun : (System.runActions (carefulAct ⟨0, true⟩) [.accept, .client 0 (.send [97, newline]),
      .client 0 .close, .handle 0 (.read 2), .handle 0 .advance, .handle 0 .eof, .handle 0 .advance,
      .accept] listening).isSome = true := rfl
  have hreach : (careful ⟨0, true⟩).Reachable _ :=
    System.reachable_of_runActions (.start (Eq.refl _)) (Option.some_get hrun).symm
  exact ⟨_, hreach, rfl, (accept_serves _ _).1 hreach⟩

/-- A client connects and closes without a word; the next one is accepted, sends a line and
is closed. -/
theorem accept_closes_unserved :
    ¬ ∀ s, (accept ⟨0, true⟩).Reachable s → ∀ conn ∈ s.conns, ¬ ClosedUnserved conn := by
  intro hall
  have hrun : (System.runActions (act ⟨0, true⟩) [.accept, .client 0 .close,
    .handle 0 .eof, .cancel,
      .accept, .client 1 (.send [97, newline]), .afterFunc 1, .handle 1 (.fail .closed)]
      listening).isSome = true := rfl
  have hreach : (accept ⟨0, true⟩).Reachable _ :=
    System.reachable_of_runActions (.start (Eq.refl _)) (Option.some_get hrun).symm
  exact hall _ hreach _ (List.mem_cons_of_mem _ (List.mem_singleton.mpr rfl)) ⟨rfl, rfl, rfl⟩

end AcceptServe

end ShouldIAsync.Echo
