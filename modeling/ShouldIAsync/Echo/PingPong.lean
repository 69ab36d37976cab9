import ShouldIAsync.Echo.Tcp

/-!
# The conversation on one connection

What a connection is for: one message goes up, comes back down, and goes up again,
until one side leaves between two trips. `Phase` is that conversation on its own, with
`Phase.Step` its moves and nothing in it about buffers, loops or end-of-file, and
`Phase.link` is the connection in each phase: both program counters, both counts and
both streams. `link_step` is the refinement: whatever the connection does next is a
move of the conversation.

The handler is one trip behind the client by its extra first read, and catches up with
the end-of-file it counts as an iteration.
-/

namespace ShouldIAsync.Echo

open ShouldIAsync.GoStd

/-- The phases of a conversation; `i` trips are complete. -/
inductive Phase
  /-- the client is about to send -/
  | clientTurn (i : Nat)
  /-- the client has completed its first trip and waits for the other clients -/
  | barrier
  /-- on the way up: what the handler has read, and what is still queued -/
  | up (i : Nat) (c : Collecting newline) (rest : Bytes)
  /-- the handler has the message -/
  | serverTurn (i : Nat)
  /-- on the way down -/
  | down (i : Nat) (c : Collecting newline) (rest : Bytes)
  /-- the client has left after `i + 1` trips -/
  | hungUp (i : Nat)
  /-- and the handler has seen it -/
  | hangUpSeen (i : Nat)
  /-- and left too -/
  | overClient (i : Nat)
  /-- the client has left before its first trip -/
  | refused
  /-- and the handler, which had expected a message, has failed -/
  | failed
  /-- the handler has left with the message of the trip after `i` -/
  | serverLeft (i : Nat)
  /-- the client has seen it, and waits for the other clients -/
  | leftAtBarrier
  /-- the client has seen it -/
  | leftSeen (i : Nat)
  /-- and left too -/
  | overServer (i : Nat)

/-- The count after `i` iterations: there is none before the first. -/
def counted (i : Nat) : Option Nat := if i = 0 then none else some i

@[simp] theorem counted_zero : counted 0 = none := rfl

@[simp] theorem counted_succ (i : Nat) : counted (i + 1) = some (i + 1) := rfl

theorem counted_getD (i : Nat) : (counted i).getD 0 = i := by
  cases i <;> rfl

/-- A handler that waits for a message, `i` trips complete. -/
def waiting (i : Nat) (c : Collecting newline) : Party :=
  match i with
  | 0 => ⟨.firstRead c, none⟩
  | i + 1 => ⟨.reading i c, counted i⟩

/-- A party that has just sent its message for the trip after `i`. -/
def sent (i : Nat) : Party := ⟨.reading i (.start newline), counted i⟩

/-- The connection in a phase of a conversation about the message `m`. -/
def Phase.link (m : Bytes) : Phase → Link
  | .clientTurn i => ⟨⟨.head i false m .empty, counted i⟩, waiting i (.start newline), {}, {}⟩
  | .barrier => ⟨⟨.barrier false m .empty, counted 1⟩, waiting 1 (.start newline), {}, {}⟩
  | .up i c rest => ⟨sent i, waiting i c, ⟨rest, false⟩, {}⟩
  | .serverTurn i => ⟨sent i, ⟨.head i false m .empty, counted i⟩, {}, {}⟩
  | .down i c rest => ⟨⟨.reading i c, counted i⟩, sent i, {}, ⟨rest, false⟩⟩
  | .hungUp i => ⟨⟨.returned none, counted (i + 1)⟩, sent i, ⟨[], true⟩, {}⟩
  | .hangUpSeen i =>
    ⟨⟨.returned none, counted (i + 1)⟩, ⟨.head (i + 1) true [] .empty, counted (i + 1)⟩,
      ⟨[], true⟩, {}⟩
  | .overClient i =>
    ⟨⟨.returned none, counted (i + 1)⟩, ⟨.returned none, counted (i + 1)⟩, ⟨[], true⟩, ⟨[], true⟩⟩
  | .refused => ⟨⟨.returned none, none⟩, .handler, ⟨[], true⟩, {}⟩
  | .failed =>
    ⟨⟨.returned none, none⟩, ⟨.returned (some .serverUnexpectedEof), none⟩, ⟨[], true⟩, ⟨[], true⟩⟩
  | .serverLeft i => ⟨sent i, ⟨.returned none, counted i⟩, {}, ⟨[], true⟩⟩
  | .leftAtBarrier => ⟨⟨.barrier true [] .empty, counted 1⟩, ⟨.returned none, none⟩, {}, ⟨[], true⟩⟩
  | .leftSeen i =>
    ⟨⟨.head (i + 1) true [] .empty, counted (i + 1)⟩, ⟨.returned none, counted i⟩, {}, ⟨[], true⟩⟩
  | .overServer i =>
    ⟨⟨.returned none, counted (i + 1)⟩, ⟨.returned none, counted i⟩, ⟨[], true⟩, ⟨[], true⟩⟩

/-- The client may send: neither its iterations are through nor its `StopCh` closed. -/
def MaySend (cfg : Config) (env : Env) (i : Nat) : Prop :=
  (cfg.client.numIterations = 0 ∨ i < cfg.client.numIterations) ∧ env.clientStop = false

/-- The moves of a conversation. -/
inductive Phase.Step (cfg : Config) (env : Env) (m : Bytes) : Phase → Phase → Prop
  | send (i : Nat) : MaySend cfg env i → Step cfg env m (.clientTurn i) (.up i (.start newline) m)
  | hangUp (i : Nat) : ¬ MaySend cfg env (i + 1) → Step cfg env m (.clientTurn (i + 1)) (.hungUp i)
  | refuse : ¬ MaySend cfg env 0 → Step cfg env m (.clientTurn 0) .refused
  | pass : env.pass = true → Step cfg env m .barrier (.clientTurn 1)
  | carryUp (i : Nat) (c c' : Collecting newline) (rest rest' : Bytes) :
      c'.seen ++ rest' = m → rest'.length < rest.length →
      Step cfg env m (.up i c rest) (.up i c' rest')
  | arriveUp (i : Nat) (c : Collecting newline) (rest : Bytes) :
      rest ≠ [] → Step cfg env m (.up i c rest) (.serverTurn i)
  | answer (i : Nat) : env.serverStop = false →
      Step cfg env m (.serverTurn i) (.down i (.start newline) m)
  | leave (i : Nat) : env.serverStop = true → Step cfg env m (.serverTurn i) (.serverLeft i)
  | carryDown (i : Nat) (c c' : Collecting newline) (rest rest' : Bytes) :
      c'.seen ++ rest' = m → rest'.length < rest.length →
      Step cfg env m (.down i c rest) (.down i c' rest')
  | firstTrip (c : Collecting newline) (rest : Bytes) :
      rest ≠ [] → Step cfg env m (.down 0 c rest) .barrier
  | trip (i : Nat) (c : Collecting newline) (rest : Bytes) :
      rest ≠ [] → Step cfg env m (.down (i + 1) c rest) (.clientTurn (i + 2))
  | seeHangUp (i : Nat) : Step cfg env m (.hungUp i) (.hangUpSeen i)
  | endClient (i : Nat) : Step cfg env m (.hangUpSeen i) (.overClient i)
  | fail : Step cfg env m .refused .failed
  | seeLeftFirst : Step cfg env m (.serverLeft 0) .leftAtBarrier
  | seeLeft (i : Nat) : Step cfg env m (.serverLeft (i + 1)) (.leftSeen (i + 1))
  | passLeft : env.pass = true → Step cfg env m .leftAtBarrier (.leftSeen 0)
  | endServer (i : Nat) : Step cfg env m (.leftSeen i) (.overServer i)

/-- What is on its way is the message, and the handler only leaves clients that do not
count on it. -/
def Phase.Valid (cfg : Config) (m : Bytes) : Phase → Prop
  | .up _ c rest | .down _ c rest => c.seen ++ rest = m
  | .serverLeft _ => cfg.client.numIterations = 0
  | _ => True

/-- A server that may stop has clients without a number of iterations. -/
def Config.Mild (cfg : Config) (env : Env) : Prop :=
  cfg.server.numIterations = 0 ∧ (env.serverStop = true → cfg.client.numIterations = 0)

/-- A step leads from a phase that can be to another one. -/
theorem Phase.Step.valid {cfg : Config} {env : Env} {m : Bytes} {ph ph' : Phase}
    (hcfg : cfg.Mild env) (h : Phase.Step cfg env m ph ph') : ph'.Valid cfg m := by
  cases h with
  | send => exact List.nil_append m
  | answer => exact List.nil_append m
  | carryUp _ _ _ _ _ hm => exact hm
  | carryDown _ _ _ _ _ hm => exact hm
  | leave _ hstop => exact hcfg.2 hstop
  | _ => trivial

/-! ## The connection follows the conversation -/

section Refinement

variable {cfg : Config} {env : Env} {m : Bytes}

/-- A party that has returned does nothing more. -/
theorem partyAct_returned (args : LoopArgs) (stopCh pass : Bool) (a : Act) (err : Option EchoError)
    (count : Option Nat) (inp out : Stream) :
    partyAct args stopCh pass a ⟨.returned err, count⟩ inp out = none := by
  cases a with
  | advance => simp [partyAct, Party.advance]
  | read k => simp [partyAct, Party.read]
  | eof => simp [partyAct, Party.eof]

/-- A party at the head of its loop does not read. -/
theorem partyAct_head {args : LoopArgs} {stopCh pass : Bool} {a : Act} {i : Nat} {done : Bool}
    {bytes : Bytes} {buf : Buffered} {count : Option Nat} {inp out : Stream}
    {r : Party × Stream × Stream}
    (h : partyAct args stopCh pass a ⟨.head i done bytes buf, count⟩ inp out = some r) :
    a = .advance := by
  cases a with
  | advance => rfl
  | read k => simp [partyAct, Party.read] at h
  | eof => simp [partyAct, Party.eof] at h

/-- All that can happen at the barrier is that it lets pass. -/
theorem partyAct_barrier {args : LoopArgs} {stopCh pass : Bool} {a : Act} {done : Bool}
    {bytes : Bytes} {buf : Buffered} {count : Option Nat} {inp out : Stream}
    {r : Party × Stream × Stream}
    (h : partyAct args stopCh pass a ⟨.barrier done bytes buf, count⟩ inp out = some r) :
    a = .advance := by
  cases a with
  | advance => rfl
  | read k => simp [partyAct, Party.read] at h
  | eof => simp [partyAct, Party.eof] at h

@[simp] theorem closeAfter_head (s : Stream) (i : Nat) (done : Bool) (bytes : Bytes)
    (buf : Buffered) (count : Option Nat) : s.closeAfter ⟨.head i done bytes buf, count⟩ = s := by
  simp [Stream.closeAfter, Party.isReturned]

@[simp] theorem closeAfter_barrier (s : Stream) (done : Bool) (bytes : Bytes) (buf : Buffered)
    (count : Option Nat) : s.closeAfter ⟨.barrier done bytes buf, count⟩ = s := by
  simp [Stream.closeAfter, Party.isReturned]

@[simp] theorem closeAfter_reading (s : Stream) (i : Nat) (c : Collecting newline)
    (count : Option Nat) : s.closeAfter ⟨.reading i c, count⟩ = s := by
  simp [Stream.closeAfter, Party.isReturned]

@[simp] theorem closeAfter_firstRead (s : Stream) (c : Collecting newline) (count : Option Nat) :
    s.closeAfter ⟨.firstRead c, count⟩ = s := by
  simp [Stream.closeAfter, Party.isReturned]

/-- A party that returns closes its end. -/
@[simp] theorem closeAfter_returned (s : Stream) (err : Option EchoError) (count : Option Nat) :
    s.closeAfter ⟨.returned err, count⟩ = { s with closed := true } := by
  simp [Stream.closeAfter, Party.isReturned]

@[simp] theorem write_nil (s : Stream) : s.write [] = s := by
  simp [Stream.write]

@[simp] theorem write_empty (bytes : Bytes) : Stream.write {} bytes = ⟨bytes, false⟩ := by
  simp [Stream.write]

/-- A party that reads waits while nothing is queued and the stream is open. -/
theorem partyAct_idle {args : LoopArgs} {stopCh pass : Bool} {a : Act} {p : Party} {out : Stream}
    (hp : (∃ i c, p.pc = .reading i c) ∨ ∃ c, p.pc = .firstRead c) :
    partyAct args stopCh pass a p {} out = none := by
  cases a with
  | advance =>
    rcases hp with ⟨i, c, hp⟩ | ⟨c, hp⟩ <;> simp [partyAct, Party.advance, hp]
  | read k => simp [partyAct, Party.read]
  | eof => simp [partyAct]

/-- A message comes in, in the loop. -/
theorem partyAct_reading {args : LoopArgs} {stopCh pass : Bool} {a : Act} {i : Nat}
    {c : Collecting newline} {count : Option Nat} {rest : Bytes} {out : Stream}
    {r : Party × Stream × Stream} (hm : IsMessage m) (hseen : c.seen ++ rest = m)
    (h : partyAct args stopCh pass a ⟨.reading i c, count⟩ ⟨rest, false⟩ out = some r) :
    (∃ c' rest', c'.seen ++ rest' = m ∧ rest'.length < rest.length ∧
      r = (⟨.reading i c', count⟩, ⟨rest', false⟩, out)) ∨
    (rest ≠ [] ∧ ∃ p', p' = afterRead args i .empty ⟨.reading i c, count⟩ (false, m, none) ∧
      r = (p', {}, out.closeAfter p')) := by
  cases a with
  | advance => simp [partyAct, Party.advance] at h
  | eof => simp [partyAct] at h
  | read k =>
    simp only [partyAct, Party.read] at h
    split at h
    · cases h
    next hne =>
      rw [not_or] at hne
      rw [Option.map_some, Option.some_inj] at h
      rcases readQueue_message hm hseen hne.1 hne.2 with ⟨c', rest', hread, hm', hlt⟩ | ⟨hr, hread⟩
      · left
        rw [hread] at h
        refine ⟨c', rest', hm', hlt, ?_⟩
        rw [← h]
        simp [collect]
      · right
        rw [hread] at h
        exact ⟨hne.1, _, rfl, h.symm⟩

/-- A message comes in, before the loop. -/
theorem partyAct_firstRead {args : LoopArgs} {stopCh pass : Bool} {a : Act}
    {c : Collecting newline} {count : Option Nat} {rest : Bytes} {out : Stream}
    {r : Party × Stream × Stream} (hm : IsMessage m) (hseen : c.seen ++ rest = m)
    (h : partyAct args stopCh pass a ⟨.firstRead c, count⟩ ⟨rest, false⟩ out = some r) :
    (∃ c' rest', c'.seen ++ rest' = m ∧ rest'.length < rest.length ∧
      r = (⟨.firstRead c', count⟩, ⟨rest', false⟩, out)) ∨
    (rest ≠ [] ∧ r = (⟨.head 0 false m .empty, count⟩, {}, out)) := by
  cases a with
  | advance => simp [partyAct, Party.advance] at h
  | eof => simp [partyAct] at h
  | read k =>
    simp only [partyAct, Party.read] at h
    split at h
    · cases h
    next hne =>
      rw [not_or] at hne
      rw [Option.map_some, Option.some_inj] at h
      rcases readQueue_message hm hseen hne.1 hne.2 with ⟨c', rest', hread, hm', hlt⟩ | ⟨hr, hread⟩
      · left
        rw [hread] at h
        refine ⟨c', rest', hm', hlt, ?_⟩
        rw [← h]
        simp [collectFirst]
      · right
        rw [hread] at h
        refine ⟨hne.1, ?_⟩
        rw [← h]
        simp [collectFirst, readBytes, afterFirstRead]

/-- The end of the stream, after whole messages. -/
theorem partyAct_eof {args : LoopArgs} {stopCh pass : Bool} {a : Act} {p : Party} {out : Stream}
    {r : Party × Stream × Stream}
    (hp : (∃ i c, p.pc = .reading i c) ∨ ∃ c, p.pc = .firstRead c)
    (h : partyAct args stopCh pass a p ⟨[], true⟩ out = some r) :
    ∃ p', p.eof args = some p' ∧ r = (p', ⟨[], true⟩, out.closeAfter p') := by
  cases a with
  | advance =>
    rcases hp with ⟨i, c, hp⟩ | ⟨c, hp⟩ <;> simp [partyAct, Party.advance, hp] at h
  | read k => simp [partyAct, Party.read] at h
  | eof =>
    simp only [partyAct, and_self, if_true] at h
    obtain ⟨p', hp', hr⟩ := Option.map_eq_some_iff.mp h
    exact ⟨p', hp', hr.symm⟩

/-- A message that has come in completes an iteration without an error. -/
theorem afterRead_message (args : LoopArgs) (i : Nat) (c : Collecting newline) :
    afterRead args i .empty ⟨.reading i c, counted i⟩ (false, m, none) =
      ⟨if i = 0 ∧ args.connectBarrier then .barrier false m .empty
        else .head (i + 1) false m .empty, counted (i + 1)⟩ := by
  simp only [afterRead, Bool.false_eq_true, and_false, if_false, counted_getD, counted_succ]

/-- So does the end of the stream, unless the loop counts on its iterations. -/
theorem eof_sent {args : LoopArgs} (hargs : args.numIterations = 0) (i : Nat) :
    (sent i).eof args =
      some ⟨if i = 0 ∧ args.connectBarrier then .barrier true [] .empty
        else .head (i + 1) true [] .empty, counted (i + 1)⟩ := by
  simp only [sent, Party.eof, Collecting.seen_start, readBytes, and_self, if_true, afterRead, hargs,
    ne_eq, not_true_eq_false, false_and, if_false, counted_getD, counted_succ]

/-- A party that may not go on leaves, one that may sends its bytes and reads. -/
theorem advance_head {args : LoopArgs} {stopCh pass : Bool} {i : Nat} {count : Option Nat} :
    Party.advance args stopCh pass ⟨.head i false m .empty, count⟩ =
      if (args.numIterations = 0 ∨ i < args.numIterations) ∧ stopCh = false then
        some (m, ⟨.reading i (.start newline), count⟩)
      else some ([], ⟨.returned none, count⟩) := by
  simp only [Party.advance, Bool.false_eq_true, if_false, Buffered.empty, Collecting.resume_nil,
    collect]
  by_cases hlim : args.numIterations ≠ 0 ∧ args.numIterations ≤ i
  · rw [if_pos hlim, if_neg (by omega)]
  · rw [if_neg hlim]
    cases stopCh with
    | true => simp
    | false => rw [if_neg Bool.false_ne_true, if_pos ⟨by omega, rfl⟩]

/-! ### The client -/

/-- **What the client does is a move of the conversation.** -/
theorem client_step {ph : Phase} {a : Act} {l : Link} (hm : IsMessage m)
    (hv : ph.Valid cfg m) (h : (ph.link m).act cfg env .client a = some l) :
    ∃ ph', Phase.Step cfg env m ph ph' ∧ l = ph'.link m := by
  obtain ⟨⟨p, inp, out⟩, hact, hl⟩ := Option.map_eq_some_iff.mp h
  cases ph with
  | clientTurn i =>
    obtain rfl := partyAct_head hact
    simp only [Phase.link, partyAct, advance_head] at hact
    split at hact
    next hsend =>
      obtain ⟨rfl, rfl, rfl⟩ : _ ∧ _ ∧ _ := by simpa using hact
      exact ⟨_, .send i hsend, hl.symm⟩
    next hsend =>
      obtain ⟨rfl, rfl, rfl⟩ : _ ∧ _ ∧ _ := by simpa using hact
      cases i with
      | zero => exact ⟨_, .refuse hsend, hl.symm⟩
      | succ i => exact ⟨_, .hangUp i hsend, hl.symm⟩
  | barrier =>
    obtain rfl := partyAct_barrier hact
    simp only [Phase.link, partyAct, Party.advance] at hact
    split at hact
    next hpass =>
      obtain ⟨rfl, rfl, rfl⟩ : _ ∧ _ ∧ _ := by simpa using hact
      exact ⟨_, .pass hpass, hl.symm⟩
    · cases hact
  | up i c rest =>
    rw [Phase.link, sent, partyAct_idle (Or.inl ⟨_, _, rfl⟩)] at hact
    cases hact
  | serverTurn i =>
    rw [Phase.link, sent, partyAct_idle (Or.inl ⟨_, _, rfl⟩)] at hact
    cases hact
  | down i c rest =>
    rcases partyAct_reading hm hv hact with ⟨c', rest', hm', hlt, hr⟩ | ⟨hne, p', hp', hr⟩
    · obtain ⟨rfl, rfl, rfl⟩ : _ ∧ _ ∧ _ := by simpa using hr
      exact ⟨_, .carryDown i c c' rest rest' hm' hlt, hl.symm⟩
    · rw [afterRead_message] at hp'
      cases i with
      | zero =>
        simp only [and_self, if_true] at hp'
        rw [hp', closeAfter_barrier] at hr
        obtain ⟨rfl, rfl, rfl⟩ : _ ∧ _ ∧ _ := by simpa using hr
        exact ⟨_, .firstTrip c rest hne, hl.symm⟩
      | succ i =>
        simp only [Nat.add_one_ne_zero, false_and, if_false] at hp'
        rw [hp', closeAfter_head] at hr
        obtain ⟨rfl, rfl, rfl⟩ : _ ∧ _ ∧ _ := by simpa using hr
        exact ⟨_, .trip i c rest hne, hl.symm⟩
  | serverLeft i =>
    obtain ⟨p', hp', hr⟩ := partyAct_eof (Or.inl ⟨_, _, rfl⟩) hact
    have hargs : (⟨cfg.client.numIterations, true⟩ : LoopArgs).numIterations = 0 := hv
    rw [Phase.link, eof_sent hargs] at hp'
    obtain rfl := Option.some.inj hp'
    cases i with
    | zero =>
      obtain ⟨rfl, rfl, rfl⟩ : _ ∧ _ ∧ _ := by simpa using hr
      exact ⟨_, .seeLeftFirst, hl.symm⟩
    | succ i =>
      obtain ⟨rfl, rfl, rfl⟩ : _ ∧ _ ∧ _ := by simpa using hr
      exact ⟨_, .seeLeft i, hl.symm⟩
  | leftAtBarrier =>
    obtain rfl := partyAct_barrier hact
    simp only [Phase.link, partyAct, Party.advance] at hact
    split at hact
    next hpass =>
      obtain ⟨rfl, rfl, rfl⟩ : _ ∧ _ ∧ _ := by simpa using hact
      exact ⟨_, .passLeft hpass, hl.symm⟩
    · cases hact
  | leftSeen i =>
    obtain rfl := partyAct_head hact
    simp only [Phase.link, partyAct, Party.advance, if_true] at hact
    obtain ⟨rfl, rfl, rfl⟩ : _ ∧ _ ∧ _ := by simpa using hact
    exact ⟨_, .endServer i, hl.symm⟩
  | hungUp i =>
    rw [Phase.link, partyAct_returned] at hact
    cases hact
  | hangUpSeen i =>
    rw [Phase.link, partyAct_returned] at hact
    cases hact
  | overClient i =>
    rw [Phase.link, partyAct_returned] at hact
    cases hact
  | refused =>
    rw [Phase.link, partyAct_returned] at hact
    cases hact
  | failed =>
    rw [Phase.link, partyAct_returned] at hact
    cases hact
  | overServer i =>
    rw [Phase.link, partyAct_returned] at hact
    cases hact

/-! ### The handler -/

/-- A message comes in for a handler that waits. -/
theorem partyAct_waiting {args : LoopArgs} {stopCh pass : Bool} {a : Act} {i : Nat}
    {c : Collecting newline} {rest : Bytes} {out : Stream} {r : Party × Stream × Stream}
    (hargs : args.connectBarrier = false) (hm : IsMessage m) (hseen : c.seen ++ rest = m)
    (h : partyAct args stopCh pass a (waiting i c) ⟨rest, false⟩ out = some r) :
    (∃ c' rest', c'.seen ++ rest' = m ∧ rest'.length < rest.length ∧
      r = (waiting i c', ⟨rest', false⟩, out)) ∨
    (rest ≠ [] ∧ r = (⟨.head i false m .empty, counted i⟩, {}, out)) := by
  cases i with
  | zero => exact partyAct_firstRead hm hseen h
  | succ i =>
    rcases partyAct_reading hm hseen h with hmore | ⟨hne, p', hp', hr⟩
    · exact Or.inl hmore
    · right
      rw [afterRead_message] at hp'
      simp only [hargs, Bool.false_eq_true, and_false, if_false] at hp'
      refine ⟨hne, ?_⟩
      rw [hr, hp', closeAfter_head]

/-- A party that waits for a line can do nothing while none arrives. -/
theorem partyAct_waiting_idle (args : LoopArgs) (stopCh pass : Bool) (a : Act) (i : Nat)
    (c : Collecting newline) (out : Stream) :
    partyAct args stopCh pass a (waiting i c) {} out = none := by
  cases i with
  | zero => exact partyAct_idle (Or.inr ⟨c, rfl⟩)
  | succ i => exact partyAct_idle (Or.inl ⟨i, c, rfl⟩)

/-- **What the handler does is a move of the conversation.** -/
theorem server_step {ph : Phase} {a : Act} {l : Link} (hcfg : cfg.Mild env) (hm : IsMessage m)
    (hv : ph.Valid cfg m) (h : (ph.link m).act cfg env .server a = some l) :
    ∃ ph', Phase.Step cfg env m ph ph' ∧ l = ph'.link m := by
  obtain ⟨⟨p, inp, out⟩, hact, hl⟩ := Option.map_eq_some_iff.mp h
  cases ph with
  | clientTurn i =>
    rw [Phase.link, partyAct_waiting_idle] at hact
    cases hact
  | barrier =>
    rw [Phase.link, partyAct_waiting_idle] at hact
    cases hact
  | up i c rest =>
    rcases partyAct_waiting rfl hm hv hact with ⟨c', rest', hm', hlt, hr⟩ | ⟨hne, hr⟩
    · obtain ⟨rfl, rfl, rfl⟩ : _ ∧ _ ∧ _ := by simpa using hr
      exact ⟨_, .carryUp i c c' rest rest' hm' hlt, hl.symm⟩
    · obtain ⟨rfl, rfl, rfl⟩ : _ ∧ _ ∧ _ := by simpa using hr
      exact ⟨_, .arriveUp i c rest hne, hl.symm⟩
  | serverTurn i =>
    obtain rfl := partyAct_head hact
    simp only [Phase.link, partyAct, advance_head, hcfg.1, true_or, true_and] at hact
    split at hact
    next hstop =>
      obtain ⟨rfl, rfl, rfl⟩ : _ ∧ _ ∧ _ := by simpa using hact
      exact ⟨_, .answer i hstop, hl.symm⟩
    next hstop =>
      obtain ⟨rfl, rfl, rfl⟩ : _ ∧ _ ∧ _ := by simpa using hact
      exact ⟨_, .leave i (by simpa using hstop), hl.symm⟩
  | down i c rest =>
    rw [Phase.link, sent, partyAct_idle (Or.inl ⟨_, _, rfl⟩)] at hact
    cases hact
  | hungUp i =>
    obtain ⟨p', hp', hr⟩ := partyAct_eof (Or.inl ⟨_, _, rfl⟩) hact
    have hargs : (⟨cfg.server.numIterations, false⟩ : LoopArgs).numIterations = 0 := hcfg.1
    rw [Phase.link, eof_sent hargs] at hp'
    obtain rfl := Option.some.inj hp'
    obtain ⟨rfl, rfl, rfl⟩ : _ ∧ _ ∧ _ := by simpa using hr
    exact ⟨_, .seeHangUp i, hl.symm⟩
  | hangUpSeen i =>
    obtain rfl := partyAct_head hact
    simp only [Phase.link, partyAct, Party.advance, if_true] at hact
    obtain ⟨rfl, rfl, rfl⟩ : _ ∧ _ ∧ _ := by simpa using hact
    exact ⟨_, .endClient i, hl.symm⟩
  | refused =>
    obtain ⟨p', hp', hr⟩ := partyAct_eof (Or.inr ⟨_, rfl⟩) hact
    simp only [Phase.link, Party.handler, Party.eof, Collecting.seen_start, readBytes, and_self,
      if_true, afterFirstRead] at hp'
    obtain rfl := Option.some.inj hp'
    obtain ⟨rfl, rfl, rfl⟩ : _ ∧ _ ∧ _ := by simpa using hr
    exact ⟨_, .fail, hl.symm⟩
  | overClient i =>
    rw [Phase.link, partyAct_returned] at hact
    cases hact
  | failed =>
    rw [Phase.link, partyAct_returned] at hact
    cases hact
  | serverLeft i =>
    rw [Phase.link, partyAct_returned] at hact
    cases hact
  | leftAtBarrier =>
    rw [Phase.link, partyAct_returned] at hact
    cases hact
  | leftSeen i =>
    rw [Phase.link, partyAct_returned] at hact
    cases hact
  | overServer i =>
    rw [Phase.link, partyAct_returned] at hact
    cases hact

/-- **The connection refines the conversation.** -/
theorem link_step {ph : Phase} {side : Side} {a : Act} {l : Link} (hcfg : cfg.Mild env)
    (hm : IsMessage m) (hv : ph.Valid cfg m) (h : (ph.link m).act cfg env side a = some l) :
    ∃ ph', Phase.Step cfg env m ph ph' ∧ l = ph'.link m := by
  cases side with
  | client => exact client_step hm hv h
  | server => exact server_step hcfg hm hv h

/-! ### No move is blocked -/

/-- Both sides have left. -/
def Phase.Final : Phase → Prop
  | .overClient _ | .failed | .overServer _ => True
  | _ => False

/-- The client waits for the other clients. -/
def Phase.AtBarrier : Phase → Prop
  | .barrier | .leftAtBarrier => True
  | _ => False

/-- A message on its way is not complete as long as it is read. -/
theorem rest_ne_nil {c : Collecting newline} {rest : Bytes} (hm : IsMessage m)
    (h : c.seen ++ rest = m) : rest ≠ [] := by
  rintro rfl
  obtain ⟨body, rfl, -⟩ := hm
  apply c.noDelim
  rw [List.append_nil] at h
  show newline ∈ c.seen
  rw [h]
  simp

/-- Who is to read can read what has arrived. -/
theorem partyAct_read_ne_none {args : LoopArgs} {stopCh pass : Bool} {p : Party} {rest : Bytes}
    {closed : Bool} {out : Stream} (hrest : rest ≠ [])
    (hp : (∃ i c, p.pc = .reading i c) ∨ ∃ c, p.pc = .firstRead c) :
    partyAct args stopCh pass (.read 1) p ⟨rest, closed⟩ out ≠ none := by
  rcases hp with ⟨i, c, hp⟩ | ⟨c, hp⟩ <;> simp [partyAct, Party.read, hp, hrest]

/-- Who is to read sees the end of the stream. -/
theorem partyAct_eof_ne_none {args : LoopArgs} {stopCh pass : Bool} {p : Party} {out : Stream}
    (hp : (∃ i c, p.pc = .reading i c) ∨ ∃ c, p.pc = .firstRead c) :
    partyAct args stopCh pass .eof p ⟨[], true⟩ out ≠ none := by
  rcases hp with ⟨i, c, hp⟩ | ⟨c, hp⟩ <;> simp [partyAct, Party.eof, hp]

/-- The head of the loop can always go on. -/
theorem partyAct_head_ne_none {args : LoopArgs} {stopCh pass : Bool} {i : Nat} {done : Bool}
    {bytes : Bytes} {buf : Buffered} {count : Option Nat} {inp out : Stream} :
    partyAct args stopCh pass .advance ⟨.head i done bytes buf, count⟩ inp out ≠ none := by
  simp only [partyAct, Party.advance]
  split
  · simp
  · split
    · simp
    · split <;> simp

theorem partyAct_barrier_ne_none {args : LoopArgs} {stopCh : Bool} {done : Bool} {bytes : Bytes}
    {buf : Buffered} {count : Option Nat} {inp out : Stream} :
    partyAct args stopCh true .advance ⟨.barrier done bytes buf, count⟩ inp out ≠ none := by
  simp [partyAct, Party.advance]

theorem waiting_reads (i : Nat) (c : Collecting newline) :
    (∃ j c', (waiting i c).pc = .reading j c') ∨ ∃ c', (waiting i c).pc = .firstRead c' := by
  cases i with
  | zero => exact Or.inr ⟨c, rfl⟩
  | succ i => exact Or.inl ⟨i, c, rfl⟩

/-- A connection on which nothing can happen is over, or its client waits for others. -/
theorem link_progress {ph : Phase} (hm : IsMessage m) (hv : ph.Valid cfg m)
    (h : ∀ side a, (ph.link m).act cfg env side a = none) :
    ph.Final ∨ (ph.AtBarrier ∧ env.pass = false) := by
  have hclient := fun a => Option.map_eq_none_iff.mp (h .client a)
  have hserver := fun a => Option.map_eq_none_iff.mp (h .server a)
  have hpass : ∀ {done bytes buf count inp out}, partyAct ⟨cfg.client.numIterations, true⟩
      env.clientStop env.pass .advance ⟨.barrier done bytes buf, count⟩ inp out = none →
        env.pass = false := by
    intro done bytes buf count inp out hnone
    by_contra hne
    rw [(by simpa using hne : env.pass = true)] at hnone
    exact partyAct_barrier_ne_none hnone
  cases ph with
  | clientTurn i => exact absurd (hclient .advance) partyAct_head_ne_none
  | barrier => exact Or.inr ⟨trivial, hpass (hclient .advance)⟩
  | up i c rest =>
    exact absurd (hserver (.read 1)) (partyAct_read_ne_none (rest_ne_nil hm hv) (waiting_reads i c))
  | serverTurn i => exact absurd (hserver .advance) partyAct_head_ne_none
  | down i c rest =>
    exact absurd (hclient (.read 1))
      (partyAct_read_ne_none (rest_ne_nil hm hv) (Or.inl ⟨i, c, rfl⟩))
  | hungUp i => exact absurd (hserver .eof) (partyAct_eof_ne_none (Or.inl ⟨i, _, rfl⟩))
  | hangUpSeen i => exact absurd (hserver .advance) partyAct_head_ne_none
  | overClient i => exact Or.inl trivial
  | refused => exact absurd (hserver .eof) (partyAct_eof_ne_none (Or.inr ⟨_, rfl⟩))
  | failed => exact Or.inl trivial
  | serverLeft i => exact absurd (hclient .eof) (partyAct_eof_ne_none (Or.inl ⟨i, _, rfl⟩))
  | leftAtBarrier => exact Or.inr ⟨trivial, hpass (hclient .advance)⟩
  | leftSeen i => exact absurd (hclient .advance) partyAct_head_ne_none
  | overServer i => exact Or.inl trivial

/-! ### Every conversation comes to its end -/

/-- What each thing that may still happen weighs. -/
structure Weights where
  /-- a client before its trip after `i` -/
  head : Nat → Nat
  /-- and on it -/
  read : Nat → Nat
  /-- the handler with the message -/
  turn : Nat
  /-- a byte on its way up, and down -/
  up : Nat
  down : Nat

/-- What a client has still to do. -/
def clientWeight (w : Weights) (p : Party) : Nat :=
  match p.pc with
  | .head i false _ _ => w.head i
  | .head _ true _ _ => 1
  | .reading i _ => w.read i
  | .barrier false _ _ => w.head 1 + 1
  | .barrier true _ _ => 2
  | .firstRead _ | .returned _ => 0

/-- What a handler has still to do. -/
def handlerWeight (w : Weights) (p : Party) : Nat :=
  match p.pc with
  | .firstRead _ | .reading _ _ => 2
  | .head _ false _ _ => w.turn
  | .head _ true _ _ => 1
  | .barrier .. | .returned _ => 0

/-- What a link has still to do, its bytes on the way included. -/
def linkWeight (w : Weights) (l : Link) : Nat :=
  clientWeight w l.client + handlerWeight w l.handler + w.up * l.up.queue.length +
    w.down * l.down.queue.length

/-- The weights fit the moves that are open in `env`. -/
structure Weights.Fit (w : Weights) (cfg : Config) (env : Env) (m : Bytes) : Prop where
  send : ∀ i, MaySend cfg env i → w.read i + w.up * m.length < w.head i
  head_pos : ∀ i, 0 < w.head i
  arrive : w.turn < w.up + 2
  answer : env.serverStop = false → w.down * m.length + 2 < w.turn
  turn_pos : 0 < w.turn
  trip : ∀ i, w.head (i + 1) + 1 < w.read i + w.down
  read : ∀ i, 2 < w.read i
  up_pos : 0 < w.up
  down_pos : 0 < w.down

/-- The weight of a phase. -/
def Phase.weight (w : Weights) : Phase → Nat
  | .clientTurn i => w.head i + 2
  | .barrier => w.head 1 + 3
  | .up i _ rest => w.read i + 2 + w.up * rest.length
  | .serverTurn i => w.read i + w.turn
  | .down i _ rest => w.read i + 2 + w.down * rest.length
  | .serverLeft i => w.read i
  | .hungUp _ | .refused | .leftAtBarrier => 2
  | .hangUpSeen _ | .leftSeen _ => 1
  | .overClient _ | .failed | .overServer _ => 0

theorem handlerWeight_waiting (w : Weights) (i : Nat) (c : Collecting newline) :
    handlerWeight w (waiting i c) = 2 := by
  cases i <;> simp [waiting, handlerWeight]

theorem linkWeight_link (w : Weights) (ph : Phase) : linkWeight w (ph.link m) = ph.weight w := by
  cases ph with
  | clientTurn i => simp [Phase.link, linkWeight, clientWeight, handlerWeight_waiting, Phase.weight]
  | barrier => simp [Phase.link, linkWeight, clientWeight, handlerWeight_waiting, Phase.weight]
  | up i c rest =>
    simp [Phase.link, linkWeight, sent, clientWeight, handlerWeight_waiting, Phase.weight]
  | _ =>
    simp [Phase.link, linkWeight, sent, clientWeight, handlerWeight, Party.handler, Phase.weight]

/-- **Every move lowers the weight.** -/
theorem Phase.Step.weight {w : Weights} {ph ph' : Phase} (hw : w.Fit cfg env m)
    (h : Phase.Step cfg env m ph ph') : ph'.weight w < ph.weight w := by
  -- a queue that is not empty weighs at least as much as one byte
  have hbytes : ∀ {a : Nat} {rest : Bytes}, rest ≠ [] → a ≤ a * rest.length := by
    intro a rest hne
    exact Nat.le_mul_of_pos_right a (List.length_pos_iff.mpr hne)
  cases h with
  | send i hsend =>
    have := hw.send i hsend
    simp only [Phase.weight]
    omega
  | hangUp i =>
    have := hw.head_pos (i + 1)
    simp only [Phase.weight]
    omega
  | refuse =>
    have := hw.head_pos 0
    simp only [Phase.weight]
    omega
  | pass =>
    simp only [Phase.weight]
    omega
  | carryUp i c c' rest rest' hm hlt =>
    have := Nat.mul_lt_mul_of_pos_left hlt hw.up_pos
    simp only [Phase.weight]
    omega
  | arriveUp i c rest hne =>
    have h1 := hbytes (a := w.up) hne
    have h2 := hw.arrive
    simp only [Phase.weight]
    omega
  | answer i hstop =>
    have := hw.answer hstop
    simp only [Phase.weight]
    omega
  | leave i =>
    have := hw.turn_pos
    simp only [Phase.weight]
    omega
  | carryDown i c c' rest rest' hm hlt =>
    have := Nat.mul_lt_mul_of_pos_left hlt hw.down_pos
    simp only [Phase.weight]
    omega
  | firstTrip c rest hne =>
    have h1 := hbytes (a := w.down) hne
    have h2 : w.head 1 + 1 < w.read 0 + w.down := hw.trip 0
    simp only [Phase.weight]
    omega
  | trip i c rest hne =>
    have h1 := hbytes (a := w.down) hne
    have h2 : w.head (i + 2) + 1 < w.read (i + 1) + w.down := hw.trip (i + 1)
    simp only [Phase.weight]
    omega
  | seeLeftFirst =>
    have := hw.read 0
    simp only [Phase.weight]
    omega
  | seeLeft i =>
    have := hw.read (i + 1)
    simp only [Phase.weight]
    omega
  | _ =>
    simp only [Phase.weight]
    omega

end Refinement

end ShouldIAsync.Echo
