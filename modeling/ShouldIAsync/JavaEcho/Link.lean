import ShouldIAsync.JavaEcho.Common
import Mathlib.Data.Nat.Init

/-!
# One connection of the Java echo

A client, the `Server.handle` of its connection and the bytes on the way between them:
two streams that lose nothing and keep the order. A read returns any part of what is
queued that fits the buffer, of one byte at least (`Act.read`), and -1 when nothing is
left of a party that has closed its channel (`Act.eof`).

`link_step` says once what a step is, for a client that stops after `N` iterations and a
server that does not stop by itself; `link_stuck` says where nothing can happen.
-/

namespace ShouldIAsync.JavaEcho

open ShouldIAsync.JavaStd

/-- What a party can do next; a read takes as much as `k` bytes. -/
inductive Act
  | advance
  | read (k : Nat)
  | eof
  deriving DecidableEq

/-- The bytes the action takes from the stream. -/
def Act.chunk (a : Act) (inp : Bytes) : Bytes :=
  match a with
  | .read k => inp.take (min k capacity)
  | .advance | .eof => []

/-- A party acts: the party afterwards, and what it has written. -/
def partyAct (side : Side) (stopConditions : StopConditions) (a : Act) (p : Party) (inp : Bytes)
    (peerClosed : Bool) : Option (Party × Bytes) :=
  match a with
  | .advance => p.advance side stopConditions peerClosed
  | .read k =>
    if 0 < k ∧ inp ≠ [] then
      (p.read side stopConditions (some (a.chunk inp))).map fun p' => (p', [])
    else none
  | .eof =>
    if inp = [] ∧ peerClosed then (p.read side stopConditions none).map fun p' => (p', [])
    else none

/-- A connection with its client and its handler. -/
structure Link where
  client : Party
  server : Party
  /-- on the way to the server -/
  up : Bytes
  /-- on the way to the client -/
  down : Bytes

/-- The stop conditions of the clients, and of the server. -/
structure Config where
  client : StopConditions
  server : StopConditions

/-- Clients that stop after `N` iterations, a server that does not stop by itself. -/
def Config.iterations (N : Nat) : Config := ⟨.stopOnIterations N, .neverStops⟩

/-- What the side would take from its stream. -/
def Link.chunk (side : Side) (a : Act) (l : Link) : Bytes :=
  match side with
  | .client => a.chunk l.down
  | .server => a.chunk l.up

/-- What one end of a connection does. -/
def Link.act (cfg : Config) (side : Side) (a : Act) (l : Link) : Option Link :=
  match side with
  | .client =>
    (partyAct .client cfg.client a l.client l.down l.server.ended).map fun (p, written) =>
      { client := p, server := l.server, up := l.up ++ written,
        down := l.down.drop (l.chunk side a).length }
  | .server =>
    (partyAct .server cfg.server a l.server l.up l.client.ended).map fun (p, written) =>
      { client := l.client, server := p, up := l.up.drop (l.chunk side a).length,
        down := l.down ++ written }

/-- A connected client, and the handler of its connection. -/
def Link.start (name : Bytes) : Link := ⟨.client name, .server, [], []⟩

/-! ## What a party can do, by its place -/

/-- A read takes from the front. -/
theorem chunk_isPrefix (a : Act) (inp : Bytes) : a.chunk inp <+: inp := by
  cases a with
  | read k => exact List.take_prefix _ _
  | advance => exact List.nil_prefix
  | eof => exact List.nil_prefix

/-- What it takes and what it leaves is all there was. -/
theorem chunk_append_drop (a : Act) (inp : Bytes) :
    a.chunk inp ++ inp.drop (a.chunk inp).length = inp := by
  rw [List.prefix_iff_eq_append.mp (chunk_isPrefix a inp)]

section PartyAct

variable {side : Side} {stopConditions : StopConditions} {a : Act} {p p' : Party}
  {inp written : Bytes} {peerClosed : Bool} {i : Nat}

/-- A read of something takes something. -/
theorem chunk_read_ne_nil {k : Nat} (hk : 0 < k) (hinp : inp ≠ []) :
    (Act.read k).chunk inp ≠ [] := by
  have hpos := List.length_pos_iff.mpr hinp
  have hcap : capacity = 100 := Eq.refl _
  apply List.ne_nil_of_length_pos
  show 0 < (inp.take (min k capacity)).length
  rw [List.length_take]
  omega

/-- It takes as much as the buffer has room for at most. -/
theorem length_chunk_le (a : Act) (inp : Bytes) : (a.chunk inp).length ≤ capacity := by
  cases a with
  | read k =>
    show (inp.take (min k capacity)).length ≤ capacity
    rw [List.length_take]
    omega
  | advance => exact Nat.zero_le _
  | eof => exact Nat.zero_le _

/-- A thread that has left its method does nothing. -/
theorem partyAct_ended (hp : p.ended = true)
    (h : partyAct side stopConditions a p inp peerClosed = some (p', written)) : False := by
  unfold Party.ended at hp
  unfold partyAct Party.advance Party.read at h
  cases hpc : p.pc <;> rw [hpc] at hp h <;> simp only [Bool.false_eq_true] at hp
  all_goals
    split at h
    · cases h
    · split at h <;> cases h
    · split at h <;> cases h

/-- At the stop conditions. -/
theorem partyAct_head (hpc : p.pc = .head i) (hlen : p.bytes.length ≤ capacity)
    (h : partyAct side stopConditions a p inp peerClosed = some (p', written)) :
    a.chunk inp = [] ∧
    ((stopConditions.stopsAt i = true ∧ p'.Is (side.finish false) p.bytes p.count ∧ written = []) ∨
      (stopConditions.stopsAt i = false ∧ (p.bytes ≠ [] ∧ peerClosed = true) ∧
        p'.Is (.threw .io) p.bytes p.count ∧ written = []) ∨
      (stopConditions.stopsAt i = false ∧ (p.bytes = [] ∨ peerClosed = false) ∧
        p'.Is (.reading i) p.bytes p.count ∧ written = p.bytes)) := by
  have hwrite := write_eq (p.capacity_eq ▸ hlen) peerClosed
  cases a with
  | advance =>
    refine ⟨Eq.refl _, ?_⟩
    simp only [partyAct, Party.advance, hpc] at h
    by_cases hstop : stopConditions.stopsAt i = true
    · rw [if_pos hstop] at h
      obtain ⟨rfl, rfl⟩ := Prod.mk.inj (Option.some.inj h)
      exact Or.inl ⟨hstop, ⟨Eq.refl _, Eq.refl _, Eq.refl _⟩, Eq.refl _⟩
    · rw [if_neg hstop] at h
      rw [Bool.not_eq_true] at hstop
      by_cases hio : p.bytes ≠ [] ∧ peerClosed = true
      · rw [hwrite, if_pos hio] at h
        obtain ⟨rfl, rfl⟩ := Prod.mk.inj (Option.some.inj h)
        exact Or.inr (Or.inl ⟨hstop, hio, ⟨Eq.refl _, Eq.refl _, Eq.refl _⟩, Eq.refl _⟩)
      · rw [hwrite, if_neg hio] at h
        obtain ⟨rfl, rfl⟩ := Prod.mk.inj (Option.some.inj h)
        refine Or.inr (Or.inr ⟨hstop, ?_, ⟨Eq.refl _, Eq.refl _, Eq.refl _⟩, Eq.refl _⟩)
        rw [not_and_or, not_not, Bool.not_eq_true] at hio
        exact hio
  | read k =>
    simp [partyAct, Party.read, hpc] at h
  | eof =>
    simp [partyAct, Party.read, hpc] at h

/-- In the first read of the server. -/
theorem partyAct_firstRead (hpc : p.pc = .firstRead)
    (h : partyAct side stopConditions a p inp peerClosed = some (p', written)) :
    written = [] ∧ p'.Is (.head 0) (a.chunk inp) p.count ∧
      (a.chunk inp ≠ [] ∨ (inp = [] ∧ peerClosed = true)) := by
  cases a with
  | advance => simp [partyAct, Party.advance, hpc] at h
  | read k =>
    have hfit : ((Act.read k).chunk inp).length ≤ p.buf.capacity :=
      p.capacity_eq ▸ length_chunk_le _ _
    simp only [partyAct, Party.read, hpc] at h
    split at h
    next hk =>
      obtain ⟨rfl, rfl⟩ := Prod.mk.inj (Option.some.inj h)
      refine ⟨Eq.refl _, ⟨Eq.refl _, ?_, Eq.refl _⟩, Or.inl (chunk_read_ne_nil hk.1 hk.2)⟩
      exact (ByteBuffer.fill_clear hfit).2
    next => cases h
  | eof =>
    simp only [partyAct, Party.read, hpc] at h
    split at h
    next hend =>
      obtain ⟨rfl, rfl⟩ := Prod.mk.inj (Option.some.inj h)
      exact ⟨Eq.refl _, ⟨Eq.refl _, p.buf.filled_clear, Eq.refl _⟩, Or.inr hend⟩
    next => cases h

/-- How a read ends at the end of the stream. -/
def endOfStream (side : Side) (stopConditions : StopConditions) : Pc :=
  if stopConditions.iterations.isSome then .threw (.illegalState .iterations) else side.finish true

/-- In the read of an iteration. -/
theorem partyAct_reading (hpc : p.pc = .reading i)
    (h : partyAct side stopConditions a p inp peerClosed = some (p', written)) :
    written = [] ∧
    ((a.chunk inp = [] ∧ inp = [] ∧ peerClosed = true ∧
        p'.Is (endOfStream side stopConditions) p.bytes p.count) ∨
      (a.chunk inp ≠ [] ∧ a.chunk inp = p.bytes ∧ p'.Is (.head (i + 1)) p.bytes (p.count + 1)) ∨
      (a.chunk inp ≠ [] ∧ a.chunk inp ≠ p.bytes ∧
        ∃ check, p'.Is (.threw (.illegalState check)) p.bytes p.count)) := by
  cases a with
  | advance => simp [partyAct, Party.advance, hpc] at h
  | read k =>
    have hfit : ((Act.read k).chunk inp).length ≤ p.buf.capacity :=
      p.capacity_eq ▸ length_chunk_le _ _
    have hread := read_some hfit p.bytes
    simp only [partyAct, Party.read, hpc] at h
    split at h
    next hk =>
      have hne := chunk_read_ne_nil hk.1 hk.2
      rw [hread] at h
      by_cases hsame : (Act.read k).chunk inp = p.bytes
      · rw [hsame, checkRead_self] at h
        obtain ⟨rfl, rfl⟩ := Prod.mk.inj (Option.some.inj h)
        exact ⟨Eq.refl _, Or.inr (Or.inl ⟨hne, hsame, Eq.refl _, Eq.refl _, Eq.refl _⟩)⟩
      · obtain ⟨check, hcheck⟩ := checkRead_ne hsame
        rw [hcheck] at h
        obtain ⟨rfl, rfl⟩ := Prod.mk.inj (Option.some.inj h)
        exact ⟨Eq.refl _, Or.inr (Or.inr ⟨hne, hsame, check, Eq.refl _, Eq.refl _, Eq.refl _⟩)⟩
    next => cases h
  | eof =>
    simp only [partyAct, Party.read, hpc, read_none] at h
    split at h
    next hend =>
      have hpc' : p'.Is (endOfStream side stopConditions) p.bytes p.count ∧ written = [] := by
        unfold endOfStream
        by_cases hiter : stopConditions.iterations.isSome = true
        · rw [if_pos hiter] at h ⊢
          obtain ⟨rfl, rfl⟩ := Prod.mk.inj (Option.some.inj h)
          exact ⟨⟨Eq.refl _, Eq.refl _, Eq.refl _⟩, Eq.refl _⟩
        · rw [if_neg hiter] at h ⊢
          obtain ⟨rfl, rfl⟩ := Prod.mk.inj (Option.some.inj h)
          exact ⟨⟨Eq.refl _, Eq.refl _, Eq.refl _⟩, Eq.refl _⟩
      exact ⟨hpc'.2, Or.inl ⟨Eq.refl _, hend.1, hend.2, hpc'.1⟩⟩
    next => cases h

/-- Who is at its stop conditions can go on. -/
theorem partyAct_head_some (side : Side) (hpc : p.pc = .head i) :
    ∃ r, partyAct side stopConditions .advance p inp peerClosed = some r := by
  simp only [partyAct, Party.advance, hpc]
  split_ifs
  · exact ⟨_, Eq.refl _⟩
  · cases (write p.buf p.bytes peerClosed).2 with
    | ok written => exact ⟨_, Eq.refl _⟩
    | error e => exact ⟨_, Eq.refl _⟩

/-- The party is in a read. -/
def Party.InRead (p : Party) : Prop := p.pc = .firstRead ∨ ∃ i, p.pc = .reading i

/-- A party in a read takes what is coming in. -/
theorem party_read_some (side : Side) (hp : p.InRead) (incoming : Option Bytes) :
    ∃ p', p.read side stopConditions incoming = some p' := by
  unfold Party.read
  rcases hp with hpc | ⟨i, hpc⟩
  · rw [hpc]
    exact ⟨_, Eq.refl _⟩
  · rw [hpc]
    simp only
    split
    · exact ⟨_, Eq.refl _⟩
    · split_ifs
      · exact ⟨_, Eq.refl _⟩
      · exact ⟨_, Eq.refl _⟩
    · exact ⟨_, Eq.refl _⟩

theorem partyAct_read_some (side : Side) {k : Nat} (hp : p.InRead) (hk : 0 < k) (hinp : inp ≠ []) :
    ∃ r, partyAct side stopConditions (.read k) p inp peerClosed = some r := by
  obtain ⟨p', hp'⟩ := party_read_some side hp (some ((Act.read k).chunk inp))
  exact ⟨(p', []), by rw [partyAct, if_pos ⟨hk, hinp⟩, hp', Option.map_some]⟩

theorem partyAct_eof_some (side : Side) (hp : p.InRead) (hinp : inp = [])
    (hpeer : peerClosed = true) :
    ∃ r, partyAct side stopConditions .eof p inp peerClosed = some r := by
  obtain ⟨p', hp'⟩ := party_read_some side hp none
  exact ⟨(p', []), by rw [partyAct, if_pos ⟨hinp, hpeer⟩, hp', Option.map_some]⟩

/-- A thread is at the stop conditions, in a read, or has left its method. -/
theorem party_place (p : Party) : (∃ i, p.pc = .head i) ∨ p.InRead ∨ p.ended = true := by
  unfold Party.InRead Party.ended
  cases hpc : p.pc with
  | head i => exact Or.inl ⟨i, Eq.refl _⟩
  | firstRead => exact Or.inr (Or.inl (Or.inl (Eq.refl _)))
  | reading i => exact Or.inr (Or.inl (Or.inr ⟨i, Eq.refl _⟩))
  | returned isEOF => exact Or.inr (Or.inr (Eq.refl _))
  | threw e => exact Or.inr (Or.inr (Eq.refl _))

end PartyAct

/-! ## What one step of a connection is -/

/-- The party has ended with an exception. -/
def Party.Threw (p : Party) : Prop := ∃ e, p.pc = .threw e

/-- A step of the client that takes `got`: it leaves after `N` iterations, writes, gets its
bytes back, or throws, on a closed channel or over bytes it does not expect. -/
inductive ClientStep (N : Nat) (l l' : Link) (got : Bytes) : Prop
  | leave (i : Nat) (hpc : l.client.pc = .head i) (hi : N ≤ i) (hgot : got = [])
      (hclient : l'.client.Is (.returned false) l.client.bytes l.client.count) (hup : l'.up = l.up)
  | write (i : Nat) (hpc : l.client.pc = .head i) (hi : i < N) (hgot : got = [])
      (hclient : l'.client.Is (.reading i) l.client.bytes l.client.count)
      (hup : l'.up = l.up ++ l.client.bytes)
  | echo (i : Nat) (hpc : l.client.pc = .reading i) (hgot : got = l.client.bytes) (hne : got ≠ [])
      (hclient : l'.client.Is (.head (i + 1)) l.client.bytes (l.client.count + 1))
        (hup : l'.up = l.up)
  | fail (e : Thrown) (hclient : l'.client.Is (.threw e) l.client.bytes l.client.count)
      (hup : l'.up = l.up) (hwhy : l.server.ended = true ∨ (got ≠ [] ∧ got ≠ l.client.bytes))
      (hpc : l.client.ended = false)

/-- A step of the server that takes `got`. -/
inductive ServerStep (l l' : Link) (got : Bytes) : Prop
  | first (hpc : l.server.pc = .firstRead) (hserver : l'.server.Is (.head 0) got l.server.count)
      (hgot : got ≠ [] ∨ (l.up = [] ∧ l.client.ended = true)) (hlen : got.length ≤ capacity)
      (hdown : l'.down = l.down)
  | write (i : Nat) (hpc : l.server.pc = .head i) (hgot : got = [])
      (hopen : l.server.bytes = [] ∨ l.client.ended = false)
      (hserver : l'.server.Is (.reading i) l.server.bytes l.server.count)
      (hdown : l'.down = l.down ++ l.server.bytes)
  | echo (i : Nat) (hpc : l.server.pc = .reading i) (hgot : got = l.server.bytes) (hne : got ≠ [])
      (hserver : l'.server.Is (.head (i + 1)) l.server.bytes (l.server.count + 1))
      (hdown : l'.down = l.down)
  | leave (i : Nat) (hpc : l.server.pc = .reading i) (hgot : got = []) (hup : l.up = [])
      (hclosed : l.client.ended = true)
      (hserver : l'.server.Is (.returned true) l.server.bytes l.server.count)
        (hdown : l'.down = l.down)
  | fail (e : Thrown) (hserver : l'.server.Is (.threw e) l.server.bytes l.server.count)
      (hdown : l'.down = l.down)
      (hwhy : (l.server.bytes ≠ [] ∧ l.client.ended = true ∧ ∃ i, l.server.pc = .head i) ∨
        (got ≠ [] ∧ got ≠ l.server.bytes ∧ ∃ i, l.server.pc = .reading i))

/-- What one action is, with what it takes from its stream. -/
inductive Link.Step (N : Nat) (l l' : Link) : (got : Bytes) → Prop
  | client {got : Bytes} (hserver : l'.server = l.server) (hdown : l.down = got ++ l'.down)
      (h : ClientStep N l l' got) : Link.Step N l l' got
  | server {got : Bytes} (hclient : l'.client = l.client) (hup : l.up = got ++ l'.up)
      (h : ServerStep l l' got) : Link.Step N l l' got

/-- The client stops after `N` iterations. -/
theorem stopsAt_iterations (N i : Nat) : (Config.iterations N).client.stopsAt i = decide (N ≤ i) :=
  Bool.or_false _

/-- The handler does not stop by itself. -/
theorem stopsAt_never (N i : Nat) : (Config.iterations N).server.stopsAt i = false := Eq.refl _

/-- **One step of a connection.** -/
theorem link_step {N : Nat} {l l' : Link} {side : Side} {a : Act}
    (hclient : l.client.bytes.length ≤ capacity) (hserver : l.server.bytes.length ≤ capacity)
    (hfirst : l.client.pc ≠ .firstRead) (h : l.act (.iterations N) side a = some l') :
    Link.Step N l l' (l.chunk side a) := by
  cases side with
  | client =>
    obtain ⟨⟨p, written⟩, hact, rfl⟩ := Option.map_eq_some_iff.mp h
    refine .client (Eq.refl _) (chunk_append_drop a l.down).symm ?_
    rcases party_place l.client with ⟨i, hpc⟩ | (hpc | ⟨i, hpc⟩) | hended
    · obtain ⟨hgot, hcase⟩ := partyAct_head hpc hclient hact
      rw [stopsAt_iterations] at hcase
      rcases hcase with ⟨hstop, hp, rfl⟩ | ⟨-, hio, hp, rfl⟩ | ⟨hgo, -, hp, rfl⟩
      · exact .leave i hpc (of_decide_eq_true hstop) hgot hp (List.append_nil _)
      · exact .fail .io hp (List.append_nil _) (Or.inl hio.2) (by rw [Party.ended, hpc])
      · exact .write i hpc (Nat.lt_of_not_le (of_decide_eq_false hgo)) hgot hp (Eq.refl _)
    · exact absurd hpc hfirst
    · have hopen : l.client.ended = false := by rw [Party.ended, hpc]
      obtain ⟨rfl, ⟨-, -, hclosed, hp⟩ | ⟨hne, hgot, hp⟩ | ⟨hne, hgot, check, hp⟩⟩ :=
        partyAct_reading hpc hact
      · exact .fail (.illegalState .iterations) hp (List.append_nil _) (Or.inl hclosed) hopen
      · exact .echo i hpc hgot hne hp (List.append_nil _)
      · exact .fail (.illegalState check) hp (List.append_nil _) (Or.inr ⟨hne, hgot⟩) hopen
    · exact (partyAct_ended hended hact).elim
  | server =>
    obtain ⟨⟨p, written⟩, hact, rfl⟩ := Option.map_eq_some_iff.mp h
    refine .server (Eq.refl _) (chunk_append_drop a l.up).symm ?_
    rcases party_place l.server with ⟨i, hpc⟩ | (hpc | ⟨i, hpc⟩) | hended
    · obtain ⟨hgot, hcase⟩ := partyAct_head hpc hserver hact
      rw [stopsAt_never] at hcase
      rcases hcase with ⟨hstop, -⟩ | ⟨-, hio, hp, rfl⟩ | ⟨-, hopen, hp, rfl⟩
      · exact absurd hstop Bool.false_ne_true
      · exact .fail .io hp (List.append_nil _) (Or.inl ⟨hio.1, hio.2, i, hpc⟩)
      · exact .write i hpc hgot hopen hp (Eq.refl _)
    · obtain ⟨rfl, hp, hgot⟩ := partyAct_firstRead hpc hact
      exact .first hpc hp hgot (length_chunk_le a l.up) (List.append_nil _)
    · obtain ⟨rfl, ⟨hgot, hup, hclosed, hp⟩ | ⟨hne, hgot, hp⟩ | ⟨hne, hgot, check, hp⟩⟩ :=
        partyAct_reading hpc hact
      · exact .leave i hpc hgot hup hclosed hp (List.append_nil _)
      · exact .echo i hpc hgot hne hp (List.append_nil _)
      · exact .fail (.illegalState check) hp (List.append_nil _) (Or.inr ⟨hne, hgot, i, hpc⟩)
    · exact (partyAct_ended hended hact).elim

/-- The threads of a connection on which nothing can happen: the server waits for the
client, or has left; so does the client, unless the server has left. -/
theorem link_stuck {cfg : Config} {l : Link} (h : ∀ side a, l.act cfg side a = none) :
    (l.client.ended = true ∨ (l.client.InRead ∧ l.down = [] ∧ l.server.ended = false)) ∧
    (l.server.ended = true ∨ (l.server.InRead ∧ l.up = [] ∧ l.client.ended = false)) := by
  have hblocked : ∀ (side : Side) (stopConditions : StopConditions) (p : Party) (inp : Bytes)
      (peer : Bool), (∀ a, partyAct side stopConditions a p inp peer = none) →
      p.ended = true ∨ (p.InRead ∧ inp = [] ∧ peer = false) := by
    intro side stopConditions p inp peer hnone
    rcases party_place p with ⟨i, hpc⟩ | hread | hended
    · obtain ⟨r, hr⟩ := partyAct_head_some side hpc
      rw [hnone] at hr
      cases hr
    · refine Or.inr ⟨hread, ?_⟩
      by_cases hinp : inp = []
      · refine ⟨hinp, Bool.eq_false_iff.mpr ?_⟩
        intro hpeer
        obtain ⟨r, hr⟩ := partyAct_eof_some side hread hinp hpeer
        rw [hnone] at hr
        cases hr
      · obtain ⟨r, hr⟩ := partyAct_read_some side hread Nat.one_pos hinp
        rw [hnone] at hr
        cases hr
    · exact Or.inl hended
  constructor
  · exact hblocked .client cfg.client l.client l.down l.server.ended
      fun a => Option.map_eq_none_iff.mp (h .client a)
  · exact hblocked .server cfg.server l.server l.up l.client.ended
      fun a => Option.map_eq_none_iff.mp (h .server a)

end ShouldIAsync.JavaEcho
