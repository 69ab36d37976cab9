import ShouldIAsync.JavaEcho.Link

/-!
# The conversation of a client and its handler

However the streams are cut into reads, the places of the two threads tell their counts
(`Wired`), every step uses up some of a weight (`weight_step`), and as long as nobody has
thrown the bytes written, read and on the way add up (`Balance`).

`Talking` lists where the conversation can be as long as every read gives a whole message
(`IsWhole`): the two take turns, and the server ends one record short of the client, since
its first read has no record.
-/

namespace ShouldIAsync.JavaEcho

open ShouldIAsync.JavaStd

/-! ## The places of the threads -/

/-- The place of a client with this count. -/
def Pc.ClientAt (N count : Nat) : Pc → Prop
  | .firstRead => False
  | .head i => count = i ∧ i ≤ N
  | .reading i => count = i ∧ i < N
  | .returned isEOF => isEOF = false ∧ count = N
  | .threw _ => True

/-- The place of a handler with these bytes and this count. -/
def Pc.ServerAt (bytes : Bytes) (count : Nat) : Pc → Prop
  | .firstRead => bytes = [] ∧ count = 0
  | .head i | .reading i => count = i
  | .returned isEOF => isEOF = true
  | .threw _ => True

/-- What holds of a connection between any two steps. -/
structure Wired (N : Nat) (m : Bytes) (l : Link) : Prop where
  clientBytes : l.client.bytes = m
  client : l.client.pc.ClientAt N l.client.count
  serverBytes : l.server.bytes.length ≤ capacity
  server : l.server.pc.ServerAt l.server.bytes l.server.count

variable {N : Nat} {m : Bytes} {l l' : Link} {got : Bytes}

theorem wired_start : Wired N m (Link.start m) :=
  ⟨Eq.refl _, ⟨Eq.refl _, Nat.zero_le _⟩, Nat.zero_le _, ⟨Eq.refl _, Eq.refl _⟩⟩

/-- The client makes no first read. -/
theorem Wired.client_not_firstRead (h : Wired N m l) : l.client.pc ≠ .firstRead := by
  intro hpc
  have hat := h.client
  rw [hpc] at hat
  exact hat

/-- A client at its stop conditions has counted each iteration. -/
theorem Wired.head (h : Wired N m l) {i : Nat} (hpc : l.client.pc = .head i) :
    l.client.count = i ∧ i ≤ N := by
  have hat := h.client
  rwa [hpc] at hat

theorem Wired.reading (h : Wired N m l) {i : Nat} (hpc : l.client.pc = .reading i) :
    l.client.count = i ∧ i < N := by
  have hat := h.client
  rwa [hpc] at hat

/-- One that has returned has counted all of them. -/
theorem Wired.returned (h : Wired N m l) {isEOF : Bool} (hpc : l.client.pc = .returned isEOF) :
    isEOF = false ∧ l.client.count = N := by
  have hat := h.client
  rwa [hpc] at hat

/-- A handler at its first read has nothing yet. -/
theorem Wired.server_firstRead (h : Wired N m l) (hpc : l.server.pc = .firstRead) :
    l.server.bytes = [] ∧ l.server.count = 0 := by
  have hat := h.server
  rwa [hpc] at hat

/-- A handler at its stop conditions has counted each iteration. -/
theorem Wired.server_head (h : Wired N m l) {i : Nat} (hpc : l.server.pc = .head i) :
    l.server.count = i := by
  have hat := h.server
  rwa [hpc] at hat

theorem Wired.server_reading (h : Wired N m l) {i : Nat} (hpc : l.server.pc = .reading i) :
    l.server.count = i := by
  have hat := h.server
  rwa [hpc] at hat

/-- What is known of a place is known of a client that is there. -/
theorem Party.Is.clientAt {p : Party} {pc : Pc} {bytes : Bytes} {count : Nat}
    (h : p.Is pc bytes count) (hat : pc.ClientAt N count) : p.pc.ClientAt N p.count := by
  rwa [h.pc, h.count]

theorem Party.Is.serverAt {p : Party} {pc : Pc} {bytes : Bytes} {count : Nat}
    (h : p.Is pc bytes count) (hat : pc.ServerAt bytes count) : p.pc.ServerAt p.bytes p.count := by
  rwa [h.pc, h.bytes, h.count]

/-- **The places are kept by every step.** -/
theorem wired_step (h : Wired N m l) (hstep : Link.Step N l l' got) : Wired N m l' := by
  cases hstep with
  | client hserver hdown hmove =>
    have hs : l'.server.bytes.length ≤ capacity ∧
        l'.server.pc.ServerAt l'.server.bytes l'.server.count := by
      rw [hserver]
      exact ⟨h.serverBytes, h.server⟩
    cases hmove with
    | leave i hpc hi hgot hclient hup =>
      have hcount := h.head hpc
      exact ⟨hclient.bytes.trans h.clientBytes, hclient.clientAt ⟨Eq.refl _, by omega⟩, hs.1, hs.2⟩
    | write i hpc hi hgot hclient hup =>
      exact ⟨hclient.bytes.trans h.clientBytes, hclient.clientAt ⟨(h.head hpc).1, hi⟩, hs.1, hs.2⟩
    | echo i hpc hgot hne hclient hup =>
      have hcount := h.reading hpc
      exact ⟨hclient.bytes.trans h.clientBytes, hclient.clientAt ⟨by omega, hcount.2⟩, hs.1, hs.2⟩
    | fail e hclient hup hwhy hpc =>
      exact ⟨hclient.bytes.trans h.clientBytes, hclient.clientAt trivial, hs.1, hs.2⟩
  | server hclient hup hmove =>
    have hc : l'.client.bytes = m ∧ l'.client.pc.ClientAt N l'.client.count := by
      rw [hclient]
      exact ⟨h.clientBytes, h.client⟩
    have hbytes : ∀ {pc : Pc} {count : Nat}, l'.server.Is pc l.server.bytes count →
        l'.server.bytes.length ≤ capacity := by
      intro pc count hserver
      rw [hserver.bytes]
      exact h.serverBytes
    cases hmove with
    | first hpc hserver hgot hlen hdown =>
      refine ⟨hc.1, hc.2, ?_, hserver.serverAt (h.server_firstRead hpc).2⟩
      rw [hserver.bytes]
      exact hlen
    | write i hpc hgot hopen hserver hdown =>
      exact ⟨hc.1, hc.2, hbytes hserver, hserver.serverAt (h.server_head hpc)⟩
    | echo i hpc hgot hne hserver hdown =>
      exact ⟨hc.1, hc.2, hbytes hserver, hserver.serverAt (congrArg (· + 1) (h.server_reading hpc))⟩
    | leave i hpc hgot hup hclosed hserver hdown =>
      exact ⟨hc.1, hc.2, hbytes hserver, hserver.serverAt (Eq.refl _)⟩
    | fail e hserver hdown hwhy =>
      exact ⟨hc.1, hc.2, hbytes hserver, hserver.serverAt trivial⟩

/-! ## A weight that every step lowers -/

/-- What the client has before it: each iteration is worth the bytes it sends, three
times, and one. -/
def Party.clientWeight (N L : Nat) (p : Party) : Nat :=
  match p.pc with
  | .head i => (N - i) * (3 * L + 1) + 1
  | .reading i => (N - (i + 1)) * (3 * L + 1) + 1
  | .firstRead | .returned _ | .threw _ => 0

/-- What a handler has still to do. -/
def Party.serverWeight (p : Party) : Nat :=
  match p.pc with
  | .firstRead => 3
  | .head _ => p.bytes.length + 2
  | .reading _ => 1
  | .returned _ | .threw _ => 0

/-- What a connection has still to do. -/
def Link.weight (N L : Nat) (l : Link) : Nat :=
  l.client.clientWeight N L + l.server.serverWeight + 3 * l.up.length + l.down.length

/-- Each step makes the weight smaller. -/
theorem weight_step (h : Wired N m l) (hm : m ≠ []) (hstep : Link.Step N l l' got) :
    l'.weight N m.length < l.weight N m.length := by
  have hpos := List.length_pos_iff.mpr hm
  unfold Link.weight
  cases hstep with
  | client hserver hdown hmove =>
    have hlen := congrArg List.length hdown
    rw [List.length_append] at hlen
    rw [hserver]
    cases hmove with
    | leave i hpc hi hgot hclient hup =>
      rw [Party.clientWeight, hclient.pc, Party.clientWeight, hpc, hup]
      simp only
      omega
    | write i hpc hi hgot hclient hup =>
      -- one iteration less to come, its message on the way
      have hleft : (N - i) * (3 * m.length + 1) =
          (N - (i + 1)) * (3 * m.length + 1) + (3 * m.length + 1) := by
        rw [← Nat.succ_mul]
        congr 1
        omega
      rw [Party.clientWeight, hclient.pc, Party.clientWeight, hpc, hup, List.length_append,
        h.clientBytes]
      simp only
      omega
    | echo i hpc hgot hne hclient hup =>
      rw [h.clientBytes] at hgot
      subst hgot
      rw [Party.clientWeight, hclient.pc, Party.clientWeight, hpc, hup]
      simp only
      omega
    | fail e hclient hup hwhy hopen =>
      have hweight : 0 < l.client.clientWeight N m.length := by
        rcases party_place l.client with ⟨i, hpc⟩ | (hpc | ⟨i, hpc⟩) | hended
        · rw [Party.clientWeight, hpc]
          exact Nat.succ_pos _
        · exact absurd hpc h.client_not_firstRead
        · rw [Party.clientWeight, hpc]
          exact Nat.succ_pos _
        · rw [hopen] at hended
          cases hended
      have hzero : l'.client.clientWeight N m.length = 0 := by rw [Party.clientWeight, hclient.pc]
      rw [hup]
      omega
  | server hclient hup hmove =>
    have hlen := congrArg List.length hup
    rw [List.length_append] at hlen
    rw [hclient]
    cases hmove with
    | first hpc hserver hgot hfit hdown =>
      rw [Party.serverWeight, hserver.pc, Party.serverWeight, hpc, hserver.bytes, hdown]
      simp only
      omega
    | write i hpc hgot hopen hserver hdown =>
      rw [Party.serverWeight, hserver.pc, Party.serverWeight, hpc, hdown, List.length_append]
      simp only
      omega
    | echo i hpc hgot hne hserver hdown =>
      have hgotpos := List.length_pos_iff.mpr hne
      rw [Party.serverWeight, hserver.pc, Party.serverWeight, hpc, hserver.bytes, hdown, ← hgot]
      simp only
      omega
    | leave i hpc hgot hempty hclosed hserver hdown =>
      rw [Party.serverWeight, hserver.pc, Party.serverWeight, hpc, hdown]
      simp only
      omega
    | fail e hserver hdown hwhy =>
      have hweight : 0 < l.server.serverWeight := by
        rcases hwhy with ⟨-, -, i, hpc⟩ | ⟨-, -, i, hpc⟩
        · rw [Party.serverWeight, hpc]
          exact Nat.succ_pos _
        · rw [Party.serverWeight, hpc]
          exact Nat.one_pos
      have hzero : l'.server.serverWeight = 0 := by rw [Party.serverWeight, hserver.pc]
      rw [hdown]
      omega

/-! ## The bytes of a conversation -/

/-- The messages a client has written. -/
def Party.sent (p : Party) : Nat :=
  match p.pc with
  | .reading _ => p.count + 1
  | _ => p.count

/-- How often a handler has read its bytes, and how often it has written them. -/
def Party.taken (p : Party) : Nat :=
  match p.pc with
  | .firstRead => 0
  | _ => p.count + 1

/-- The messages a handler has written. -/
def Party.echoed (p : Party) : Nat :=
  match p.pc with
  | .firstRead => 0
  | .head _ => p.count
  | _ => p.count + 1

/-- What has been written is on the way, or has been read; and a handler that has returned
has left nothing. -/
structure Balance (m : Bytes) (l : Link) : Prop where
  up : l.up.length + l.server.bytes.length * l.server.taken = m.length * l.client.sent
  down : l.down.length + m.length * l.client.count = l.server.bytes.length * l.server.echoed
  drained : ∀ isEOF, l.server.pc = .returned isEOF → l.up = [] ∧ l.client.ended = true

theorem balance_start : Balance m (Link.start m) where
  up := Eq.refl _
  down := Eq.refl _
  drained isEOF h := by cases h

/-- The bytes add up after a step of the client that does not throw, -/
theorem balance_client (h : Balance m l) (hw : Wired N m l) (hserver : l'.server = l.server)
    (hdown : l.down = got ++ l'.down) (hmove : ClientStep N l l' got) :
      l'.client.Threw ∨ Balance m l' := by
  obtain ⟨hbup, hbdown, hdrained⟩ := h
  have hlen := congrArg List.length hdown
  rw [List.length_append] at hlen
  -- a client that still moves has a handler that has not returned
  have hrunning : l.client.ended = false → ∀ isEOF, l'.server.pc ≠ .returned isEOF := by
    intro hopen isEOF hret
    rw [hserver] at hret
    rw [(hdrained isEOF hret).2] at hopen
    cases hopen
  cases hmove with
  | leave i hpc hi hgot hclient hup =>
    refine Or.inr ⟨?_, ?_, fun isEOF hret => ?_⟩
    · rw [hserver, hup, hbup, Party.sent, hpc, Party.sent, hclient.pc, hclient.count]
    · rw [hgot, List.length_nil] at hlen
      rw [hserver, hclient.count, ← hbdown]
      omega
    · exact absurd hret (hrunning (by rw [Party.ended, hpc]) isEOF)
  | write i hpc hi hgot hclient hup =>
    refine Or.inr ⟨?_, ?_, fun isEOF hret => ?_⟩
    · rw [Party.sent, hpc] at hbup
      rw [hserver, hup, List.length_append, hw.clientBytes, Party.sent, hclient.pc, hclient.count,
        Nat.mul_succ, ← hbup]
      omega
    · rw [hgot, List.length_nil] at hlen
      rw [hserver, hclient.count, ← hbdown]
      omega
    · exact absurd hret (hrunning (by rw [Party.ended, hpc]) isEOF)
  | echo i hpc hgot hne hclient hup =>
    refine Or.inr ⟨?_, ?_, fun isEOF hret => ?_⟩
    · rw [hserver, hup, hbup, Party.sent, hpc, Party.sent, hclient.pc, hclient.count]
    · rw [hgot, hw.clientBytes] at hlen
      rw [hserver, hclient.count, ← hbdown, Nat.mul_succ]
      omega
    · exact absurd hret (hrunning (by rw [Party.ended, hpc]) isEOF)
  | fail e hclient hup hwhy hopen => exact Or.inl ⟨e, hclient.pc⟩

/-- and after one of the handler. -/
theorem balance_server (h : Balance m l) (hw : Wired N m l) (hclient : l'.client = l.client)
    (hup : l.up = got ++ l'.up) (hmove : ServerStep l l' got) : l'.server.Threw ∨ Balance m l' := by
  obtain ⟨hbup, hbdown, hdrained⟩ := h
  have hlen := congrArg List.length hup
  rw [List.length_append] at hlen
  cases hmove with
  | first hpc hserver hgot hfit hdown =>
    obtain ⟨-, hcount⟩ := hw.server_firstRead hpc
    refine Or.inr ⟨?_, ?_, fun isEOF hret => ?_⟩
    · rw [Party.taken, hpc] at hbup
      rw [hclient, ← hbup, Party.taken, hserver.pc, hserver.bytes, hserver.count, hcount]
      simp only
      omega
    · rw [Party.echoed, hpc] at hbdown
      rw [hclient, hdown, hbdown, Party.echoed, hserver.pc, hserver.count, hcount]
      simp only [Nat.mul_zero]
    · rw [hserver.pc] at hret
      cases hret
  | write i hpc hgot hopen hserver hdown =>
    refine Or.inr ⟨?_, ?_, fun isEOF hret => ?_⟩
    · rw [hgot, List.length_nil] at hlen
      rw [Party.taken, hpc] at hbup
      rw [hclient, ← hbup, Party.taken, hserver.pc, hserver.bytes, hserver.count]
      simp only
      omega
    · rw [Party.echoed, hpc] at hbdown
      rw [hclient, hdown, List.length_append, Party.echoed, hserver.pc, hserver.bytes,
        hserver.count]
      simp only at hbdown ⊢
      rw [Nat.mul_succ, ← hbdown]
      omega
    · rw [hserver.pc] at hret
      cases hret
  | echo i hpc hgot hne hserver hdown =>
    refine Or.inr ⟨?_, ?_, fun isEOF hret => ?_⟩
    · rw [hgot] at hlen
      rw [Party.taken, hpc] at hbup
      rw [hclient, ← hbup, Party.taken, hserver.pc, hserver.bytes, hserver.count]
      simp only
      rw [Nat.mul_succ]
      omega
    · rw [Party.echoed, hpc] at hbdown
      rw [hclient, hdown, hbdown, Party.echoed, hserver.pc, hserver.bytes, hserver.count]
    · rw [hserver.pc] at hret
      cases hret
  | leave i hpc hgot hempty hclosed hserver hdown =>
    refine Or.inr ⟨?_, ?_, fun isEOF hret => ⟨?_, ?_⟩⟩
    · rw [hgot, List.length_nil] at hlen
      rw [Party.taken, hpc] at hbup
      rw [hclient, ← hbup, Party.taken, hserver.pc, hserver.bytes, hserver.count]
      simp only
      omega
    · rw [Party.echoed, hpc] at hbdown
      rw [hclient, hdown, hbdown, Party.echoed, hserver.pc, hserver.bytes, hserver.count]
    · rw [hempty] at hup
      exact (List.append_eq_nil_iff.mp hup.symm).2
    · rw [hclient]
      exact hclosed
  | fail e hserver hdown hwhy => exact Or.inl ⟨e, hserver.pc⟩

/-- As long as nobody throws, the bytes add up. -/
theorem balance_step (h : Balance m l) (hw : Wired N m l) (hstep : Link.Step N l l' got) :
    l'.client.Threw ∨ l'.server.Threw ∨ Balance m l' := by
  cases hstep with
  | client hserver hdown hmove => exact (balance_client h hw hserver hdown hmove).imp_right Or.inr
  | server hclient hup hmove => exact Or.inr (balance_server h hw hclient hup hmove)

/-- A party that has thrown has thrown for good. -/
theorem threw_step (hstep : Link.Step N l l' got) (h : l.client.Threw ∨ l.server.Threw) :
    l'.client.Threw ∨ l'.server.Threw := by
  cases hstep with
  | client hserver hdown hmove =>
    rcases h with ⟨e, hthrew⟩ | hthrew
    · cases hmove with
      | leave i hpc => rw [hthrew] at hpc; cases hpc
      | write i hpc => rw [hthrew] at hpc; cases hpc
      | echo i hpc => rw [hthrew] at hpc; cases hpc
      | fail e' hclient => exact Or.inl ⟨e', hclient.pc⟩
    · rw [hserver]
      exact Or.inr hthrew
  | server hclient hup hmove =>
    rcases h with hthrew | ⟨e, hthrew⟩
    · rw [hclient]
      exact Or.inl hthrew
    · cases hmove with
      | first hpc => rw [hthrew] at hpc; cases hpc
      | write i hpc => rw [hthrew] at hpc; cases hpc
      | echo i hpc => rw [hthrew] at hpc; cases hpc
      | leave i hpc => rw [hthrew] at hpc; cases hpc
      | fail e' hserver => exact Or.inr ⟨e', hserver.pc⟩

/-! ## Message by message -/

/-- The action takes a whole message, or nothing. -/
def IsWhole (m got : Bytes) : Prop := got = [] ∨ got.length = m.length

instance (m got : Bytes) : Decidable (IsWhole m got) := by
  unfold IsWhole
  infer_instance

/-- A handler that waits for the message of iteration `i`. -/
def Party.Waits (m : Bytes) (p : Party) : Nat → Prop
  | 0 => p.Is .firstRead [] 0
  | i + 1 => p.Is (.reading i) m i

/-- Where a conversation in whole messages can be. -/
inductive Talking (N : Nat) (m : Bytes) (l : Link) : Prop
  | clientTurn (i : Nat) (hi : i ≤ N) (hclient : l.client.Is (.head i) m i)
      (hserver : l.server.Waits m i) (hup : l.up = []) (hdown : l.down = [])
  | up (i : Nat) (hi : i < N) (hclient : l.client.Is (.reading i) m i)
      (hserver : l.server.Waits m i) (hup : l.up = m) (hdown : l.down = [])
  | serverTurn (i : Nat) (hi : i < N) (hclient : l.client.Is (.reading i) m i)
      (hserver : l.server.Is (.head i) m i) (hup : l.up = []) (hdown : l.down = [])
  | down (i : Nat) (hi : i < N) (hclient : l.client.Is (.reading i) m i)
      (hserver : l.server.Is (.reading i) m i) (hup : l.up = []) (hdown : l.down = m)
  | clientLeft (hclient : l.client.Is (.returned false) m N) (hserver : l.server.Waits m N)
      (hup : l.up = []) (hdown : l.down = [])
  -- a client with no iterations: the loop of its handler has no bytes
  | nothingRead (hN : N = 0) (hclient : l.client.Is (.returned false) m N)
      (hserver : l.server.Is (.head 0) [] 0) (hup : l.up = []) (hdown : l.down = [])
  | nothingWritten (hN : N = 0) (hclient : l.client.Is (.returned false) m N)
      (hserver : l.server.Is (.reading 0) [] 0) (hup : l.up = []) (hdown : l.down = [])
  | finished (hclient : l.client.Is (.returned false) m N) (hserver : l.server.pc = .returned true)
      (hcount : l.server.count = N - 1) (hup : l.up = []) (hdown : l.down = [])

theorem talking_start : Talking N m (Link.start m) :=
  .clientTurn 0 (Nat.zero_le _) ⟨Eq.refl _, Eq.refl _, Eq.refl _⟩ ⟨Eq.refl _, Eq.refl _, Eq.refl _⟩
    (Eq.refl _) (Eq.refl _)

/-- Who waits is in a read. -/
theorem Party.Waits.inRead {p : Party} {i : Nat} (h : p.Waits m i) : p.InRead := by
  cases i with
  | zero => exact Or.inl h.pc
  | succ i => exact Or.inr ⟨i, h.pc⟩

/-- Who is in a read has not ended. -/
theorem Party.InRead.open {p : Party} (h : p.InRead) : p.ended = false := by
  unfold Party.ended
  rcases h with hpc | ⟨i, hpc⟩
  · rw [hpc]
  · rw [hpc]

/-- A read of an empty stream that is open at the other end does not return. -/
theorem client_waits {i : Nat} (h : ClientStep N l l' got) (hpc : l.client.pc = .reading i)
    (hgot : got = []) (hserver : l.server.ended = false) : False := by
  cases h with
  | leave j hhead => rw [hpc] at hhead; cases hhead
  | write j hhead => rw [hpc] at hhead; cases hhead
  | echo j _ _ hne => exact hne hgot
  | fail e _ _ hwhy =>
    rcases hwhy with hended | ⟨hne, -⟩
    · rw [hserver] at hended
      cases hended
    · exact hne hgot

/-- A client that has ended makes no step. -/
theorem client_left (h : ClientStep N l l' got) (hended : l.client.ended = true) : False := by
  cases h with
  | leave i hpc => rw [Party.ended, hpc] at hended; cases hended
  | write i hpc => rw [Party.ended, hpc] at hended; cases hended
  | echo i hpc => rw [Party.ended, hpc] at hended; cases hended
  | fail e _ _ _ hopen => rw [hopen] at hended; cases hended

/-- A client that gets its bytes back is at its next iteration. -/
theorem client_echo {i : Nat} (h : ClientStep N l l' got) (hpc : l.client.pc = .reading i)
    (hgot : got = l.client.bytes) (hserver : l.server.ended = false) :
    l'.client.Is (.head (i + 1)) l.client.bytes (l.client.count + 1) ∧ l'.up = l.up := by
  cases h with
  | leave j hhead => rw [hpc] at hhead; cases hhead
  | write j hhead => rw [hpc] at hhead; cases hhead
  | echo j hread _ _ hclient hup =>
    obtain rfl := Pc.reading.inj (hpc.symm.trans hread)
    exact ⟨hclient, hup⟩
  | fail e _ _ hwhy =>
    rcases hwhy with hended | ⟨-, hother⟩
    · rw [hserver] at hended
      cases hended
    · exact absurd hgot hother

/-- The server after its first read. -/
theorem server_first (h : ServerStep l l' got) (hpc : l.server.pc = .firstRead) :
    l'.server.Is (.head 0) got l.server.count ∧ l'.down = l.down ∧
      (got ≠ [] ∨ (l.up = [] ∧ l.client.ended = true)) := by
  cases h with
  | first _ hserver hwhy _ hdown => exact ⟨hserver, hdown, hwhy⟩
  | write j hhead => rw [hpc] at hhead; cases hhead
  | echo j hread => rw [hpc] at hread; cases hread
  | leave j hread => rw [hpc] at hread; cases hread
  | fail e _ _ hwhy =>
    rcases hwhy with ⟨-, -, j, hhead⟩ | ⟨-, -, j, hread⟩
    · rw [hpc] at hhead; cases hhead
    · rw [hpc] at hread; cases hread

/-- At the stop conditions, with a client that listens or nothing to write. -/
theorem server_write {i : Nat} (h : ServerStep l l' got) (hpc : l.server.pc = .head i)
    (hopen : l.server.bytes = [] ∨ l.client.ended = false) :
    l'.server.Is (.reading i) l.server.bytes l.server.count ∧
      l'.down = l.down ++ l.server.bytes := by
  cases h with
  | first hfirst => rw [hpc] at hfirst; cases hfirst
  | write j hhead _ _ hserver hdown =>
    obtain rfl := Pc.head.inj (hpc.symm.trans hhead)
    exact ⟨hserver, hdown⟩
  | echo j hread => rw [hpc] at hread; cases hread
  | leave j hread => rw [hpc] at hread; cases hread
  | fail e _ _ hwhy =>
    rcases hwhy with ⟨hbytes, hended, -⟩ | ⟨-, -, j, hread⟩
    · rcases hopen with hnil | hopen
      · exact absurd hnil hbytes
      · rw [hopen] at hended
        cases hended
    · rw [hpc] at hread; cases hread

/-- In a read, unless it gives other bytes than the server expects. -/
theorem server_read {i : Nat} (h : ServerStep l l' got) (hpc : l.server.pc = .reading i)
    (hgot : got = [] ∨ got = l.server.bytes) :
    (got ≠ [] ∧ l'.server.Is (.head (i + 1)) l.server.bytes (l.server.count + 1) ∧
      l'.down = l.down) ∨
    (got = [] ∧ l.client.ended = true ∧
      l'.server.Is (.returned true) l.server.bytes l.server.count ∧
      l'.down = l.down) := by
  cases h with
  | first hfirst => rw [hpc] at hfirst; cases hfirst
  | write j hhead => rw [hpc] at hhead; cases hhead
  | echo j hread _ hne hserver hdown =>
    obtain rfl := Pc.reading.inj (hpc.symm.trans hread)
    exact Or.inl ⟨hne, hserver, hdown⟩
  | leave j _ hnil _ hended hserver hdown => exact Or.inr ⟨hnil, hended, hserver, hdown⟩
  | fail e _ _ hwhy =>
    rcases hwhy with ⟨-, -, j, hhead⟩ | ⟨hne, hother, -⟩
    · rw [hpc] at hhead; cases hhead
    · exact absurd hgot (not_or_intro hne hother)

/-- A handler in a read makes no step without bytes while the client is there. -/
theorem server_waits (h : ServerStep l l' got) (hread : l.server.InRead) (hgot : got = [])
    (hclient : l.client.ended = false) : False := by
  rcases hread with hpc | ⟨i, hpc⟩
  · rcases (server_first h hpc).2.2 with hne | ⟨-, hended⟩
    · exact hne hgot
    · rw [hclient] at hended
      cases hended
  · rcases server_read h hpc (Or.inl hgot) with ⟨hne, -⟩ | ⟨-, hended, -⟩
    · exact hne hgot
    · rw [hclient] at hended
      cases hended

/-- A handler that has ended makes no step. -/
theorem server_left (h : ServerStep l l' got) (hended : l.server.ended = true) : False := by
  cases h with
  | first hpc => rw [Party.ended, hpc] at hended; cases hended
  | write i hpc => rw [Party.ended, hpc] at hended; cases hended
  | echo i hpc => rw [Party.ended, hpc] at hended; cases hended
  | leave i hpc => rw [Party.ended, hpc] at hended; cases hended
  | fail e _ _ hwhy =>
    rcases hwhy with ⟨-, -, i, hpc⟩ | ⟨-, -, i, hpc⟩
    · rw [Party.ended, hpc] at hended; cases hended
    · rw [Party.ended, hpc] at hended; cases hended

theorem took_nothing {queue rest : Bytes} (h : queue = got ++ rest) (hqueue : queue = []) :
    got = [] ∧ rest = [] :=
  List.append_eq_nil_iff.mp (h.symm.trans hqueue)

/-- What takes something of one message, whole, takes that message. -/
theorem took_message {queue rest : Bytes} (h : queue = got ++ rest) (hqueue : queue = m)
    (hwhole : IsWhole m got) (hne : got ≠ []) : got = m ∧ rest = [] := by
  have hlen : got.length = m.length := hwhole.resolve_left hne
  have heq : got ++ rest = m ++ [] := by rw [← h, hqueue, List.append_nil]
  obtain ⟨rfl, hrest⟩ := List.append_inj' heq (by
      have hsum := congrArg List.length (h.symm.trans hqueue)
      rw [List.length_append, hlen] at hsum
      rw [List.length_nil]
      omega)
  exact ⟨Eq.refl _, hrest⟩

/-- **A step in whole messages is a move of the conversation.** -/
theorem talking_step (h : Talking N m l) (hstep : Link.Step N l l' got) (hwhole : IsWhole m got) :
    Talking N m l' := by
  cases h with
  | clientTurn i hi hclient hserver hup hdown =>
    cases hstep with
    | client hsame hsplit hmove =>
      obtain ⟨hgot, hdown'⟩ := took_nothing hsplit hdown
      cases hmove with
      | leave j hpc hj _ hclient' hup' =>
        obtain rfl := Pc.head.inj (hclient.pc.symm.trans hpc)
        obtain rfl : i = N := Nat.le_antisymm hi hj
        rw [hclient.bytes, hclient.count] at hclient'
        exact .clientLeft hclient' (hsame ▸ hserver) (hup'.trans hup) hdown'
      | write j hpc hj _ hclient' hup' =>
        obtain rfl := Pc.head.inj (hclient.pc.symm.trans hpc)
        rw [hclient.bytes, hclient.count] at hclient'
        rw [hup, hclient.bytes] at hup'
        exact .up i hj hclient' (hsame ▸ hserver) hup' hdown'
      | echo j _ _ hne => exact absurd hgot hne
      | fail e _ _ hwhy =>
        rcases hwhy with hended | ⟨hne, -⟩
        · rw [hserver.inRead.open] at hended
          cases hended
        · exact absurd hgot hne
    | server _ hsplit hmove =>
      exact (server_waits hmove hserver.inRead (took_nothing hsplit hup).1
        (by rw [Party.ended, hclient.pc])).elim
  | up i hi hclient hserver hup hdown =>
    have hopen : l.client.ended = false := by rw [Party.ended, hclient.pc]
    cases hstep with
    | client _ hsplit hmove =>
      exact (client_waits hmove hclient.pc (took_nothing hsplit hdown).1 hserver.inRead.open).elim
    | server hsame hsplit hmove =>
      have hne : got ≠ [] := by
        intro hgot
        exact server_waits hmove hserver.inRead hgot hopen
      obtain ⟨hgot, hup'⟩ := took_message hsplit hup hwhole hne
      cases i with
      | zero =>
        -- the first read of the server: it takes the message as its bytes
        obtain ⟨hserver', hdown', -⟩ := server_first hmove hserver.pc
        rw [hserver.count, hgot] at hserver'
        exact .serverTurn 0 hi (hsame ▸ hclient) hserver' hup' (hdown'.trans hdown)
      | succ i =>
        rcases server_read hmove hserver.pc (Or.inr (hgot.trans hserver.bytes.symm)) with
          ⟨-, hserver', hdown'⟩ | ⟨hnil, -⟩
        · rw [hserver.bytes, hserver.count] at hserver'
          exact .serverTurn (i + 1) hi (hsame ▸ hclient) hserver' hup' (hdown'.trans hdown)
        · exact absurd hnil hne
  | serverTurn i hi hclient hserver hup hdown =>
    cases hstep with
    | client _ hsplit hmove =>
      exact (client_waits hmove hclient.pc (took_nothing hsplit hdown).1
        (by rw [Party.ended, hserver.pc])).elim
    | server hsame hsplit hmove =>
      obtain ⟨hserver', hdown'⟩ :=
        server_write hmove hserver.pc (Or.inr (by rw [Party.ended, hclient.pc]))
      rw [hserver.bytes, hserver.count] at hserver'
      rw [hdown, hserver.bytes] at hdown'
      exact .down i hi (hsame ▸ hclient) hserver' (took_nothing hsplit hup).2 hdown'
  | down i hi hclient hserver hup hdown =>
    have hopen : l.server.ended = false := by rw [Party.ended, hserver.pc]
    cases hstep with
    | client hsame hsplit hmove =>
      have hne : got ≠ [] := by
        intro hgot
        exact client_waits hmove hclient.pc hgot hopen
      obtain ⟨hgot, hdown'⟩ := took_message hsplit hdown hwhole hne
      obtain ⟨hclient', hup'⟩ :=
        client_echo hmove hclient.pc (hgot.trans hclient.bytes.symm) hopen
      rw [hclient.bytes, hclient.count] at hclient'
      exact .clientTurn (i + 1) hi hclient' (hsame ▸ hserver) (hup'.trans hup) hdown'
    | server _ hsplit hmove =>
      exact (server_waits hmove (Or.inr ⟨i, hserver.pc⟩) (took_nothing hsplit hup).1
        (by rw [Party.ended, hclient.pc])).elim
  | clientLeft hclient hserver hup hdown =>
    cases hstep with
    | client _ _ hmove => exact (client_left hmove (by rw [Party.ended, hclient.pc])).elim
    | server hsame hsplit hmove =>
      obtain ⟨hgot, hup'⟩ := took_nothing hsplit hup
      cases N with
      | zero =>
        obtain ⟨hserver', hdown', -⟩ := server_first hmove hserver.pc
        rw [hserver.count, hgot] at hserver'
        exact .nothingRead (Eq.refl _) (hsame ▸ hclient) hserver' hup' (hdown'.trans hdown)
      | succ i =>
        rcases server_read hmove hserver.pc (Or.inl hgot) with ⟨hne, -⟩ | ⟨-, -, hserver', hdown'⟩
        · exact absurd hgot hne
        · exact .finished (hsame ▸ hclient) hserver'.pc (hserver'.count.trans hserver.count) hup'
            (hdown'.trans hdown)
  | nothingRead hN hclient hserver hup hdown =>
    cases hstep with
    | client _ _ hmove => exact (client_left hmove (by rw [Party.ended, hclient.pc])).elim
    | server hsame hsplit hmove =>
      obtain ⟨hserver', hdown'⟩ := server_write hmove hserver.pc (Or.inl hserver.bytes)
      rw [hserver.bytes, hserver.count] at hserver'
      rw [hdown, hserver.bytes] at hdown'
      exact .nothingWritten hN (hsame ▸ hclient) hserver' (took_nothing hsplit hup).2 hdown'
  | nothingWritten hN hclient hserver hup hdown =>
    cases hstep with
    | client _ _ hmove => exact (client_left hmove (by rw [Party.ended, hclient.pc])).elim
    | server hsame hsplit hmove =>
      obtain ⟨hgot, hup'⟩ := took_nothing hsplit hup
      rcases server_read hmove hserver.pc (Or.inl hgot) with ⟨hne, -⟩ | ⟨-, -, hserver', hdown'⟩
      · exact absurd hgot hne
      · refine .finished (hsame ▸ hclient) hserver'.pc ?_ hup' (hdown'.trans hdown)
        rw [hserver'.count, hserver.count, hN]
  | finished hclient hserver hcount hup hdown =>
    cases hstep with
    | client _ _ hmove => exact (client_left hmove (by rw [Party.ended, hclient.pc])).elim
    | server _ _ hmove => exact (server_left hmove (by rw [Party.ended, hserver])).elim

/-- The end the two come to in whole messages: `N` records of the client, one less of the
server, and nothing thrown. -/
structure Link.EndsWell (N : Nat) (l : Link) : Prop where
  client : l.client.pc = .returned false
  clientCount : l.client.count = N
  server : l.server.pc = .returned true
  serverCount : l.server.count = N - 1

/-- A message that fits the buffer is read in one piece, if the read takes that much. -/
theorem chunk_message {queue : Bytes} (hfit : m.length ≤ capacity) (hqueue : queue = m) :
    (Act.read m.length).chunk queue = m := by
  rw [hqueue]
  exact List.take_of_length_le (Nat.le_min.mpr ⟨Nat.le_refl _, hfit⟩)

/-- What the client can do the connection can. -/
theorem Link.act_client (cfg : Config) {a : Act} {r : Party × Bytes}
    (h : partyAct .client cfg.client a l.client l.down l.server.ended = some r) :
    ∃ l', l.act cfg .client a = some l' :=
  ⟨_, by rw [Link.act, h, Option.map_some]⟩

theorem Link.act_server (cfg : Config) {a : Act} {r : Party × Bytes}
    (h : partyAct .server cfg.server a l.server l.up l.client.ended = some r) :
    ∃ l', l.act cfg .server a = some l' :=
  ⟨_, by rw [Link.act, h, Option.map_some]⟩

/-- **A conversation in whole messages goes on in whole messages to its end.** -/
theorem talking_progress (hm : m ≠ []) (hfit : m.length ≤ capacity) (h : Talking N m l) :
    l.EndsWell N ∨ ∃ side a l', l.act (.iterations N) side a = some l' ∧
      IsWhole m (l.chunk side a) := by
  have hpos := List.length_pos_iff.mpr hm
  cases h with
  | clientTurn i hi hclient hserver hup hdown =>
    obtain ⟨r, hr⟩ := partyAct_head_some .client hclient.pc
    obtain ⟨l', hl'⟩ := Link.act_client (.iterations N) hr
    exact Or.inr ⟨.client, .advance, l', hl', Or.inl (Eq.refl _)⟩
  | up i hi hclient hserver hup hdown =>
    obtain ⟨r, hr⟩ := partyAct_read_some .server hserver.inRead hpos (hup.symm ▸ hm)
    obtain ⟨l', hl'⟩ := Link.act_server (.iterations N) hr
    exact Or.inr ⟨.server, _, l', hl', Or.inr (congrArg List.length (chunk_message hfit hup))⟩
  | serverTurn i hi hclient hserver hup hdown =>
    obtain ⟨r, hr⟩ := partyAct_head_some .server hserver.pc
    obtain ⟨l', hl'⟩ := Link.act_server (.iterations N) hr
    exact Or.inr ⟨.server, .advance, l', hl', Or.inl (Eq.refl _)⟩
  | down i hi hclient hserver hup hdown =>
    obtain ⟨r, hr⟩ := partyAct_read_some .client (Or.inr ⟨i, hclient.pc⟩) hpos (hdown.symm ▸ hm)
    obtain ⟨l', hl'⟩ := Link.act_client (.iterations N) hr
    exact Or.inr ⟨.client, _, l', hl', Or.inr (congrArg List.length (chunk_message hfit hdown))⟩
  | clientLeft hclient hserver hup hdown =>
    have hended : l.client.ended = true := by rw [Party.ended, hclient.pc]
    obtain ⟨r, hr⟩ := partyAct_eof_some .server hserver.inRead hup hended
    obtain ⟨l', hl'⟩ := Link.act_server (.iterations N) hr
    exact Or.inr ⟨.server, .eof, l', hl', Or.inl (Eq.refl _)⟩
  | nothingRead hN hclient hserver hup hdown =>
    obtain ⟨r, hr⟩ := partyAct_head_some .server hserver.pc
    obtain ⟨l', hl'⟩ := Link.act_server (.iterations N) hr
    exact Or.inr ⟨.server, .advance, l', hl', Or.inl (Eq.refl _)⟩
  | nothingWritten hN hclient hserver hup hdown =>
    have hended : l.client.ended = true := by rw [Party.ended, hclient.pc]
    obtain ⟨r, hr⟩ := partyAct_eof_some .server (Or.inr ⟨0, hserver.pc⟩) hup hended
    obtain ⟨l', hl'⟩ := Link.act_server (.iterations N) hr
    exact Or.inr ⟨.server, .eof, l', hl', Or.inl (Eq.refl _)⟩
  | finished hclient hserver hcount hup hdown =>
    exact Or.inl ⟨hclient.pc, hclient.count, hserver, hcount⟩

end ShouldIAsync.JavaEcho
