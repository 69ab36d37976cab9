import ShouldIAsync.JavaEcho.Conversation
import ShouldIAsync.Lib.System

/-!
# Messages in several segments

One connection under every way of cutting its two streams into reads. `Delivery.whole`
remembers whether all reads so far have given whole messages. `Common.read` checks the
length of what it gets, and the first read of the server decides what a message is; so a
conversation ends well exactly if every read gives a whole message (`segments_end`).
-/

namespace ShouldIAsync.JavaEcho

open ShouldIAsync.JavaStd ShouldIAsync.Lib

/-- A connection, and whether each read has given a whole message so far. -/
structure Delivery where
  link : Link
  whole : Bool

/-- What one end of it does. -/
def Delivery.act (cfg : Config) (m : Bytes) : Side × Act → Delivery → Option Delivery
  | (side, a), s =>
    (s.link.act cfg side a).map fun l =>
      { link := l, whole := s.whole && decide (IsWhole m (s.link.chunk side a)) }

/-- The runs of a client named `m` and its handler. -/
def segments (N : Nat) (m : Bytes) : System Delivery :=
  System.ofActions (· = ⟨Link.start m, true⟩) (Delivery.act (.iterations N) m)

variable {N : Nat} {m : Bytes} {s t : Delivery}

/-- What holds however the streams are cut. -/
structure Delivery.Inv (N : Nat) (m : Bytes) (s : Delivery) : Prop where
  wired : Wired N m s.link
  balance : s.link.client.Threw ∨ s.link.server.Threw ∨ Balance m s.link
  talking : s.whole = true → Talking N m s.link
  /-- after a read that was not whole somebody has thrown, or the server takes part of a
  message for the message -/
  cut : s.whole = false → (s.link.client.Threw ∨ s.link.server.Threw) ∨
    (s.link.server.bytes ≠ [] ∧ s.link.server.bytes.length ≠ m.length)

theorem delivery_start : Delivery.Inv N m ⟨Link.start m, true⟩ where
  wired := wired_start
  balance := Or.inr (Or.inr balance_start)
  talking _ := talking_start
  cut h := by cases h

/-- A step of it is one of the connection. -/
theorem delivery_link (hw : Wired N m s.link) (hfit : m.length ≤ capacity)
    (hstep : (segments N m).step s t) :
    ∃ got, Link.Step N s.link t.link got ∧ t.whole = (s.whole && decide (IsWhole m got)) := by
  obtain ⟨⟨side, a⟩, hact⟩ := hstep
  obtain ⟨l, hl, rfl⟩ := Option.map_eq_some_iff.mp hact
  exact ⟨_, link_step (hw.clientBytes ▸ hfit) hw.serverBytes hw.client_not_firstRead hl, Eq.refl _⟩

/-- A read that is not whole. -/
theorem cut_step {l l' : Link} {got : Bytes} (hw : Wired N m l) (hstep : Link.Step N l l' got)
    (hcut : ¬ IsWhole m got) :
    (l'.client.Threw ∨ l'.server.Threw) ∨ (l'.server.bytes ≠ [] ∧ l'.server.bytes.length ≠
      m.length) := by
  obtain ⟨hne, hlen⟩ := not_or.mp hcut
  cases hstep with
  | client _ _ hmove =>
    cases hmove with
    | leave i _ _ hgot => exact absurd hgot hne
    | write i _ _ hgot => exact absurd hgot hne
    | echo i _ hgot => exact absurd (congrArg List.length (hgot.trans hw.clientBytes)) hlen
    | fail e hclient => exact Or.inl (Or.inl ⟨e, hclient.pc⟩)
  | server _ _ hmove =>
    cases hmove with
    | first _ hserver =>
      rw [hserver.bytes]
      exact Or.inr ⟨hne, hlen⟩
    | write i _ hgot => exact absurd hgot hne
    | echo i _ hgot _ hserver =>
      rw [hserver.bytes, ← hgot]
      exact Or.inr ⟨hne, hlen⟩
    | leave i _ hgot => exact absurd hgot hne
    | fail e hserver => exact Or.inl (Or.inr ⟨e, hserver.pc⟩)

/-- The bytes of the server stay what its first read gave. -/
theorem bytes_step {l l' : Link} {got : Bytes} (hw : Wired N m l) (hstep : Link.Step N l l' got)
    (hbytes : l.server.bytes ≠ []) : l'.server.bytes = l.server.bytes := by
  cases hstep with
  | client hserver _ _ => rw [hserver]
  | server _ _ hmove =>
    cases hmove with
    | first hpc => exact absurd (hw.server_firstRead hpc).1 hbytes
    | write i _ _ _ hserver => exact hserver.bytes
    | echo i _ _ _ hserver => exact hserver.bytes
    | leave i _ _ _ _ hserver => exact hserver.bytes
    | fail e hserver => exact hserver.bytes

/-- Every step keeps the invariant. -/
theorem delivery_step (hfit : m.length ≤ capacity) (h : s.Inv N m)
    (hstep : (segments N m).step s t) :
    t.Inv N m := by
  obtain ⟨got, hlink, hwhole⟩ := delivery_link h.wired hfit hstep
  refine ⟨wired_step h.wired hlink, ?_, fun ht => ?_, fun ht => ?_⟩
  · rcases h.balance with hthrew | hthrew | hbalance
    · rw [← or_assoc]
      exact Or.inl (threw_step hlink (Or.inl hthrew))
    · rw [← or_assoc]
      exact Or.inl (threw_step hlink (Or.inr hthrew))
    · exact balance_step hbalance h.wired hlink
  · rw [hwhole, Bool.and_eq_true, decide_eq_true_eq] at ht
    exact talking_step (h.talking ht.1) hlink ht.2
  · rw [hwhole, Bool.and_eq_false_iff, decide_eq_false_iff_not] at ht
    rcases ht with hs | hcut
    · rcases h.cut hs with hthrew | hbytes
      · exact Or.inl (threw_step hlink hthrew)
      · rw [bytes_step h.wired hlink hbytes.1]
        exact Or.inr hbytes
    · exact cut_step h.wired hlink hcut

theorem delivery_reachable (hfit : m.length ≤ capacity) (h : (segments N m).Reachable s) :
    s.Inv N m := by
  refine h.invariant (P := Delivery.Inv N m) ?_ ?_
  · intro s hs
    rw [hs]
    exact delivery_start
  · intro s t _ hs hstep
    exact delivery_step hfit hs hstep

/-! ## How a run ends -/

/-- Who has thrown has not ended well. -/
theorem threw_not_endsWell {l : Link} (h : l.client.Threw ∨ l.server.Threw) : ¬ l.EndsWell N := by
  intro hend
  rcases h with ⟨e, he⟩ | ⟨e, he⟩
  · rw [hend.client] at he
    cases he
  · rw [hend.server] at he
    cases he

/-- A server that takes part of a message for the message does not end with `N - 1`
records: it reads as many bytes as it takes for a message in each. -/
theorem short_not_endsWell {l : Link} (hbalance : Balance m l)
    (hne : l.server.bytes ≠ []) (hlen : l.server.bytes.length ≠ m.length) : ¬ l.EndsWell N := by
  intro hend
  have hup := hbalance.up
  rw [(hbalance.drained _ hend.server).1, Party.taken, hend.server, hend.serverCount, Party.sent,
    hend.client, hend.clientCount] at hup
  have hpos := List.length_pos_iff.mpr hne
  cases N with
  | zero =>
    simp only [List.length_nil, Nat.mul_zero] at hup
    omega
  | succ i =>
    simp only [List.length_nil, Nat.add_sub_cancel, Nat.zero_add] at hup
    exact hlen (Nat.eq_of_mul_eq_mul_right (Nat.succ_pos i) hup)

/-- **Where nothing can happen both threads have left.** -/
theorem stuck_ended (hm : m ≠ []) (h : s.Inv N m)
    (hstuck : ∀ side a, s.link.act (.iterations N) side a = none) :
    s.link.client.ended = true ∧ s.link.server.ended = true := by
  obtain ⟨hclient, hserver⟩ := link_stuck hstuck
  rcases hclient with hclient | ⟨hread, hdown, hopen⟩
  · rcases hserver with hserver | ⟨-, -, hclosed⟩
    · exact ⟨hclient, hserver⟩
    · rw [hclient] at hclosed
      cases hclosed
  · rcases hserver with hserver | ⟨hsread, hup, -⟩
    · rw [hopen] at hserver
      cases hserver
    · -- both wait for the other: bytes would be missing
      exfalso
      have hpos := List.length_pos_iff.mpr hm
      obtain ⟨i, hpc⟩ := hread.resolve_left h.wired.client_not_firstRead
      have hthrew : ∀ {p : Party}, p.InRead → ¬ p.Threw := by
        intro p hp hthrew
        obtain ⟨e, he⟩ := hthrew
        rcases hp with hp | ⟨j, hp⟩
        · rw [he] at hp; cases hp
        · rw [he] at hp; cases hp
      have hbalance :=
        (h.balance.resolve_left (hthrew (Or.inr ⟨i, hpc⟩))).resolve_left (hthrew hsread)
      have hbup := hbalance.up
      have hbdown := hbalance.down
      rw [hup, Party.sent, hpc] at hbup
      rw [hdown] at hbdown
      have hsame : s.link.server.bytes.length * s.link.server.taken =
          s.link.server.bytes.length * s.link.server.echoed := by
        rcases hsread with hfirst | ⟨j, hreading⟩
        · rw [Party.taken, Party.echoed, hfirst]
        · rw [Party.taken, Party.echoed, hreading]
      simp only [List.length_nil, Nat.zero_add, Nat.mul_succ] at hbup hbdown
      omega

/-- **The end of a conversation cut into any segments**, of a message that fits the buffers:
no run goes on for ever, both threads leave their methods, and they end well exactly if
every read has given a whole message. -/
theorem segments_end (N : Nat) (m : Bytes) (hm : m ≠ []) (hfit : m.length ≤ capacity) :
    (segments N m).EveryRunEnds fun s =>
      (s.link.client.ended = true ∧ s.link.server.ended = true) ∧
        (s.link.EndsWell N ↔ s.whole = true) := by
  refine System.everyRunEnds_of_measure Nat.lt_wfRel.wf (fun s => s.link.weight N m.length) ?_ ?_
  · intro s t hs hstep
    have hinv := delivery_reachable hfit hs
    obtain ⟨got, hlink, -⟩ := delivery_link hinv.wired hfit hstep
    exact weight_step hinv.wired hm hlink
  · intro s hs hstuck
    have hinv := delivery_reachable hfit hs
    have hnone : ∀ side a, s.link.act (.iterations N) side a = none := by
      intro side a
      by_contra hsome
      obtain ⟨l, hl⟩ := Option.ne_none_iff_exists'.mp hsome
      refine hstuck ⟨l, s.whole && decide (IsWhole m (s.link.chunk side a))⟩ ⟨(side, a), ?_⟩
      rw [Delivery.act, hl, Option.map_some]
    refine ⟨stuck_ended hm hinv hnone, fun hend => ?_, fun hwhole => ?_⟩
    · by_contra hnot
      rw [Bool.not_eq_true] at hnot
      rcases hinv.cut hnot with hthrew | ⟨hne, hlen⟩
      · exact threw_not_endsWell hthrew hend
      · rcases hinv.balance with hthrew | hthrew | hbalance
        · exact threw_not_endsWell (Or.inl hthrew) hend
        · exact threw_not_endsWell (Or.inr hthrew) hend
        · exact short_not_endsWell hbalance hne hlen hend
    · rcases talking_progress hm hfit (hinv.talking hwhole) with hend | ⟨side, a, l', hl', -⟩
      · exact hend
      · rw [hnone] at hl'
        cases hl'

theorem segments_end_two_bytes :
    (segments 3 [104, 105]).EveryRunEnds fun s =>
      (s.link.client.ended = true ∧ s.link.server.ended = true) ∧
        (s.link.EndsWell 3 ↔ s.whole = true) :=
  segments_end 3 [104, 105] (List.cons_ne_nil _ _) (by decide)

/-- A name of two bytes and one iteration. If the first read of the server gets the first
byte alone, it echoes the message in two records, where it has none otherwise; and if the
client gets the echo in two segments, it throws. -/
theorem split_read_miscounts_or_throws :
    (∃ s, (segments 1 [48, 48]).Reachable s ∧ s.link.client.pc = .returned false ∧
      s.link.server.pc = .returned true ∧ s.link.server.count = 1) ∧
    (∃ s, (segments 1 [48, 48]).Reachable s ∧
      s.link.client.pc = .threw (.illegalState .readLength)) := by
  constructor
  · have hrun : (System.runActions (Delivery.act (.iterations 1) [48, 48])
        [(.client, .advance), (.server, .read 1), (.server, .advance), (.server, .read 1),
          (.server, .advance), (.client, .read 2), (.client, .advance), (.server, .eof)]
        ⟨Link.start [48, 48], true⟩).isSome = true := rfl
    have hreach : (segments 1 [48, 48]).Reachable _ :=
      System.reachable_of_runActions (.start (Eq.refl _)) (Option.some_get hrun).symm
    exact ⟨_, hreach, rfl, rfl, rfl⟩
  · have hrun : (System.runActions (Delivery.act (.iterations 1) [48, 48])
        [(.client, .advance), (.server, .read 2), (.server, .advance), (.client, .read 1)]
        ⟨Link.start [48, 48], true⟩).isSome = true := rfl
    have hreach : (segments 1 [48, 48]).Reachable _ :=
      System.reachable_of_runActions (.start (Eq.refl _)) (Option.some_get hrun).symm
    exact ⟨_, hreach, rfl⟩

end ShouldIAsync.JavaEcho
