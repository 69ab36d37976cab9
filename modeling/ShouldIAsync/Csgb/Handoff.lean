import ShouldIAsync.Csgb.Run

/-!
# Handing a message back and forth

Two threads that wait for each other: each sends the other a message and waits for one
itself. All that counts of a thread is whether there is a message for it (`full`) and
what it is going to do before it may wait.

Of two such threads one is always able to go on (`Inv.signalled`): a thread uses up its
message only to send one. A thread that has been cancelled sends a last message and is
gone, and its peer waits at most once more, as it is going to see `term` too
(`Half.parted`).
-/

namespace ShouldIAsync.Csgb

/-- What there is to know of a pair that hands one message to and fro. -/
structure Handoff (T : Type) where
  /-- there is a message for the thread -/
  full : T → Prop
  /-- going to wait, and not to send before -/
  goesToWait : Member → T → Bool
  /-- going to wait without a look at `term` before -/
  awaits : Member → T → Bool
  cancelled : T → Bool
  /-- cancelled, with the last message sent -/
  parted : Member → T → Bool
  parted_cancelled : ∀ {who t}, parted who t = true → cancelled t = true

namespace Handoff

variable {T : Type} (H : Handoff T)

/-- The thread will find a message when it waits. -/
def Signalled (who : Member) (t : T) : Prop := H.goesToWait who t = true → H.full t

/-- One thread's part of the invariant. -/
structure Half (who : Member) (term : Bool) (me peer : T) : Prop where
  cancelled : H.cancelled me = true → term = true
  parted : H.parted who me = true → H.awaits who.other peer = true → H.full peer

/-- No thread waits for a message that nobody will send. -/
structure Inv (who : Member) (term : Bool) (me peer : T) : Prop where
  mine : H.Half who term me peer
  peers : H.Half who.other term peer me
  signalled : H.Signalled who me ∨ H.Signalled who.other peer

/-- `t'` is no nearer to a wait than `t`, with the same message. -/
structure Keeps (who : Member) (t t' : T) : Prop where
  full : H.full t → H.full t'
  goesToWait : H.goesToWait who t' = true → H.goesToWait who t = true
  awaits : H.awaits who t' = true → H.awaits who t = true
  cancelled : H.cancelled t' = true → H.cancelled t = true
  parted : H.parted who t' = true → H.parted who t = true

variable {H} {who : Member} {term : Bool} {me peer me' peer' : T}

theorem Keeps.refl (who : Member) (t : T) : H.Keeps who t t := ⟨id, id, id, id, id⟩

/-- The invariant does not depend on which of the two is named first. -/
theorem Inv.swap (h : H.Inv who term me peer) : H.Inv who.other term peer me := by
  refine ⟨h.peers, ?_, ?_⟩
  · rw [Member.other_other]
    exact h.mine
  · rw [Member.other_other]
    exact h.signalled.symm

/-- Nobody has parted from a thread that did not see `term` when it looked. -/
theorem Inv.parted_next (h : H.Inv who term me peer)
    (hawaits : H.awaits who me' = true → (H.full me → H.full me') ∧ (H.awaits who me = true ∨
      term = false))
    (hs : H.parted who.other peer = true) (ha : H.awaits who me' = true) : H.full me' := by
  obtain ⟨hfull, ha | hterm⟩ := hawaits ha
  · refine hfull (h.peers.parted hs ?_)
    rw [Member.other_other]
    exact ha
  · have := h.peers.cancelled (H.parted_cancelled hs)
    rw [hterm] at this
    cases this

/-- A step that sends nothing: the thread keeps the message it goes to wait for. -/
theorem Inv.next (h : H.Inv who term me peer) (hcancelled : H.cancelled me' = true → term = true)
    (hparted : H.parted who me' = true → H.parted who me = true)
    (hawaits : H.awaits who me' = true → (H.full me → H.full me') ∧ (H.awaits who me = true ∨
      term = false))
    (hwaits : H.goesToWait who me' = true → (H.full me → H.full me') ∧ H.goesToWait who me = true)
    (hpeer : H.Keeps who.other peer peer') : H.Inv who term me' peer' := by
  refine ⟨⟨hcancelled, fun hp ha => ?_⟩, ⟨fun hc => h.peers.cancelled (hpeer.cancelled hc), ?_⟩, ?_⟩
  · exact hpeer.full (h.mine.parted (hparted hp) (hpeer.awaits ha))
  · rw [Member.other_other]
    exact fun hs => h.parted_next hawaits (hpeer.parted hs)
  · rcases h.signalled with hsig | hsig
    · left
      intro hw
      obtain ⟨hfull, hw⟩ := hwaits hw
      exact hfull (hsig hw)
    · right
      exact fun hw => hpeer.full (hsig (hpeer.goesToWait hw))

/-- A step that sends a message. -/
theorem Inv.send (h : H.Inv who term me peer) (hcancelled : H.cancelled me' = true → term = true)
    (hawaits : H.awaits who me' = true → (H.full me → H.full me') ∧ (H.awaits who me = true ∨
      term = false))
    (hpeer : H.Keeps who.other peer peer') (hfull : H.full peer') : H.Inv who term me' peer' := by
  refine ⟨⟨hcancelled, fun _ _ => hfull⟩, ⟨fun hc => h.peers.cancelled (hpeer.cancelled hc), ?_⟩,
    Or.inr fun _ => hfull⟩
  rw [Member.other_other]
  exact fun hs => h.parted_next hawaits (hpeer.parted hs)

theorem Inv.terminate (h : H.Inv who term me peer) : H.Inv who true me peer :=
  ⟨⟨fun _ => Eq.refl _, h.mine.parted⟩, ⟨fun _ => Eq.refl _, h.peers.parted⟩, h.signalled⟩

end Handoff

end ShouldIAsync.Csgb
