import ShouldIAsync.EventLoop.CommandInv

/-!
# The main goroutine keeps the invariant

One lemma per statement of `startCommands` and `joinCommands`. The calls of the
receive loop come first, each with what it adds to the trace and to the joined
errors (`closeStream_spec`, `cancelOnceFunc_spec`); an action on the result in
hand then pays part of what the loop owes (`InLoop.pay`). The loop ends when as
many results are counted as commands were started, and then all are received.
-/

namespace ShouldIAsync.EventLoop

open ShouldIAsync.Lib ShouldIAsync.GoStd

variable {ε ω β : Type}

/-! ## The calls of the loop -/

/-- What the main goroutine's calls in the loop leave alone. -/
structure SameLoop (s t : State ε ω) : Prop where
  commands : t.commands = s.commands
  waiters : t.waiters = s.waiters
  startErr : t.startErr = s.startErr
  startedCount : t.startedCommandCount = s.startedCommandCount
  finishedCount : t.finishedCount = s.finishedCount

/-- The main goroutine records an event that is not about a waiter. -/
theorem Agree.snoc {cmds : List Command} {s t : State ε ω} {e : Event ε} (h : Agree cmds s)
    (hsame : SameLoop s t) (ht : t.trace = s.trace ++ [e])
    (ho : t.cancelledOnce = true → .cancelled ∈ t.trace) (hf : Follows cmds s.trace e)
    (hst : ∀ i, e ≠ .started i) (hw : ∀ i err, e ≠ .waited i err)
    (hr : ∀ i err, e ≠ .received i err) : Agree cmds t where
  ordered := ht ▸ ordered_snoc h.ordered hf
  length := hsame.commands ▸ h.length
  slots := by
    intro i
    rw [hsame.commands, h.slots i, ht]
    simp [(hst i).symm]
  waiters := by
    intro i
    rw [hsame.waiters, ht]
    exact (h.waiters i).snoc (hw i) (hr i)
  once := ho

/-- The one `Close` of a writer that can be closed, and nothing otherwise. -/
theorem closeStream_spec {E : Exec ε ω β} {cmds : List Command} {s t : State ε ω} {idx : Nat}
    {stream : Stream} (h : Agree cmds s) (ht : closeStream E cmds s idx stream = t)
    (hr : ∃ err, .received idx err ∈ s.trace) (hfresh : ∀ err, .closed idx stream err ∉ s.trace) :
    Agree cmds t ∧ SameLoop s t ∧
      (closable cmds idx stream = true → ∃ err, .closed idx stream err ∈ t.trace) ∧
      (∀ e, (∀ err, e ≠ .closed idx stream err) → (e ∈ t.trace ↔ e ∈ s.trace)) ∧
      (∀ e, e ∈ s.trace → e ∈ t.trace) ∧
      ∃ new, Error.leavesOf t.err = Error.leavesOf s.err ++ new ∧
        t.trace.flatMap member = s.trace.flatMap member ++ new := by
  unfold closeStream at ht
  split at ht
  next hc =>
    have hf : ∀ err, Follows cmds s.trace (.closed idx stream err) := fun _ => ⟨hc, hr, hfresh⟩
    split at ht
    next x hx =>
      subst ht
      refine ⟨h.snoc ⟨rfl, rfl, rfl, rfl, rfl⟩ rfl
        (fun ho => List.mem_append_left _ (h.once ho)) (hf none) (by simp) (by simp) (by simp),
        ⟨rfl, rfl, rfl, rfl, rfl⟩, fun _ => ⟨none, by simp⟩, ?_, ?_, [], ?_, ?_⟩
      · intro e he
        simp [he none]
      · intro e he
        exact List.mem_append_left _ he
      · simp
      · simp [member]
    next cause x hx =>
      subst ht
      refine ⟨h.snoc ⟨rfl, rfl, rfl, rfl, rfl⟩ rfl
        (fun ho => List.mem_append_left _ (h.once ho)) (hf (some cause)) (by simp) (by simp)
        (by simp), ⟨rfl, rfl, rfl, rfl, rfl⟩, fun _ => ⟨some cause, by simp [joinErr]⟩, ?_, ?_,
        [.close idx stream cause], ?_, ?_⟩
      · intro e he
        simp [joinErr, he (some cause)]
      · intro e he
        exact List.mem_append_left _ he
      · simp [joinErr, Error.leavesOf_joinAll]
      · simp [joinErr, member]
  next hc =>
    subst ht
    exact ⟨h, ⟨rfl, rfl, rfl, rfl, rfl⟩, fun hc' => absurd hc' hc, fun _ _ => Iff.rfl,
      fun _ he => he, [], by simp, by simp⟩

/-- After `cancelOnceFunc` there has been a cancel. -/
theorem cancelOnceFunc_spec {E : Exec ε ω β} {cmds : List Command} {s t : State ε ω}
    (h : Agree cmds s) (ho : Observed s.trace) (ht : cancelOnceFunc E s = t) :
    Agree cmds t ∧ SameLoop s t ∧ .cancelled ∈ t.trace ∧ t.err = s.err ∧
      (∀ e, e ≠ .cancelled → (e ∈ t.trace ↔ e ∈ s.trace)) ∧
      t.trace.flatMap member = s.trace.flatMap member := by
  unfold cancelOnceFunc at ht
  split at ht
  next honce =>
    subst ht
    exact ⟨h, ⟨rfl, rfl, rfl, rfl, rfl⟩, h.once honce, rfl, fun _ _ => Iff.rfl, rfl⟩
  next =>
    subst ht
    have hmem : .cancelled ∈ s.trace ++ [(.cancelled : Event ε)] := by simp
    refine ⟨h.snoc ⟨rfl, rfl, rfl, rfl, rfl⟩ rfl (fun _ => hmem) ho (by simp) (by simp)
      (by simp), ⟨rfl, rfl, rfl, rfl, rfl⟩, hmem, rfl, ?_, ?_⟩
    · intro e he
      simp [cancelFunc, he]
    · simp [cancelFunc, member]

/-! ## Starting and spawning -/

/-- No result is received while no waiter is spawned. -/
theorem not_received_of_absent {cmds : List Command} {s : State ε ω} (h : Agree cmds s)
    {i : Nat} (habs : s.waiters i = .absent) (err : Option (WaitError ε)) :
    .received i err ∉ s.trace := by
  intro hr
  have hw := h.waiters i
  rw [habs] at hw
  exact hw err (waited_of_received h.ordered hr)

/-- A command that is started, or fails to, keeps the invariant. -/
theorem startCommand_inv {E : Exec ε ω β} {cmds : List Command} {s : State ε ω} {idx : Nat}
    (h : Inv cmds s) (hm : s.main = .starting idx) (hlt : idx < cmds.length) :
    Inv cmds (startCommand E s idx) := by
  have hp := h.phase
  rw [Phase, hm] at hp
  obtain ⟨hbefore, -, hbound, hse, hsf⟩ := hp
  have herr := h.errors
  simp only [hm, unreported, hse, Error.leavesOf_none, hbefore.err, List.append_nil] at herr
  have hidx : idx < s.commands.length := h.length ▸ hlt
  have hnot : .started idx ∉ s.trace := fun hs => absurd (hbound idx hs) (Nat.lt_irrefl _)
  have hno : ∀ i err, .received i err ∉ s.trace := fun i err =>
    not_received_of_absent h.toAgree (hbefore.absent i) err
  unfold startCommand
  split
  next x hx =>
    refine ⟨⟨ordered_snoc h.ordered hnot, ?_, ?_, ?_, ?_⟩, ?_, ?_⟩
    · simpa using h.length
    · intro i
      show (s.commands.set idx .started)[i]? = some .started ↔ _
      by_cases hi : i = idx
      · subst hi
        simp [hidx]
      · rw [List.getElem?_set_ne (Ne.symm hi), h.slots i]
        simp [hi]
    · intro i
      exact (h.waiters i).snoc (by simp) (by simp)
    · intro ho
      exact List.mem_append_left _ (h.once ho)
    · simpa [unreported, member, hse, hbefore.err] using herr
    · refine ⟨⟨hbefore.absent, hbefore.count, hbefore.finished, hbefore.err, hbefore.once⟩, hlt, ?_,
        hse, ?_⟩
      · intro i hi
        rcases List.mem_append.mp hi with hi | hi
        · exact Nat.lt_succ_of_lt (hbound i hi)
        · cases List.mem_singleton.mp hi
          exact Nat.lt_succ_self _
      · intro i c hc
        exact hsf i c (by simpa using hc)
  next cause x hx =>
    have hfollows : Follows cmds s.trace (.startFailed idx cause) := hsf
    refine ⟨⟨ordered_snoc h.ordered hfollows, ?_, ?_, ?_, ?_⟩, ?_, ?_⟩
    · simpa using h.length
    · intro i
      show (s.commands.set idx .created)[i]? = some .started ↔ _
      by_cases hi : i = idx
      · subst hi
        simp [hidx, hnot]
      · rw [List.getElem?_set_ne (Ne.symm hi), h.slots i]
        simp
    · intro i
      exact (h.waiters i).snoc (by simp) (by simp)
    · intro ho
      exact List.mem_append_left _ (h.once ho)
    · simpa [unreported, member, hbefore.err] using herr.append_right [.startingCommand idx cause]
    · exact ⟨⟨hbefore.absent, hbefore.count, hbefore.finished, hbefore.err, hbefore.once⟩,
        Or.inl ⟨idx, cause, by simp⟩⟩

/-- Once every start is through or answered, the spawn loop begins. -/
theorem spawning_start {cmds : List Command} {s t : State ε ω} (h : Agree cmds t)
    (hbefore : BeforeLoop s) (hsame : SameLoop s t) (hm : t.main = .spawning 0)
    (hans : Observed t.trace → .cancelled ∈ t.trace) : Phase cmds t := by
  have habs : ∀ i, t.waiters i = .absent := fun i => hsame.waiters ▸ hbefore.absent i
  rw [Phase, hm]
  refine ⟨fun i _ => habs i, fun i hi => absurd hi (Nat.not_lt_zero i), ?_,
    hsame.finishedCount.trans hbefore.finished, fun i err => not_received_of_absent h (habs i) err,
    hans⟩
  rw [hsame.startedCount, hbefore.count]
  rfl

theorem spawning_inv {cmds : List Command} {s : State ε ω} {idx : Nat} (h : Inv cmds s)
    (hm : s.main = .spawning idx) (hslot : s.commands[idx]? = some .started) :
    Inv cmds { setWaiter s idx .spawned with
      main := .spawning (idx + 1)
      startedCommandCount := s.startedCommandCount + 1 } := by
  have hp := h.phase
  rw [Phase, hm] at hp
  obtain ⟨habs, hspawned, hcount, hfin, hno, hans⟩ := hp
  have hstarted := (h.slots idx).mp hslot
  refine ⟨⟨h.ordered, h.length, h.slots, ?_, h.once⟩,
    by simpa [unreported, hm, setWaiter] using h.errors, ?_⟩
  · intro i
    by_cases hi : i = idx
    · subst hi
      have hw := h.waiters i
      rw [habs i (Nat.le_refl i)] at hw
      simp only [setWaiter, if_pos]
      exact ⟨hstarted, hw⟩
    · simp only [setWaiter, if_neg hi]
      exact h.waiters i
  · refine ⟨?_, ?_, ?_, hfin, hno, hans⟩
    · intro i hi
      simp only [setWaiter]
      rw [if_neg (by omega)]
      exact habs i (by omega)
    · intro i hi his
      by_cases hii : i = idx
      · simp [setWaiter, hii]
      · simp only [setWaiter, if_neg hii]
        exact hspawned i (by omega) his
    · show s.startedCommandCount + 1 = (startedBelow s (idx + 1)).card
      rw [card_startedBelow_succ, if_pos hslot, hcount]

/-- A command that was not started has no waiter. -/
theorem spawning_skip {cmds : List Command} {s : State ε ω} {idx : Nat} (h : Inv cmds s)
    (hm : s.main = .spawning idx) (hslot : s.commands[idx]? ≠ some .started) :
    Inv cmds { s with main := .spawning (idx + 1) } := by
  have hp := h.phase
  rw [Phase, hm] at hp
  obtain ⟨habs, hspawned, hcount, hfin, hno, hans⟩ := hp
  refine ⟨⟨h.ordered, h.length, h.slots, h.waiters, h.once⟩,
    by simpa [unreported, hm] using h.errors, ?_⟩
  refine ⟨fun i hi => habs i (by omega), ?_, ?_, hfin, hno, hans⟩
  · intro i hi his
    have hii : i ≠ idx := by
      intro heq
      subst heq
      exact hslot ((h.slots i).mpr his)
    exact hspawned i (by omega) his
  · show s.startedCommandCount = (startedBelow s (idx + 1)).card
    rw [card_startedBelow_succ, if_neg hslot, hcount, Nat.add_zero]

/-- With no command started there is nothing to join. -/
theorem spawning_none {cmds : List Command} {s : State ε ω} {idx : Nat} (h : Inv cmds s)
    (hm : s.main = .spawning idx) (hend : s.commands[idx]? = none)
    (hzero : s.startedCommandCount = 0) : Inv cmds (returnJoined s) := by
  have hp := h.phase
  rw [Phase, hm] at hp
  obtain ⟨-, -, hcount, -, -, hans⟩ := hp
  have hnone : ∀ i, .started i ∉ s.trace := by
    intro i hi
    have hempty := Finset.card_eq_zero.mp (hcount.symm.trans hzero)
    have hlt := lt_of_started h.toAgree hi
    have hge := List.getElem?_eq_none_iff.mp hend
    have hmem : i ∈ startedBelow s idx := mem_startedBelow.mpr ⟨by omega, (h.slots i).mpr hi⟩
    rw [hempty] at hmem
    cases hmem
  refine ⟨⟨h.ordered, h.length, h.slots, h.waiters, h.once⟩,
    by simpa [unreported, hm, returnJoined] using h.errors, ?_⟩
  exact ⟨⟨fun i hi => absurd hi (hnone i), fun i hi => absurd hi (hnone i), hans⟩, rfl⟩

/-- The main loop begins to receive when all waiters are there. -/
theorem spawning_done {cmds : List Command} {s : State ε ω} {idx : Nat} (h : Inv cmds s)
    (hm : s.main = .spawning idx) (hend : s.commands[idx]? = none)
    (hpos : s.startedCommandCount ≠ 0) : Inv cmds { s with main := .receiving } := by
  have hp := h.phase
  rw [Phase, hm] at hp
  obtain ⟨-, hspawned, hcount, hfin, hno, hans⟩ := hp
  have hge := List.getElem?_eq_none_iff.mp hend
  refine ⟨⟨h.ordered, h.length, h.slots, h.waiters, h.once⟩,
    by simpa [unreported, hm] using h.errors, ?_⟩
  refine InLoop.mk ?_ ?_ ?_ ?_ trivial ?_ ?_ fun ho => Or.inl (hans ho)
  · intro i hi
    have hlt := lt_of_started h.toAgree hi
    exact hspawned i (by omega) hi
  · show s.startedCommandCount = (startedBelow s s.commands.length).card
    rw [hcount]
    congr 1
    ext i
    simp only [mem_startedBelow]
    constructor
    · rintro ⟨-, hi⟩
      exact ⟨lt_of_started h.toAgree ((h.slots i).mp hi), hi⟩
    · rintro ⟨hi, hi'⟩
      exact ⟨by omega, hi'⟩
  · show s.finishedCount + 0 = (received s).card
    rw [hfin]
    symm
    rw [Nat.add_zero, Finset.card_eq_zero, Finset.eq_empty_iff_forall_notMem]
    intro i hi
    have hw := h.waiters i
    have hdone := (mem_received.mp hi).2
    cases hwi : s.waiters i <;> rw [hwi] at hdone hw <;> try cases hdone
    obtain ⟨err, herr⟩ := hw
    exact hno i err herr
  · show s.finishedCount < s.startedCommandCount
    omega
  · intro i err hi
    exact absurd hi (hno i err)
  · intro i st hi
    cases hi

/-! ## The receive loop -/

/-- An action of the loop on the result in hand, which pays some of what is owed. -/
theorem InLoop.pay {cmds : List Command} {s t : State ε ω} {m : Main ε} (h : InLoop cmds s)
    (hsame : SameLoop s t)
    (hst : ∀ i, .started i ∈ t.trace → .started i ∈ s.trace) (hhand : inHand m = inHand s.main)
    (hheld : HandHeld t.trace m)
    (hcloses : ∀ i err, .received i err ∈ t.trace → ∀ stream, closable cmds i stream = true →
      todo m i stream ∨ ∃ err, .closed i stream err ∈ t.trace)
    (hfresh : ∀ i stream, todo m i stream → ∀ err, .closed i stream err ∉ t.trace)
    (hans : Observed t.trace → .cancelled ∈ t.trace ∨
      owes m) : InLoop cmds { t with main := m } where
  spawned := by
    intro i hi
    show t.waiters i ≠ .absent
    rw [hsame.waiters]
    exact h.spawned i (hst i hi)
  count := by
    show t.startedCommandCount = (startedBelow t t.commands.length).card
    rw [startedBelow_congr hsame.commands, hsame.commands, hsame.startedCount]
    exact h.count
  finished := by
    have hset : received { t with main := m } = received s := by
      simp only [received, hsame.commands, hsame.waiters]
    show t.finishedCount + inHand m = _
    rw [hset, hsame.finishedCount, hhand]
    exact h.finished
  short := by
    show t.finishedCount < t.startedCommandCount
    rw [hsame.finishedCount, hsame.startedCount]
    exact h.short
  held := hheld
  closes := hcloses
  fresh := hfresh
  answered := hans

/-- Closing the writer of one stream, on the way to `m`. -/
theorem closing_inv {E : Exec ε ω β} {cmds : List Command} {s : State ε ω} {idx : Nat}
    {stream : Stream} {waitErr : Option (WaitError ε)} {m : Main ε} (h : Inv cmds s)
    (hm : s.main = .closing stream idx waitErr)
    (hpaid : ∀ i st, todo s.main i st ↔ todo m i st ∨ (i = idx ∧ st = stream))
    (hleft : ¬ todo m idx stream) (howes : owes m = owes s.main) (hhand : inHand m = 1)
    (hheld : ∀ tr : List (Event ε), HandHeld tr m ↔ .received idx waitErr ∈ tr)
    (hrep : unreported m = unreported s.main) :
    Inv cmds { closeStream E cmds s idx stream with main := m } := by
  have hp : InLoop cmds s := by
    have := h.phase
    rw [Phase, hm] at this
    exact this
  have hrec : .received idx waitErr ∈ s.trace := by
    have := hp.held
    rw [hm] at this
    exact this
  have hfresh := hp.fresh idx stream ((hpaid idx stream).mpr (Or.inr ⟨rfl, rfl⟩))
  obtain ⟨ht, hsame, hclosed, hmem, hsub, new, herr, hflat⟩ :=
    closeStream_spec (E := E) h.toAgree rfl ⟨waitErr, hrec⟩ hfresh
  generalize closeStream E cmds s idx stream = t at ht hsame hclosed hmem hsub herr hflat ⊢
  have hre : ∀ i err, .received i err ∈ t.trace → .received i err ∈ s.trace :=
    fun i err he => (hmem _ (by simp)).mp he
  refine ⟨⟨ht.ordered, ht.length, ht.slots, ht.waiters, ht.once⟩, ?_, ?_⟩
  · show (Error.leavesOf t.startErr ++ Error.leavesOf t.err ++ unreported m).Perm _
    rw [hsame.startErr, herr, hflat, hrep, ← List.append_assoc, List.append_assoc _ new]
    refine (List.Perm.append_left _ List.perm_append_comm).trans ?_
    rw [← List.append_assoc]
    exact h.errors.append_right new
  · have hphase : InLoop cmds { t with main := m } := by
      refine hp.pay hsame (fun i hi => (hmem _ (by simp)).mp hi) ?_ ((hheld _).mpr (hsub _ hrec))
        ?_ ?_ ?_
      · rw [hhand, hm]
        rfl
      · intro i err he st hst
        by_cases hcase : i = idx ∧ st = stream
        · obtain ⟨rfl, rfl⟩ := hcase
          exact Or.inr (hclosed hst)
        · rcases hp.closes i err (hre i err he) st hst with htodo | ⟨c, hc⟩
          · exact Or.inl (((hpaid i st).mp htodo).resolve_right hcase)
          · exact Or.inr ⟨c, hsub _ hc⟩
      · intro i st hi err he
        have hne : ¬ (i = idx ∧ st = stream) := by
          rintro ⟨rfl, rfl⟩
          exact hleft hi
        have hold := hp.fresh i st ((hpaid i st).mpr (Or.inl hi)) err
        refine hold ((hmem _ ?_).mp he)
        intro err' heq
        cases heq
        exact hne ⟨rfl, rfl⟩
      · intro ho
        have ho' : Observed s.trace := by
          rcases ho with ⟨i, c, he⟩ | ⟨i, err, he, hr⟩
          · exact Or.inl ⟨i, c, (hmem _ (by simp)).mp he⟩
          · exact Or.inr ⟨i, err, hre i err he, hr⟩
        rcases hp.answered ho' with hc | hc
        · exact Or.inl (hsub _ hc)
        · exact Or.inr (howes ▸ hc)
    cases m <;> first | exact hphase | cases hhand

/-- A result that is judged keeps the invariant. -/
theorem judging_inv {E : Exec ε ω β} {cmds : List Command} {s : State ε ω} {idx : Nat}
    {waitErr : Option (WaitError ε)} (h : Inv cmds s) (hm : s.main = .judging idx waitErr) :
    Inv cmds (if didExitGracefully waitErr then { s with main := .counting idx }
      else { cancelOnceFunc E (joinErr s (.leaf (.command idx waitErr))) with
        main := .counting idx }) := by
  have hp : InLoop cmds s := by
    have := h.phase
    rw [Phase, hm] at this
    exact this
  have hrec : .received idx waitErr ∈ s.trace := by
    have := hp.held
    rw [hm] at this
    exact this
  have herr := h.errors
  simp only [hm, unreported] at herr
  by_cases hg : didExitGracefully waitErr = true
  · rw [if_pos hg]
    simp only [member, hg, if_true, List.append_nil] at herr
    refine ⟨⟨h.ordered, h.length, h.slots, h.waiters, h.once⟩, by simpa [unreported] using herr, ?_⟩
    refine hp.pay ⟨rfl, rfl, rfl, rfl, rfl⟩ (fun _ hi =>
      hi) (by rw [hm]; rfl) ⟨waitErr, hrec⟩ ?_ ?_ ?_
    · simpa [hm, todo] using hp.closes
    · intro i st hi
      cases hi
    · intro ho
      rcases hp.answered ho with hc | hc
      · exact Or.inl hc
      · simp only [hm, owes, hg, Bool.true_eq_false, or_false] at hc
        exact Or.inr hc
  · rw [if_neg hg]
    rw [Bool.not_eq_true] at hg
    simp only [member, hg, Bool.false_eq_true, if_false] at herr
    have hagree : Agree cmds (joinErr s (.leaf (.command idx waitErr))) :=
      ⟨h.ordered, h.length, h.slots, h.waiters, h.once⟩
    obtain ⟨ht, hsame, hcancelled, hterr, hmem, hflat⟩ :=
      cancelOnceFunc_spec (E := E) hagree (Or.inr ⟨idx, waitErr, hrec, Or.inr hg⟩) rfl
    generalize cancelOnceFunc E (joinErr s (.leaf (.command idx waitErr))) = t at *
    have hsame' : SameLoop s t := ⟨hsame.commands, hsame.waiters, hsame.startErr,
      hsame.startedCount, hsame.finishedCount⟩
    refine ⟨⟨ht.ordered, ht.length, ht.slots, ht.waiters, ht.once⟩, ?_, ?_⟩
    · show (Error.leavesOf t.startErr ++ Error.leavesOf t.err ++ []).Perm (t.trace.flatMap member)
      rw [hsame'.startErr, hterr, hflat]
      simpa [joinErr, Error.leavesOf_joinAll] using herr
    · refine hp.pay hsame' (fun i hi => (hmem _ (by simp)).mp hi) (by rw [hm]; rfl)
        ⟨waitErr, (hmem _ (by simp)).mpr hrec⟩ ?_ ?_ fun _ => Or.inl hcancelled
      · intro i err he st hst
        rcases hp.closes i err ((hmem _ (by simp)).mp he) st hst with htodo | ⟨c, hc⟩
        · rw [hm] at htodo
          cases htodo
        · exact Or.inr ⟨c, (hmem _ (by simp)).mpr hc⟩
      · intro i st hi
        cases hi

/-- When as many results are counted as commands were started, all are received. -/
theorem all_received {cmds : List Command} {s : State ε ω} (h : Agree cmds s)
    (hcard : (received s).card = (startedBelow s s.commands.length).card) {i : Nat}
    (hi : .started i ∈ s.trace) : ∃ err, .received i err ∈ s.trace := by
  have hdone : ∀ j, j ∈ received s → ∃ err, .received j err ∈ s.trace := by
    intro j hj
    have hw := h.waiters j
    have hd := (mem_received.mp hj).2
    cases hwj : s.waiters j with
    | done =>
      rw [hwj] at hw
      exact hw
    | _ =>
      rw [hwj] at hd
      cases hd
  have hsub : received s ⊆ startedBelow s s.commands.length := by
    intro j hj
    obtain ⟨err, hr⟩ := hdone j hj
    have hst := started_of_waited h.ordered (waited_of_received h.ordered hr)
    exact mem_startedBelow.mpr ⟨lt_of_started h hst, (h.slots j).mpr hst⟩
  have heq := Finset.eq_of_subset_of_card_le hsub hcard.ge
  refine hdone i ?_
  rw [heq]
  exact mem_startedBelow.mpr ⟨lt_of_started h hi, (h.slots i).mpr hi⟩

theorem counting_inv {E : Exec ε ω β} {cmds : List Command} {s t : State ε ω} {idx : Nat}
    (h : Inv cmds s) (hm : s.main = .counting idx) (hstep : mainStep E cmds s = some t) :
    Inv cmds t := by
  have hp : InLoop cmds s := by
    have := h.phase
    rw [Phase, hm] at this
    exact this
  obtain ⟨waitErr, hrec⟩ : ∃ err, .received idx err ∈ s.trace := by
    have := hp.held
    rw [hm] at this
    exact this
  have hfin := hp.finished
  have herr := h.errors
  simp only [hm, inHand] at hfin
  simp only [hm, unreported, List.append_nil] at herr
  -- the cancel that command 0 asks for
  obtain ⟨u, hu, hagree, hsame, hmem, huerr, hflat, hans⟩ :
      ∃ u, u = (if idx = 0 then cancelOnceFunc E s else s) ∧ Agree cmds u ∧ SameLoop s u ∧
        (∀ e, e ≠ .cancelled → (e ∈ u.trace ↔ e ∈ s.trace)) ∧ u.err = s.err ∧
        u.trace.flatMap member = s.trace.flatMap member ∧
        (Observed u.trace → .cancelled ∈ u.trace) := by
    by_cases hidx : idx = 0
    · obtain ⟨ht, hsame, hcancelled, hterr, hmem, hflat⟩ :=
        cancelOnceFunc_spec (E := E) h.toAgree (Or.inr ⟨idx, waitErr, hrec, Or.inl hidx⟩) rfl
      exact ⟨_, (if_pos hidx).symm, ht, hsame, hmem, hterr, hflat, fun _ => hcancelled⟩
    · refine ⟨s, (if_neg hidx).symm, h.toAgree, ⟨rfl, rfl, rfl, rfl, rfl⟩, fun _ _ => Iff.rfl, rfl,
        rfl, fun ho => ?_⟩
      rcases hp.answered ho with hc | hc
      · exact hc
      · rw [hm] at hc
        exact absurd hc hidx
  have hcloses : ∀ i err, .received i err ∈ u.trace → ∀ stream, closable cmds i stream = true →
      ∃ err, .closed i stream err ∈ u.trace := by
    intro i err he st hst
    rcases hp.closes i err ((hmem _ (by simp)).mp he) st hst with htodo | ⟨c, hc⟩
    · rw [hm] at htodo
      cases htodo
    · exact ⟨c, (hmem _ (by simp)).mpr hc⟩
  have hrecset : received u = received s := by
    simp only [received, hsame.commands, hsame.waiters]
  have hstartset : startedBelow u u.commands.length = startedBelow s s.commands.length := by
    rw [startedBelow_congr hsame.commands, hsame.commands]
  have herru : (Error.leavesOf u.startErr ++ Error.leavesOf u.err).Perm
      (u.trace.flatMap member) := by
    rw [hsame.startErr, huerr, hflat]
    exact herr
  simp only [mainStep, hm, ← hu] at hstep
  split at hstep
  next hall =>
    obtain rfl := Option.some.inj hstep
    refine ⟨⟨hagree.ordered, hagree.length, hagree.slots, hagree.waiters, hagree.once⟩,
      by simpa [unreported, returnJoined] using herru, ⟨?_, ?_, hans⟩, rfl⟩
    · intro i hi
      refine all_received hagree ?_ hi
      rw [hrecset, hstartset, ← hfin, ← hp.count, ← hsame.startedCount, ← hall,
        hsame.finishedCount]
    · intro i hi st hst
      obtain ⟨err, hr⟩ : ∃ err, .received i err ∈ u.trace := by
        refine all_received hagree ?_ hi
        rw [hrecset, hstartset, ← hfin, ← hp.count, ← hsame.startedCount, ← hall,
          hsame.finishedCount]
      exact hcloses i err hr st hst
  next hmore =>
    obtain rfl := Option.some.inj hstep
    refine ⟨⟨hagree.ordered, hagree.length, hagree.slots, hagree.waiters, hagree.once⟩,
      by simpa [unreported] using herru, ?_⟩
    refine InLoop.mk ?_ ?_ ?_ ?_ trivial ?_ ?_ fun ho => Or.inl (hans ho)
    · intro i hi
      show u.waiters i ≠ .absent
      rw [hsame.waiters]
      exact hp.spawned i ((hmem _ (by simp)).mp hi)
    · show u.startedCommandCount = (startedBelow u u.commands.length).card
      rw [hstartset, hsame.startedCount]
      exact hp.count
    · show u.finishedCount + 1 + 0 = (received u).card
      rw [hrecset, hsame.finishedCount]
      exact hfin
    · show u.finishedCount + 1 < u.startedCommandCount
      have hshort := hp.short
      rw [hsame.finishedCount, hsame.startedCount] at hmore ⊢
      omega
    · intro i err he st hst
      exact Or.inr (hcloses i err he st hst)
    · intro i st hi
      cases hi

/-! ## Every reachable state -/

/-- **Every step of the main loop keeps the invariant.** -/
theorem mainStep_inv {E : Exec ε ω β} {cmds : List Command} {s t : State ε ω} (h : Inv cmds s)
    (hstep : mainStep E cmds s = some t) : Inv cmds t := by
  have hp := h.phase
  cases hm : s.main with
  | starting idx =>
    rw [Phase, hm] at hp
    obtain ⟨hbefore, -, -, hse, hsf⟩ := hp
    simp only [mainStep, hm] at hstep
    split at hstep
    next hlt =>
      obtain rfl := Option.some.inj hstep
      exact startCommand_inv h hm hlt
    next =>
      obtain rfl := Option.some.inj hstep
      refine ⟨⟨h.ordered, h.length, h.slots, h.waiters, h.once⟩,
        by simpa [unreported, hm] using h.errors, ?_⟩
      refine spawning_start (s := s) ⟨h.ordered, h.length, h.slots, h.waiters, h.once⟩ hbefore
        ⟨rfl, rfl, rfl, rfl, rfl⟩ rfl ?_
      -- nothing has been observed yet
      rintro (⟨i, c, he⟩ | ⟨i, err, he, -⟩)
      · exact absurd he (hsf i c)
      · exact absurd he (not_received_of_absent h.toAgree (hbefore.absent i) err)
  | cancelling =>
    rw [Phase, hm] at hp
    obtain ⟨hbefore, hobs⟩ := hp
    simp only [mainStep, hm] at hstep
    obtain rfl := Option.some.inj hstep
    have hmem : .cancelled ∈ s.trace ++ [(.cancelled : Event ε)] := by simp
    have hsame : SameLoop s { cancelFunc E s with main := .spawning 0 } := ⟨rfl, rfl, rfl, rfl, rfl⟩
    have hagree : Agree cmds { cancelFunc E s with main := .spawning 0 } :=
      h.snoc hsame rfl (fun _ => hmem) hobs (by simp) (by simp) (by simp)
    refine ⟨hagree, by simpa [unreported, hm, cancelFunc, member] using h.errors, ?_⟩
    exact spawning_start hagree hbefore hsame rfl fun _ => hmem
  | spawning idx =>
    simp only [mainStep, hm] at hstep
    split at hstep
    next hslot =>
      obtain rfl := Option.some.inj hstep
      exact spawning_inv h hm hslot
    next slot hne hslot =>
      obtain rfl := Option.some.inj hstep
      refine spawning_skip h hm ?_
      rw [hslot]
      intro heq
      exact hne (Option.some.inj heq)
    next hend =>
      split at hstep
      next hzero =>
        obtain rfl := Option.some.inj hstep
        exact spawning_none h hm hend hzero
      next hpos =>
        obtain rfl := Option.some.inj hstep
        exact spawning_done h hm hend hpos
  | receiving =>
    simp only [mainStep, hm] at hstep
    cases hstep
  | closing stream idx waitErr =>
    cases stream with
    | stdout =>
      simp only [mainStep, hm] at hstep
      obtain rfl := Option.some.inj hstep
      refine closing_inv h hm ?_ (by simp [todo]) (by rw [hm]; rfl) rfl (fun _ => Iff.rfl)
        (by rw [hm]; rfl)
      intro i st
      rw [hm]
      cases st <;> simp [todo]
    | stderr =>
      simp only [mainStep, hm] at hstep
      obtain rfl := Option.some.inj hstep
      refine closing_inv h hm ?_ (by simp [todo]) (by rw [hm]; rfl) rfl (fun _ => Iff.rfl)
        (by rw [hm]; rfl)
      intro i st
      rw [hm]
      simp [todo]
  | judging idx waitErr =>
    have hinv := judging_inv (E := E) h hm
    simp only [mainStep, hm] at hstep
    split at hstep
    next hg =>
      obtain rfl := Option.some.inj hstep
      rwa [if_pos hg] at hinv
    next hg =>
      obtain rfl := Option.some.inj hstep
      rwa [if_neg hg] at hinv
  | counting idx => exact counting_inv h hm hstep
  | returned result =>
    simp only [mainStep, hm] at hstep
    cases hstep

/-- **Every reachable state satisfies the invariant.** -/
theorem reachable_inv {E : Exec ε ω β} {cmds : List Command} {x : ω} {s : State ε ω}
    (h : (runCommands E cmds x).Reachable s) : Inv cmds s := by
  refine h.invariant ?_ ?_
  · intro s hs
    subst hs
    exact initial_inv cmds x
  · intro s t _ hinv hstep
    obtain ⟨a, ha⟩ := hstep
    cases a with
    | main => exact mainStep_inv hinv ha
    | receive idx => exact receiveStep_inv hinv ha
    | waiter idx => exact waiterStep_inv hinv ha
    | background b =>
      obtain ⟨x, -, rfl⟩ := Option.map_eq_some_iff.mp ha
      refine WaiterMoved.inv (s := s) ⟨rfl, rfl, rfl, rfl, rfl, rfl, rfl, fun _ => Iff.rfl,
        fun _ => rfl, Or.inl rfl⟩ hinv hinv.ordered hinv.waiters

end ShouldIAsync.EventLoop
