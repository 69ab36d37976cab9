import Mathlib.Data.Finset.Card
import Mathlib.Data.Finset.Range
import ShouldIAsync.Lib.History
import ShouldIAsync.EventLoop.Command

/-!
# What holds in every reachable state of `RunCommands`

`Follows` says what each event of the trace needs to have happened before it; it
is where the order of things is settled (a writer is closed after its command's
`Wait`, a cancel comes after a reason for it, nothing happens twice). `Inv` ties
the trace to the program counters: to the waiters (`WaiterAt`), to the errors
joined so far, and to where the main goroutine stands (`Phase`). In the receive
loop the main goroutine may owe something that its next actions pay: closes
(`todo`), a cancel (`owes`), a count (`inHand`), an error (`unreported`).
-/

namespace ShouldIAsync.EventLoop

open ShouldIAsync.Lib ShouldIAsync.GoStd

variable {ε ω β : Type}

/-! ## The order of events -/

/-- Something has happened that `cancelFunc` must be called for: a start failed, or
the loop has received the end of command 0 or a nongraceful end. -/
def Observed (tr : List (Event ε)) : Prop :=
  (∃ idx cause, .startFailed idx cause ∈ tr) ∨
    ∃ idx err, .received idx err ∈ tr ∧ (idx = 0 ∨ didExitGracefully err = false)

/-- What must have happened before an event, and what not. -/
def Follows (cmds : List Command) (tr : List (Event ε)) : Event ε → Prop
  | .started idx => .started idx ∉ tr
  | .startFailed _ _ => ∀ idx cause, .startFailed idx cause ∉ tr
  | .waited idx _ => .started idx ∈ tr ∧ ∀ err, .waited idx err ∉ tr
  | .received idx err => .waited idx err ∈ tr ∧ (∀ err, .received idx err ∉ tr) ∧
      (Observed tr → .cancelled ∈ tr)
  | .closed idx stream _ => closable cmds idx stream = true ∧ (∃ err, .received idx err ∈ tr) ∧
      ∀ err, .closed idx stream err ∉ tr
  | .cancelled => Observed tr

/-- The error that an event is to be reported with. -/
def member : Event ε → List (RunError ε)
  | .startFailed idx cause => [.startingCommand idx cause]
  | .closed idx stream (some cause) => [.close idx stream cause]
  | .received idx err => if didExitGracefully err then [] else [.command idx err]
  | _ => []

theorem mem_of_isPrefix {tr pre : List (Event ε)} {e : Event ε} (h : pre <+: tr) (he : e ∈ pre) :
    e ∈ tr := h.subset he

/-- A reason to cancel stays one. -/
theorem Observed.mono {tr pre : List (Event ε)} (h : pre <+: tr) (ho : Observed pre) :
    Observed tr := by
  rcases ho with ⟨idx, cause, he⟩ | ⟨idx, err, he, hr⟩
  · exact Or.inl ⟨idx, cause, mem_of_isPrefix h he⟩
  · exact Or.inr ⟨idx, err, mem_of_isPrefix h he, hr⟩

/-- A result is received only after its `Wait` returned it. -/
theorem waited_of_received {cmds : List Command} {tr : List (Event ε)}
    (h : Ordered (Follows cmds) tr) {idx : Nat} {err : Option (WaitError ε)}
    (he : .received idx err ∈ tr) : .waited idx err ∈ tr := by
  obtain ⟨pre, hpre, hw, -⟩ := h.of_mem he
  exact mem_of_isPrefix hpre hw

/-- Only a command that was started is waited for. -/
theorem started_of_waited {cmds : List Command} {tr : List (Event ε)}
    (h : Ordered (Follows cmds) tr) {idx : Nat} {err : Option (WaitError ε)}
    (he : .waited idx err ∈ tr) : .started idx ∈ tr := by
  obtain ⟨pre, hpre, hs, -⟩ := h.of_mem he
  exact mem_of_isPrefix hpre hs

/-! ## The invariant -/

/-- What a waiter's program counter says about its command. -/
def WaiterAt (tr : List (Event ε)) (idx : Nat) : Waiter ε → Prop
  | .absent => ∀ err, .waited idx err ∉ tr
  | .spawned | .waiting => .started idx ∈ tr ∧ ∀ err, .waited idx err ∉ tr
  | .sending err => .waited idx err ∈ tr ∧ ∀ err, .received idx err ∉ tr
  | .done => ∃ err, .received idx err ∈ tr

/-- The main loop has received the result of the waiter. -/
def Waiter.isDone : Waiter ε → Bool
  | .done => true
  | _ => false

/-- The commands started among the first `n`. -/
def startedBelow (s : State ε ω) (n : Nat) : Finset Nat :=
  (Finset.range n).filter fun i => s.commands[i]? = some .started

/-- The commands whose result has been received. -/
def received (s : State ε ω) : Finset Nat :=
  (Finset.range s.commands.length).filter fun i => (s.waiters i).isDone = true

/-- The commands below `n` that were started. -/
theorem mem_startedBelow {s : State ε ω} {n i : Nat} :
    i ∈ startedBelow s n ↔ i < n ∧ s.commands[i]? = some .started := by
  simp only [startedBelow, Finset.mem_filter, Finset.mem_range]

theorem startedBelow_congr {s t : State ε ω} (h : t.commands = s.commands) (n : Nat) :
    startedBelow t n = startedBelow s n := by
  simp only [startedBelow, h]

/-- Their number grows with a command that was started. -/
theorem card_startedBelow_succ (s : State ε ω) (n : Nat) :
    (startedBelow s (n + 1)).card = (startedBelow s n).card + if s.commands[n]? = some .started then
      1 else 0 := by
  have hnot : n ∉ startedBelow s n := fun h => Nat.lt_irrefl n (mem_startedBelow.mp h).1
  unfold startedBelow at hnot ⊢
  rw [Finset.range_add_one, Finset.filter_insert]
  split
  next => rw [Finset.card_insert_of_notMem hnot]
  next => rw [Nat.add_zero]

/-- The commands whose result has been received. -/
theorem mem_received {s : State ε ω} {i : Nat} :
    i ∈ received s ↔ i < s.commands.length ∧ (s.waiters i).isDone = true := by
  simp only [received, Finset.mem_filter, Finset.mem_range]

/-- The closes that the main goroutine has still to make for the result in hand. -/
def todo : Main ε → Nat → Stream → Prop
  | .closing .stdout idx _, i, _ => i = idx
  | .closing .stderr idx _, i, stream => i = idx ∧ stream = .stderr
  | _, _, _ => False

/-- The cancel it may owe for the result in hand. -/
def owes : Main ε → Prop
  | .closing _ idx err | .judging idx err => idx = 0 ∨ didExitGracefully err = false
  | .counting idx => idx = 0
  | _ => False

/-- The result in hand, if it is not counted yet. -/
def inHand : Main ε → Nat
  | .closing _ _ _ | .judging _ _ | .counting _ => 1
  | _ => 0

/-- The error of the result in hand, if it is not joined yet. -/
def unreported : Main ε → List (RunError ε)
  | .closing _ idx err | .judging idx err => member (.received idx err)
  | _ => []

/-- The result in hand is one that was received. -/
def HandHeld (tr : List (Event ε)) : Main ε → Prop
  | .closing _ idx err | .judging idx err => .received idx err ∈ tr
  | .counting idx => ∃ err, .received idx err ∈ tr
  | _ => True

/-- The main goroutine in the receive loop. -/
structure InLoop (cmds : List Command) (s : State ε ω) : Prop where
  spawned : ∀ i, .started i ∈ s.trace → s.waiters i ≠ .absent
  count : s.startedCommandCount = (startedBelow s s.commands.length).card
  finished : s.finishedCount + inHand s.main = (received s).card
  short : s.finishedCount < s.startedCommandCount
  held : HandHeld s.trace s.main
  closes : ∀ i err, .received i err ∈ s.trace → ∀ stream, closable cmds i stream = true →
    todo s.main i stream ∨ ∃ err, .closed i stream err ∈ s.trace
  fresh : ∀ i stream, todo s.main i stream → ∀ err, .closed i stream err ∉ s.trace
  answered : Observed s.trace → .cancelled ∈ s.trace ∨ owes s.main

/-- Nothing is spawned yet. -/
structure BeforeLoop (s : State ε ω) : Prop where
  absent : ∀ i, s.waiters i = .absent
  count : s.startedCommandCount = 0
  finished : s.finishedCount = 0
  err : s.err = none
  once : s.cancelledOnce = false

/-- What `RunCommands` has seen to when it returns. -/
structure AllJoined (cmds : List Command) (s : State ε ω) : Prop where
  received : ∀ i, .started i ∈ s.trace → ∃ err, .received i err ∈ s.trace
  closes : ∀ i, .started i ∈ s.trace → ∀ stream, closable cmds i stream = true →
    ∃ err, .closed i stream err ∈ s.trace
  answered : Observed s.trace → .cancelled ∈ s.trace

/-- What holds at each point of the main loop. -/
def Phase (cmds : List Command) (s : State ε ω) : Prop :=
  match s.main with
  | .starting idx => BeforeLoop s ∧ idx ≤ cmds.length ∧ (∀ i, .started i ∈ s.trace → i < idx) ∧
      s.startErr = none ∧ ∀ i cause, .startFailed i cause ∉ s.trace
  | .cancelling => BeforeLoop s ∧ Observed s.trace
  | .spawning idx => (∀ i, idx ≤ i → s.waiters i = .absent) ∧
      (∀ i, i < idx → .started i ∈ s.trace → s.waiters i ≠ .absent) ∧
      s.startedCommandCount = (startedBelow s idx).card ∧ s.finishedCount = 0 ∧
      (∀ i err, .received i err ∉ s.trace) ∧ (Observed s.trace → .cancelled ∈ s.trace)
  | .returned result => AllJoined cmds s ∧ result = Error.joinAll [s.startErr, s.err]
  | _ => InLoop cmds s

/-- The trace, the slots and the waiters agree. -/
structure Agree (cmds : List Command) (s : State ε ω) : Prop where
  ordered : Ordered (Follows cmds) s.trace
  length : s.commands.length = cmds.length
  slots : ∀ i, s.commands[i]? = some .started ↔ .started i ∈ s.trace
  waiters : ∀ i, WaiterAt s.trace i (s.waiters i)
  once : s.cancelledOnce = true → .cancelled ∈ s.trace

/-- **The invariant of `RunCommands`.** -/
structure Inv (cmds : List Command) (s : State ε ω) : Prop extends Agree cmds s where
  errors : (Error.leavesOf s.startErr ++ Error.leavesOf s.err ++ unreported s.main).Perm
    (s.trace.flatMap member)
  phase : Phase cmds s

/-! ## The start -/

theorem initial_inv (cmds : List Command) (x : ω) : Inv cmds (initial (ε := ε) cmds x) where
  ordered := ordered_nil
  length := by simp [initial]
  slots := by
    intro i
    simp only [initial, List.getElem?_map, List.not_mem_nil, iff_false]
    cases cmds[i]? <;> simp
  waiters := by
    intro i err h
    cases h
  once := by
    intro h
    cases h
  errors := List.Perm.refl _
  phase := ⟨⟨fun _ => rfl, rfl, rfl, rfl, rfl⟩,
    Nat.zero_le _, by simp [initial], rfl, by simp [initial]⟩

/-! ## The waiters -/

/-- An event about another command, or one that no waiter is told of, leaves
`WaiterAt` as it is. -/
theorem WaiterAt.snoc {tr : List (Event ε)} {i : Nat} {w : Waiter ε} (h : WaiterAt tr i w)
    {e : Event ε} (hw : ∀ err, e ≠ .waited i err) (hr : ∀ err, e ≠ .received i err) :
    WaiterAt (tr ++ [e]) i w := by
  have hwaited : ∀ err, .waited i err ∈ tr ++ [e] ↔ .waited i err ∈ tr := by
    intro err
    simp [(hw err).symm]
  have hreceived : ∀ err, .received i err ∈ tr ++ [e] ↔ .received i err ∈ tr := by
    intro err
    simp [(hr err).symm]
  cases w with
  | absent => exact fun err he => h err ((hwaited err).mp he)
  | spawned | waiting =>
    exact ⟨List.mem_append_left _ h.1, fun err he => h.2 err ((hwaited err).mp he)⟩
  | sending err =>
    exact ⟨List.mem_append_left _ h.1, fun err he => h.2 err ((hreceived err).mp he)⟩
  | done =>
    obtain ⟨err, he⟩ := h
    exact ⟨err, List.mem_append_left _ he⟩

/-- A waiter's step, as the rest of the state sees it. -/
structure WaiterMoved (s t : State ε ω) : Prop where
  main : t.main = s.main
  commands : t.commands = s.commands
  startErr : t.startErr = s.startErr
  startedCount : t.startedCommandCount = s.startedCommandCount
  finishedCount : t.finishedCount = s.finishedCount
  err : t.err = s.err
  once : t.cancelledOnce = s.cancelledOnce
  absent : ∀ i, t.waiters i = .absent ↔ s.waiters i = .absent
  isDone : ∀ i, (t.waiters i).isDone = (s.waiters i).isDone
  trace : t.trace = s.trace ∨ ∃ idx err, t.trace = s.trace ++ [.waited idx err]

/-- A waiter records nothing but that it has waited. -/
theorem WaiterMoved.mem {s t : State ε ω} (h : WaiterMoved s t) {e : Event ε}
    (he : ∀ i err, e ≠ .waited i err) : e ∈ t.trace ↔ e ∈ s.trace := by
  rcases h.trace with ht | ⟨idx, err, ht⟩
  · rw [ht]
  · rw [ht, List.mem_append, List.mem_singleton]
    exact or_iff_left (he idx err)

theorem WaiterMoved.observed {s t : State ε ω} (h : WaiterMoved s t) :
    Observed t.trace ↔ Observed s.trace := by
  unfold Observed
  simp only [h.mem (e := .startFailed _ _) (by simp), h.mem (e := .received _ _) (by simp)]

theorem WaiterMoved.phase {cmds : List Command} {s t : State ε ω}
    (h : WaiterMoved s t) (hp : Phase cmds s) : Phase cmds t := by
  have hst : ∀ i, .started i ∈ t.trace ↔ .started i ∈ s.trace := fun i => h.mem (by simp)
  have hsf : ∀ i c, .startFailed i c ∈ t.trace ↔ .startFailed i c ∈ s.trace :=
    fun i c => h.mem (by simp)
  have hre : ∀ i err, .received i err ∈ t.trace ↔ .received i err ∈ s.trace :=
    fun i err => h.mem (by simp)
  have hcl : ∀ i st err, .closed i st err ∈ t.trace ↔ .closed i st err ∈ s.trace :=
    fun i st err => h.mem (by simp)
  have hca : .cancelled ∈ t.trace ↔ .cancelled ∈ s.trace := h.mem (by simp)
  have hbefore : BeforeLoop s → BeforeLoop t := by
    rintro ⟨ha, hc, hf, he, ho⟩
    exact ⟨fun i => (h.absent i).mpr (ha i), h.startedCount.trans hc, h.finishedCount.trans hf,
      h.err.trans he, h.once.trans ho⟩
  have hbelow := startedBelow_congr h.commands
  have hreceived : received t = received s := by
    simp only [received, h.commands, h.isDone]
  have hloop : InLoop cmds s → InLoop cmds t := by
    rintro ⟨h1, h2, h3, h4, h5, h6, h7, h8⟩
    refine ⟨fun i hi => (h.absent i).not.mpr (h1 i ((hst i).mp hi)), ?_, ?_, ?_, ?_, ?_, ?_, ?_⟩
    · rw [h.startedCount, h2, hbelow, h.commands]
    · rw [h.finishedCount, h.main, h3, hreceived]
    · rw [h.finishedCount, h.startedCount]
      exact h4
    · rw [h.main]
      cases hm : s.main <;> rw [hm] at h5 <;> simp only [HandHeld, hre] at h5 ⊢ <;> exact h5
    · simpa only [hre, hcl, h.main] using h6
    · simpa only [hcl, h.main] using h7
    · simpa only [h.observed, hca, h.main] using h8
  unfold Phase at hp ⊢
  rw [h.main]
  cases hm : s.main with
  | starting i =>
    rw [hm] at hp
    obtain ⟨hb, hle, hlt, hse, hno⟩ := hp
    exact ⟨hbefore hb, hle, fun i hi => hlt i ((hst i).mp hi), h.startErr.trans hse,
      fun i c hi => hno i c ((hsf i c).mp hi)⟩
  | cancelling =>
    rw [hm] at hp
    exact ⟨hbefore hp.1, h.observed.mpr hp.2⟩
  | spawning i =>
    rw [hm] at hp
    obtain ⟨ha, hs, hc, hf, hno, hans⟩ := hp
    exact ⟨fun j hj => (h.absent j).mpr (ha j hj),
      fun j hj hjs => (h.absent j).not.mpr (hs j hj ((hst j).mp hjs)),
      by rw [h.startedCount, hc, hbelow], h.finishedCount.trans hf,
      fun j err hj => hno j err ((hre j err).mp hj),
      fun ho => hca.mpr (hans (h.observed.mp ho))⟩
  | returned result =>
    rw [hm] at hp
    obtain ⟨⟨hrec, hclose, hans⟩, hres⟩ := hp
    refine ⟨⟨fun i hi => ?_, fun i hi st hst' => ?_, fun ho => ?_⟩, ?_⟩
    · obtain ⟨err, he⟩ := hrec i ((hst i).mp hi)
      exact ⟨err, (hre i err).mpr he⟩
    · obtain ⟨err, he⟩ := hclose i ((hst i).mp hi) st hst'
      exact ⟨err, (hcl i st err).mpr he⟩
    · exact hca.mpr (hans (h.observed.mp ho))
    · rw [h.startErr, h.err]
      exact hres
  | receiving => rw [hm] at hp; exact hloop hp
  | closing st i err => rw [hm] at hp; exact hloop hp
  | judging i err => rw [hm] at hp; exact hloop hp
  | counting i => rw [hm] at hp; exact hloop hp

/-- A step of a waiter keeps the invariant. -/
theorem WaiterMoved.inv {cmds : List Command} {s t : State ε ω}
    (h : WaiterMoved s t) (hinv : Inv cmds s) (hord : Ordered (Follows cmds) t.trace)
    (hwaiters : ∀ i, WaiterAt t.trace i (t.waiters i)) : Inv cmds t where
  ordered := hord
  length := h.commands ▸ hinv.length
  slots := by
    intro i
    rw [h.commands, h.mem (by simp)]
    exact hinv.slots i
  waiters := hwaiters
  once := by
    intro ho
    rw [h.mem (by simp)]
    exact hinv.once (h.once ▸ ho)
  errors := by
    have hflat : t.trace.flatMap member = s.trace.flatMap (member (ε := ε)) := by
      rcases h.trace with ht | ⟨idx, err, ht⟩
      · rw [ht]
      · simp [ht, member]
    rw [h.startErr, h.err, h.main, hflat]
    exact hinv.errors
  phase := h.phase hinv.phase

/-- **Every step of a waiter keeps the invariant.** -/
theorem waiterStep_inv {E : Exec ε ω β} {cmds : List Command} {s t : State ε ω} {idx : Nat}
    (h : Inv cmds s) (hstep : waiterStep E s idx = some t) : Inv cmds t := by
  have hw := h.waiters idx
  unfold waiterStep at hstep
  split at hstep
  next hs =>
    obtain rfl := Option.some.inj hstep
    rw [hs] at hw
    refine WaiterMoved.inv (s := s) ⟨rfl, rfl, rfl, rfl, rfl, rfl, rfl, ?_, ?_, Or.inl rfl⟩ h
      h.ordered ?_
    · intro i
      by_cases hi : i = idx <;> simp [setWaiter, hi, hs]
    · intro i
      by_cases hi : i = idx <;> simp [setWaiter, hi, hs, Waiter.isDone]
    · intro i
      by_cases hi : i = idx
      · subst hi
        simp only [setWaiter, if_pos]
        exact hw
      · simpa [setWaiter, hi] using h.waiters i
  next hs =>
    obtain ⟨err, -, rfl⟩ := Option.map_eq_some_iff.mp hstep
    rw [hs] at hw
    have hfollows : Follows cmds s.trace (.waited idx err) := hw
    have hnew : ∀ err', .received idx err' ∉ s.trace ++ [.waited idx err] := by
      intro err' he
      have hmem : .received idx err' ∈ s.trace := by simpa using he
      exact hw.2 err' (waited_of_received h.ordered hmem)
    refine WaiterMoved.inv (s := s) ⟨rfl, rfl, rfl, rfl, rfl, rfl, rfl, ?_, ?_,
      Or.inr ⟨idx, err, rfl⟩⟩ h (ordered_snoc h.ordered hfollows) ?_
    · intro i
      by_cases hi : i = idx <;> simp [setWaiter, hi, hs]
    · intro i
      by_cases hi : i = idx <;> simp [setWaiter, hi, hs, Waiter.isDone]
    · intro i
      by_cases hi : i = idx
      · subst hi
        simp only [setWaiter, if_pos]
        exact ⟨by simp, hnew⟩
      · simp only [setWaiter, if_neg hi]
        exact (h.waiters i).snoc (by simp [Ne.symm hi]) (by simp)
  all_goals cases hstep

/-! ## Receiving a result -/

/-- What can be a reason to cancel. -/
theorem observed_snoc {tr : List (Event ε)} {e : Event ε} (h : Observed (tr ++ [e])) :
    Observed tr ∨ (∃ idx cause, e = .startFailed idx cause) ∨
      ∃ idx err, e = .received idx err ∧ (idx = 0 ∨ didExitGracefully err = false) := by
  rcases h with ⟨idx, cause, he⟩ | ⟨idx, err, he, hr⟩
  · rcases List.mem_append.mp he with he | he
    · exact Or.inl (Or.inl ⟨idx, cause, he⟩)
    · exact Or.inr (Or.inl ⟨idx, cause, (List.mem_singleton.mp he).symm⟩)
  · rcases List.mem_append.mp he with he | he
    · exact Or.inl (Or.inr ⟨idx, err, he, hr⟩)
    · exact Or.inr (Or.inr ⟨idx, err, (List.mem_singleton.mp he).symm, hr⟩)

/-- A command that was started is in the list. -/
theorem lt_of_started {cmds : List Command} {s : State ε ω} (h : Agree cmds s) {i : Nat}
    (hi : .started i ∈ s.trace) : i < s.commands.length := by
  have hslot := (h.slots i).mpr hi
  by_contra hge
  rw [List.getElem?_eq_none (Nat.le_of_not_lt hge)] at hslot
  cases hslot

/-- A result that is received keeps the invariant. -/
theorem receiveStep_inv {cmds : List Command} {s t : State ε ω} {idx : Nat} (h : Inv cmds s)
    (hstep : receiveStep s idx = some t) : Inv cmds t := by
  unfold receiveStep at hstep
  split at hstep
  next err hm hs =>
    obtain rfl := Option.some.inj hstep
    have hw := h.waiters idx
    have hp := h.phase
    rw [hs] at hw
    rw [Phase, hm] at hp
    obtain ⟨hspawned, hcount, hfin, hshort, -, hcloses, -, hans⟩ := hp
    rw [hm] at hfin hcloses hans
    have hstarted : .started idx ∈ s.trace := started_of_waited h.ordered hw.1
    have hfollows : Follows cmds s.trace (.received idx err) := by
      refine ⟨hw.1, hw.2, fun ho => ?_⟩
      rcases hans ho with hc | hc
      · exact hc
      · cases hc
    -- no writer of the command has been closed
    have hfresh : ∀ st err, .closed idx st err ∉ s.trace := by
      intro st err' he
      obtain ⟨pre, hpre, -, ⟨err, hr⟩, -⟩ := h.ordered.of_mem he
      exact hw.2 err (mem_of_isPrefix hpre hr)
    refine ⟨⟨ordered_snoc h.ordered hfollows, h.length, ?_, ?_, ?_⟩, ?_, ?_⟩
    · intro i
      show s.commands[i]? = some .started ↔ _
      rw [h.slots i]
      simp
    · intro i
      by_cases hi : i = idx
      · subst hi
        simp only [setWaiter, if_pos]
        exact ⟨err, by simp⟩
      · simp only [setWaiter, if_neg hi]
        exact (h.waiters i).snoc (by simp) (by simp [Ne.symm hi])
    · intro ho
      exact List.mem_append_left _ (h.once ho)
    · have herr := h.errors
      simp only [hm, unreported, List.append_nil] at herr
      simpa [unreported, setWaiter] using herr.append_right (member (.received idx err))
    · refine InLoop.mk ?_ hcount ?_ hshort ?_ ?_ ?_ ?_
      · intro i hi
        by_cases hii : i = idx
        · simp [setWaiter, hii]
        · simp only [setWaiter, if_neg hii]
          exact hspawned i (by simpa using hi)
      · have hset : received { setWaiter s idx .done with
            main := .closing .stdout idx err
            trace := s.trace ++ [.received idx err] } = insert idx (received s) := by
          ext i
          have hlt := lt_of_started h.toAgree hstarted
          rw [mem_received, Finset.mem_insert, mem_received]
          by_cases hii : i = idx
          · simp [setWaiter, hii, Waiter.isDone, hlt]
          · simp [setWaiter, hii]
        have hnot : idx ∉ received s := by simp [mem_received, hs, Waiter.isDone]
        rw [hset, Finset.card_insert_of_notMem hnot, ← hfin]
        rfl
      · show _ ∈ s.trace ++ _
        simp
      · intro i err' he st hst
        by_cases hii : i = idx
        · exact Or.inl hii
        · have hmem : .received i err' ∈ s.trace := by simpa [hii] using he
          rcases hcloses i err' hmem st hst with hf | ⟨c, hc⟩
          · cases hf
          · exact Or.inr ⟨c, List.mem_append_left _ hc⟩
      · intro i st hi err' he
        have hii : i = idx := hi
        subst hii
        exact hfresh st err' (by simpa using he)
      · intro ho
        rcases observed_snoc ho with ho | ⟨i, c, he⟩ | ⟨i, err', he, hr⟩
        · rcases hans ho with hc | hc
          · exact Or.inl (List.mem_append_left _ hc)
          · cases hc
        · cases he
        · cases he
          exact Or.inr hr
  · cases hstep

end ShouldIAsync.EventLoop
