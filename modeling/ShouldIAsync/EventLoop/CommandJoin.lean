import ShouldIAsync.EventLoop.CommandMain

/-!
# Command supervision is exact

What `RunCommands` promises, read off the trace of any run (`Supervised`), in which
every event is a call behind the commands with what it returned (`Recorded`): it
returns only after every started command was waited for; every closable writer of a
started command is closed once, after the command's `Wait`; `cancelFunc` is called
for a reason, and once there is one, before the loop goes on; and the returned error
has exactly the failed start, the failed closes and the nongraceful exits as its
members, each once. And it cannot hang by itself: where no goroutine can go on, it
has returned or some command's `Wait` is still blocked.
-/

namespace ShouldIAsync.EventLoop

open ShouldIAsync.Lib ShouldIAsync.GoStd

variable {ε ω β : Type}

/-! ## The payoff, by part -/

/-- A start failed, command 0 terminated, or some command terminated nongracefully. -/
def Happened (tr : List (Event ε)) : Prop :=
  (∃ idx cause, .startFailed idx cause ∈ tr) ∨
    ∃ idx err, .waited idx err ∈ tr ∧ (idx = 0 ∨ didExitGracefully err = false)

/-- The results of the `Close` calls on a command's writer for `stream`. -/
def closesOf (idx : Nat) (stream : Stream) (tr : List (Event ε)) : List (Option ε) :=
  tr.filterMap fun
    | .closed i st err => if i = idx ∧ st = stream then some err else none
    | _ => none

/-- The members an error is to have: the failed start, the failed closes and the
nongraceful exits. -/
def Reportable (tr : List (Event ε)) : RunError ε → Prop
  | .startingCommand idx cause => .startFailed idx cause ∈ tr
  | .close idx stream cause => .closed idx stream (some cause) ∈ tr
  | .command idx err => .waited idx err ∈ tr ∧ didExitGracefully err = false

/-- The call that an event stands for: what it returned in the world `x`, which it left as `y`. -/
def Exec.Call (E : Exec ε ω β) (x y : ω) : Event ε → Prop
  | .started idx => E.start idx x = (none, y)
  | .startFailed idx cause => E.start idx x = (some cause, y)
  | .waited idx err => E.waitResult idx x = some err ∧ y = x
  | .received _ _ => y = x
  | .closed idx stream err => E.close idx stream x = (err, y)
  | .cancelled => y = E.cancel x

/-- An event of a run was recorded by the step that made its call, with what the call returned. -/
def Recorded (E : Exec ε ω β) (cmds : List Command) (x : ω) (pre : List (Event ε)) (e : Event ε) :
    Prop :=
  ∃ s t, (runCommands E cmds x).Reachable s ∧ (runCommands E cmds x).step s t ∧
    s.trace = pre ∧ E.Call s.world t.world e

/-- What is promised of a state `s` of a run from the world `x`. -/
structure Supervised (E : Exec ε ω β) (cmds : List Command) (x : ω) (s : State ε ω) : Prop where
  recorded : Ordered (Recorded E cmds x) s.trace
  all_waited : ∀ result, s.main = .returned result →
    ∀ i, .started i ∈ s.trace → ∃ err, .waited i err ∈ s.trace
  closed_after_wait : ∀ pre i stream err post, s.trace = pre ++ .closed i stream err :: post →
    closable cmds i stream = true ∧ ∃ waitErr, .waited i waitErr ∈ pre
  closed_at_most_once : ∀ i stream, (closesOf i stream s.trace).length ≤ 1
  all_closed : ∀ result, s.main = .returned result → ∀ i, .started i ∈ s.trace →
    ∀ stream, closable cmds i stream = true → (closesOf i stream s.trace).length = 1
  cancelled_for_reason : ∀ pre post, s.trace = pre ++ .cancelled :: post → Happened pre
  cancelled_when_observed : ∀ pre i err post, s.trace = pre ++ .received i err :: post →
    Observed pre → .cancelled ∈ pre
  cancelled_before_return : ∀ result, s.main = .returned result →
    Observed s.trace → .cancelled ∈ s.trace
  returned_nil : ∀ result, s.main = .returned result →
    (result = none ↔ ∀ m, ¬ Reportable s.trace m)
  returned_members : ∀ result, s.main = .returned result → (Error.leavesOf result).Nodup ∧
    ∀ m, m ∈ Error.leavesOf result ↔ Reportable s.trace m
  no_deadlock : (∀ a t, act E cmds a s ≠ some t) → (∃ result, s.main = .returned result) ∨
    ∃ i, s.waiters i = .waiting ∧ E.waitResult i s.world = none

/-- A reason to cancel has happened. -/
theorem Observed.happened {cmds : List Command} {tr : List (Event ε)}
    (h : Ordered (Follows cmds) tr) (ho : Observed tr) : Happened tr := by
  rcases ho with hs | ⟨idx, err, he, hr⟩
  · exact Or.inl hs
  · exact Or.inr ⟨idx, err, waited_of_received h he, hr⟩

theorem closesOf_append (idx : Nat) (stream : Stream) (tr tr' : List (Event ε)) :
    closesOf idx stream (tr ++ tr') = closesOf idx stream tr ++ closesOf idx stream tr' := by
  simp [closesOf, List.filterMap_append]

theorem mem_closesOf {idx : Nat} {stream : Stream} {tr : List (Event ε)} {err : Option ε} :
    err ∈ closesOf idx stream tr ↔ .closed idx stream err ∈ tr := by
  unfold closesOf
  rw [List.mem_filterMap]
  constructor
  · rintro ⟨e, he, hf⟩
    cases e with
    | closed i st err' =>
      simp only [Option.ite_none_right_eq_some, Option.some.injEq] at hf
      obtain ⟨⟨rfl, rfl⟩, rfl⟩ := hf
      exact he
    | _ => cases hf
  · intro he
    exact ⟨_, he, by simp⟩

/-- No writer is closed twice. -/
theorem closesOf_length {cmds : List Command} {tr : List (Event ε)} (idx : Nat) (stream : Stream)
    (h : Ordered (Follows cmds) tr) : (closesOf idx stream tr).length ≤ 1 := by
  induction tr using List.reverseRecOn with
  | nil => exact Nat.zero_le 1
  | append_singleton tr e ih =>
    have hih := ih (h.isPrefix (List.prefix_append _ _))
    have hlast := h tr e [] rfl
    rw [closesOf_append]
    cases e with
    | closed i st err =>
      by_cases hcase : i = idx ∧ st = stream
      · obtain ⟨rfl, rfl⟩ := hcase
        have hnil : closesOf i st tr = [] := by
          rw [List.eq_nil_iff_forall_not_mem]
          intro err' he
          exact hlast.2.2 err' (mem_closesOf.mp he)
        rw [hnil]
        simp [closesOf]
      · simpa [closesOf, hcase] using hih
    | _ => simpa [closesOf] using hih

/-- What is reported, in terms of what was received. -/
theorem mem_members {tr : List (Event ε)} {m : RunError ε} : m ∈ tr.flatMap member ↔
    match m with
    | .startingCommand idx cause => .startFailed idx cause ∈ tr
    | .close idx stream cause => .closed idx stream (some cause) ∈ tr
    | .command idx err => .received idx err ∈ tr ∧ didExitGracefully err = false := by
  rw [List.mem_flatMap]
  constructor
  · rintro ⟨e, he, hm⟩
    cases e with
    | startFailed idx cause =>
      obtain rfl := List.mem_singleton.mp hm
      exact he
    | closed idx stream err =>
      cases err with
      | none => cases hm
      | some cause =>
        obtain rfl := List.mem_singleton.mp hm
        exact he
    | received idx err =>
      by_cases hg : didExitGracefully err = true
      · simp [member, hg] at hm
      · simp only [member, hg, Bool.false_eq_true, if_false, List.mem_singleton] at hm
        subst hm
        exact ⟨he, by simpa using hg⟩
    | _ => cases hm
  · intro hm
    cases m with
    | startingCommand idx cause => exact ⟨_, hm, by simp [member]⟩
    | close idx stream cause => exact ⟨_, hm, by simp [member]⟩
    | command idx err => exact ⟨_, hm.1, by simp [member, hm.2]⟩

/-- No error is joined twice. -/
theorem members_nodup {cmds : List Command} {tr : List (Event ε)}
    (h : Ordered (Follows cmds) tr) : (tr.flatMap (member (ε := ε))).Nodup := by
  refine Ordered.nodup_flatMap ?_ ?_
  · intro e
    cases e with
    | closed idx stream err => cases err <;> simp [member]
    | received idx err => by_cases hg : didExitGracefully err = true <;> simp [member, hg]
    | _ => simp [member]
  · intro pre e post htr m hm hpre
    have hf := h pre e post htr
    rw [mem_members] at hpre
    cases e with
    | startFailed idx cause =>
      obtain rfl := List.mem_singleton.mp hm
      exact hf idx cause hpre
    | closed idx stream err =>
      cases err with
      | none => cases hm
      | some cause =>
        obtain rfl := List.mem_singleton.mp hm
        exact hf.2.2 (some cause) hpre
    | received idx err =>
      by_cases hg : didExitGracefully err = true
      · simp [member, hg] at hm
      · simp only [member, hg, Bool.false_eq_true, if_false, List.mem_singleton] at hm
        subst hm
        exact hf.2.1 err hpre.1
    | _ => cases hm

/-- All commands that were started have been waited for at the end. -/
theorem waited_of_returned {cmds : List Command} {s : State ε ω} (h : Inv cmds s)
    {result : Option (RunErr ε)} (hm : s.main = .returned result) {i : Nat}
    (hi : .started i ∈ s.trace) : ∃ err, .waited i err ∈ s.trace := by
  have hp := h.phase
  rw [Phase, hm] at hp
  obtain ⟨err, hr⟩ := hp.1.received i hi
  exact ⟨err, waited_of_received h.ordered hr⟩

/-- The returned error has the reportable members, each once. -/
theorem returned_members {cmds : List Command} {s : State ε ω} (h : Inv cmds s)
    {result : Option (RunErr ε)} (hm : s.main = .returned result) :
    (Error.leavesOf result).Nodup ∧ ∀ m, m ∈ Error.leavesOf result ↔ Reportable s.trace m := by
  have hp := h.phase
  rw [Phase, hm] at hp
  obtain ⟨hjoined, rfl⟩ := hp
  have hperm : (Error.leavesOf (Error.joinAll [s.startErr, s.err])).Perm
      (s.trace.flatMap member) := by
    have herr := h.errors
    simp only [hm, unreported, List.append_nil] at herr
    simpa [Error.leavesOf_joinAll] using herr
  refine ⟨hperm.nodup_iff.mpr (members_nodup h.ordered), fun m => ?_⟩
  rw [hperm.mem_iff, mem_members]
  cases m with
  | startingCommand idx cause => exact Iff.rfl
  | close idx stream cause => exact Iff.rfl
  | command idx err =>
    constructor
    · rintro ⟨hr, hg⟩
      exact ⟨waited_of_received h.ordered hr, hg⟩
    · rintro ⟨hw, hg⟩
      -- it was received, and with the result that `Wait` returned
      obtain ⟨err', hr⟩ := hjoined.received idx (started_of_waited h.ordered hw)
      have hw' := waited_of_received h.ordered hr
      have heq : err' = err := by
        have := h.ordered.eq_of_mem hw' hw (fun pre hf => hf.2 err) (fun pre hf => hf.2 err')
        cases this
        rfl
      exact ⟨heq ▸ hr, hg⟩

/-- The main goroutine blocks only in the receive. -/
theorem mainStep_ne_none {E : Exec ε ω β} {cmds : List Command} {s : State ε ω}
    (hrec : s.main ≠ .receiving) (hret : ∀ result, s.main ≠ .returned result) :
    mainStep E cmds s ≠ none := by
  intro hnone
  unfold mainStep at hnone
  split at hnone
  · split at hnone <;> cases hnone
  · cases hnone
  · split at hnone
    · cases hnone
    · cases hnone
    · split at hnone <;> cases hnone
  next hm => exact hrec hm
  · cases hnone
  · cases hnone
  · split at hnone <;> cases hnone
  next idx hm =>
    -- the last `if` of the loop, with the cancel of command 0 before it
    generalize hu : (if idx = 0 then cancelOnceFunc E s else s) = u at hnone
    dsimp only at hnone
    split at hnone <;> cases hnone
  next result hm => exact hret result hm

/-- A run that cannot go on has returned, or waits for a command that runs on. -/
theorem stuck_waits {E : Exec ε ω β} {cmds : List Command} {s : State ε ω} (h : Inv cmds s)
    (hstuck : ∀ a t, act E cmds a s ≠ some t) :
    (∃ result, s.main = .returned result) ∨
      ∃ i, s.waiters i = .waiting ∧ E.waitResult i s.world = none := by
  have hmain : mainStep E cmds s = none := by
    cases hstep : mainStep E cmds s with
    | none => rfl
    | some t => exact absurd hstep (hstuck .main t)
  cases hm : s.main with
  | returned result => exact Or.inl ⟨result, rfl⟩
  | receiving =>
    have hp : InLoop cmds s := by
      have := h.phase
      rw [Phase, hm] at this
      exact this
    -- fewer results are received than commands were started
    have hcard : (received s).card < (startedBelow s s.commands.length).card := by
      have hfin := hp.finished
      have hshort := hp.short
      rw [hm] at hfin
      simp only [inHand] at hfin
      rw [← hp.count, ← hfin]
      exact hshort
    obtain ⟨i, hi, hnot⟩ := Finset.exists_mem_notMem_of_card_lt_card hcard
    obtain ⟨hlt, hslot⟩ := mem_startedBelow.mp hi
    have hspawned := hp.spawned i ((h.slots i).mp hslot)
    right
    refine ⟨i, ?_⟩
    cases hw : s.waiters i with
    | absent => exact absurd hw hspawned
    | spawned =>
      have hstep : waiterStep E s i ≠ none := by simp [waiterStep, hw]
      exact absurd (Option.some_get (Option.isSome_iff_ne_none.mpr hstep)).symm
        (hstuck (.waiter i) _)
    | waiting =>
      refine ⟨rfl, ?_⟩
      by_contra hres
      have hstep : waiterStep E s i ≠ none := by simpa [waiterStep, hw] using hres
      exact absurd (Option.some_get (Option.isSome_iff_ne_none.mpr hstep)).symm
        (hstuck (.waiter i) _)
    | sending err =>
      have hstep : receiveStep s i ≠ none := by simp [receiveStep, hm, hw]
      exact absurd (Option.some_get (Option.isSome_iff_ne_none.mpr hstep)).symm
        (hstuck (.receive i) _)
    | done =>
      rw [mem_received, hw] at hnot
      exact absurd ⟨hlt, rfl⟩ hnot
  | _ => exact absurd hmain (mainStep_ne_none (by simp [hm]) (by simp [hm]))

/-! ## The calls -/

/-- A step records no event, and then starts, closes and cancels nothing, or it records one with
its call. -/
inductive Records (E : Exec ε ω β) (s t : State ε ω) : Prop
  | nothing (htrace : t.trace = s.trace)
      (hworld : t.world = s.world ∨ (∃ idx, t.world = E.enterWait idx s.world) ∨
        ∃ b, E.background b s.world = some t.world)
  | event (e : Event ε) (htrace : t.trace = s.trace ++ [e]) (hcall : E.Call s.world t.world e)

/-- `startCommand` records what `E.start` has given. -/
theorem startCommand_records (E : Exec ε ω β) (s : State ε ω) (idx : Nat) :
    Records E s (startCommand E s idx) := by
  unfold startCommand
  split
  next world h => exact .event (.started idx) rfl h
  next cause world h => exact .event (.startFailed idx cause) rfl h

/-- Closing a stream records what `E.close` has given. -/
theorem closeStream_records (E : Exec ε ω β) (cmds : List Command) (s : State ε ω) (idx : Nat)
    (stream : Stream) : Records E s (closeStream E cmds s idx stream) := by
  unfold closeStream
  split
  next =>
    split
    next world h => exact .event (.closed idx stream none) rfl h
    next cause world h => exact .event (.closed idx stream (some cause)) rfl h
  next => exact .nothing rfl (Or.inl rfl)

/-- The cancel records nothing. -/
theorem cancelOnceFunc_records (E : Exec ε ω β) (s : State ε ω) :
    Records E s (cancelOnceFunc E s) := by
  unfold cancelOnceFunc
  split
  next => exact .nothing rfl (Or.inl rfl)
  next => exact .event .cancelled rfl rfl

/-- What is not in the trace and not behind the commands does not matter. -/
theorem Records.congr {E : Exec ε ω β} {s s' t t' : State ε ω} (h : Records E s t)
    (htrace : s'.trace = s.trace) (hworld : s'.world = s.world) (htrace' : t'.trace = t.trace)
    (hworld' : t'.world = t.world) : Records E s' t' := by
  cases h with
  | nothing ht hw =>
    exact .nothing (by rw [htrace', ht, htrace]) (by rw [hworld', hworld]; exact hw)
  | event e ht hc =>
    exact .event e (by rw [htrace', ht, htrace]) (by rw [hworld', hworld]; exact hc)

/-- Each step of the main loop records what `E` has given. -/
theorem mainStep_records {E : Exec ε ω β} {cmds : List Command} {s t : State ε ω}
    (h : mainStep E cmds s = some t) : Records E s t := by
  unfold mainStep at h
  split at h
  next idx hm =>
    split at h
    next =>
      obtain rfl := Option.some.inj h
      exact startCommand_records E s idx
    next =>
      obtain rfl := Option.some.inj h
      exact .nothing rfl (Or.inl rfl)
  next =>
    obtain rfl := Option.some.inj h
    exact .event .cancelled rfl rfl
  next idx hm =>
    split at h
    next =>
      obtain rfl := Option.some.inj h
      exact .nothing rfl (Or.inl rfl)
    next =>
      obtain rfl := Option.some.inj h
      exact .nothing rfl (Or.inl rfl)
    next =>
      split at h
      next =>
        obtain rfl := Option.some.inj h
        exact .nothing rfl (Or.inl rfl)
      next =>
        obtain rfl := Option.some.inj h
        exact .nothing rfl (Or.inl rfl)
  next => cases h
  next idx waitErr hm =>
    obtain rfl := Option.some.inj h
    exact (closeStream_records E cmds s idx .stdout).congr rfl rfl rfl rfl
  next idx waitErr hm =>
    obtain rfl := Option.some.inj h
    exact (closeStream_records E cmds s idx .stderr).congr rfl rfl rfl rfl
  next idx waitErr hm =>
    split at h
    next =>
      obtain rfl := Option.some.inj h
      exact .nothing rfl (Or.inl rfl)
    next =>
      obtain rfl := Option.some.inj h
      exact (cancelOnceFunc_records E (joinErr s (.leaf (.command idx waitErr)))).congr rfl rfl rfl
        rfl
  next idx hm =>
    have hcancel : Records E s (if idx = 0 then cancelOnceFunc E s else s) := by
      split
      next => exact cancelOnceFunc_records E s
      next => exact .nothing rfl (Or.inl rfl)
    dsimp only at h
    generalize (if idx = 0 then cancelOnceFunc E s else s) = u at h hcancel
    split at h
    next =>
      obtain rfl := Option.some.inj h
      exact hcancel.congr rfl rfl rfl rfl
    next =>
      obtain rfl := Option.some.inj h
      exact hcancel.congr rfl rfl rfl rfl
  next => cases h

/-- **What one action records.** -/
theorem act_records {E : Exec ε ω β} {cmds : List Command} {s t : State ε ω} {a : Action β}
    (h : act E cmds a s = some t) : Records E s t := by
  cases a with
  | main => exact mainStep_records h
  | receive idx =>
    simp only [act, receiveStep] at h
    split at h
    next err hm hw =>
      obtain rfl := Option.some.inj h
      exact .event (.received idx err) rfl rfl
    next => cases h
  | waiter idx =>
    simp only [act, waiterStep] at h
    split at h
    next hw =>
      obtain rfl := Option.some.inj h
      exact .nothing rfl (Or.inr (Or.inl ⟨idx, rfl⟩))
    next hw =>
      obtain ⟨err, hres, rfl⟩ := Option.map_eq_some_iff.mp h
      exact .event (.waited idx err) rfl ⟨hres, rfl⟩
    all_goals cases h
  | background b =>
    obtain ⟨x, hx, rfl⟩ := Option.map_eq_some_iff.mp h
    exact .nothing rfl (Or.inr (Or.inr ⟨b, hx⟩))

/-- **The trace is what the calls returned**, in every run. -/
theorem recorded_reachable {E : Exec ε ω β} {cmds : List Command} {x : ω} {s : State ε ω}
    (hs : (runCommands E cmds x).Reachable s) : Ordered (Recorded E cmds x) s.trace := by
  refine hs.invariant (P := fun s => Ordered (Recorded E cmds x) s.trace) ?_ ?_
  · rintro s rfl
    exact ordered_nil
  · rintro s t hs hord ⟨a, hact⟩
    cases act_records hact with
    | nothing htrace =>
      rw [htrace]
      exact hord
    | event e htrace hcall =>
      rw [htrace]
      exact ordered_snoc hord ⟨s, t, hs, ⟨a, hact⟩, rfl, hcall⟩

/-! ## Together -/

/-- **Command supervision is exact**, in every state of every run, over any
behaviour of the commands, their writers and the cancel. -/
theorem runCommands_supervised (E : Exec ε ω β) (cmds : List Command) (x : ω) (s : State ε ω)
    (hs : (runCommands E cmds x).Reachable s) : Supervised E cmds x s := by
  have h := reachable_inv hs
  refine ⟨recorded_reachable hs, fun result hm i hi => waited_of_returned h hm hi, ?_,
    fun i stream => closesOf_length i stream h.ordered, ?_, ?_, ?_, ?_, ?_,
    fun result hm => returned_members h hm, stuck_waits h⟩
  · intro pre i stream err post htr
    obtain ⟨hc, ⟨waitErr, hr⟩, -⟩ := h.ordered pre _ post htr
    exact ⟨hc, waitErr, waited_of_received (h.ordered.isPrefix ⟨_, htr.symm⟩) hr⟩
  · intro result hm i hi stream hc
    have hp := h.phase
    rw [Phase, hm] at hp
    obtain ⟨err, hclosed⟩ := hp.1.closes i hi stream hc
    have hpos := List.length_pos_of_mem (mem_closesOf.mpr hclosed)
    have hle := closesOf_length i stream h.ordered
    omega
  · intro pre post htr
    exact (h.ordered pre _ post htr : Observed pre).happened (h.ordered.isPrefix ⟨_, htr.symm⟩)
  · intro pre i err post htr
    exact (h.ordered pre _ post htr : Follows cmds pre (.received i err)).2.2
  · intro result hm
    have hp := h.phase
    rw [Phase, hm] at hp
    exact hp.1.answered
  · intro result hm
    obtain ⟨-, hmem⟩ := returned_members h hm
    constructor
    · rintro rfl m hrep
      exact absurd ((hmem m).mpr hrep) (by simp)
    · intro hnone
      rw [← Error.leavesOf_eq_nil, List.eq_nil_iff_forall_not_mem]
      exact fun m hm' => hnone m ((hmem m).mp hm')

/-- Command 1 cannot be started and every other command exits with 1. -/
def failing : Exec Nat Unit Unit where
  start idx x := (if idx = 1 then some 2 else none, x)
  enterWait _ x := x
  waitResult _ _ := some (some (.exitError (.exited 1)))
  close _ _ x := (none, x)
  cancel x := x
  background _ _ := none

/-- Two commands whose streams are all to be closed. -/
def twoCommands : List Command := [⟨fun _ => true⟩, ⟨fun _ => true⟩]

/-- Of two commands the second fails to start: the first is cancelled, waited for
and reported too. -/
theorem runCommands_supervised_failing : ∃ s : State Nat Unit,
    (runCommands failing twoCommands ()).Reachable s ∧
      s.main = .returned (some (.join (.leaf (.startingCommand 1 2))
        [.join (.leaf (.command 0 (some (.exitError (.exited 1))))) []])) ∧
      Supervised failing twoCommands () s := by
  have hrun : System.runActions (act failing twoCommands)
      [.main, .main, .main, .main, .main, .main, .waiter 0, .waiter 0, .receive 0,
        .main, .main, .main, .main] (initial twoCommands ()) = some _ := rfl
  have hreach : (runCommands failing twoCommands ()).Reachable _ :=
    System.reachable_of_runActions (.start rfl) hrun
  exact ⟨_, hreach, rfl, runCommands_supervised failing twoCommands () _ hreach⟩

end ShouldIAsync.EventLoop
