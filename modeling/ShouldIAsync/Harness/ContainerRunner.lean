import ShouldIAsync.Lib.System
import Mathlib.Data.Finset.Card
import Mathlib.Data.List.Count
import Mathlib.Data.Nat.Find

/-!
# `inside_container_runner.bash`

The main loop of the script, with its `TERM` trap. The trap may come between any two commands;
in particular `waitn` may come back without a job, any number of times. Which job it gives, and
with which status, is free.

A job counts as reaped when `wait_for_job` looks at its status (`FollowsRule.look`), and not when
`waitn` comes back with it: a `TERM` in between is handled before the look, and the status 143 of
the job is then ignored (`term_before_look`). `Rule` is what the comment in `wait_for_job` says of
the exit status, over the log of the reaped jobs and the traps; `runner_follows_rule` is that the
loop ends with it, whatever the jobs and the signals do.
-/

namespace ShouldIAsync.Harness.ContainerRunner

open ShouldIAsync.Lib

/-- What the script has seen. -/
inductive Event
  -- `wait_for_job` has looked at the status of a job
  | reaped (pid waitRet : Nat)
  -- the trap has been handled
  | term
  deriving DecidableEq

/-- Where the script is. -/
inductive Pc
  | loop
  -- in `waitn`
  | waitn
  -- back from it; no pid if a signal woke it up
  | finished (finishedPid : Option Nat) (waitRet : Nat)
  -- at the `if` over the status
  | status (finishedPid waitRet : Nat)
  -- at the `if` over `CMD1_PID`
  | primary (finishedPid : Nat)
  | done
  deriving DecidableEq

/-- The variables of the script, with the trap. -/
structure State where
  pc : Pc := .loop
  pids : Finset Nat
  exitStatus : Nat := 0
  killedJobs : Bool := false
  handledTerm : Bool := false
  /-- what has happened -/
  log : List Event := []
  /-- who has been sent `TERM` -/
  signalled : Finset Nat := ∅
  deriving DecidableEq

inductive Action
  -- `term_handler`
  | term
  -- `waitn` comes back
  | waitn (finished : Option (Nat × Nat))
  -- the script goes on
  | next

/-- `kill -TERM` of all that is in `pids`, with `killed_jobs` set. -/
def State.killJobs (s : State) : State :=
  { s with killedJobs := true, signalled := s.signalled ∪ s.pids }

/-- What it does, or `none` where it cannot happen. -/
def act (cmd1Pid : Nat) : Action → State → Option State
  | .term, s => some { s.killJobs with handledTerm := true, log := s.log ++ [.term] }
  | .waitn finished, s =>
    match s.pc with
    | .waitn =>
      match finished with
      | none => some { s with pc := .finished none 0 }
      | some (pid, waitRet) =>
        if pid ∈ s.pids then some { s with pc := .finished (some pid) waitRet } else none
    | _ => none
  | .next, s =>
    match s.pc with
    | .loop => some { s with pc := if s.pids = ∅ then .done else .waitn }
    | .finished none _ => some { s with pc := .loop }
    | .finished (some pid) waitRet =>
      some { s with pids := s.pids.erase pid, pc := .status pid waitRet }
    | .status pid waitRet =>
      -- only `killed_jobs` can change in the middle of this
      some { s with
        exitStatus :=
          if (s.exitStatus = 0 ∨ pid = cmd1Pid) ∧ (s.killedJobs = false ∨ waitRet ≠ 143) ∧
            waitRet ≠ 0 then waitRet
          else s.exitStatus
        log := s.log ++ [.reaped pid waitRet]
        pc := .primary pid }
    | .primary pid =>
      if pid = cmd1Pid ∧ s.pids ≠ ∅ then some { s.killJobs with pc := .loop }
        else some { s with pc := .loop }
    | .waitn | .done => none

/-- The script, from the start of the loop. -/
def runner (cmd1Pid : Nat) (jobs : Finset Nat) : System State :=
  System.ofActions (· = { pids := jobs }) (act cmd1Pid)

/-- How a job ends. -/
inductive Fate
  | exited (status : Nat)
  | termed
  deriving DecidableEq

/-- How the script ends after its loop. Its `TERM` to itself is lost if it is the first process of
its container (`init`), for which a signal without a handler does nothing; it then goes on to
`exit`. -/
def State.fate (init : Bool) (s : State) : Fate :=
  if s.handledTerm ∧ init = false then .termed else .exited s.exitStatus

/-! ## The rule -/

/-- `CMD1` is reaped, or `TERM` handled. -/
def Killed (cmd1Pid : Nat) (log : List Event) : Prop :=
  .term ∈ log ∨ ∃ waitRet, .reaped cmd1Pid waitRet ∈ log

/-- After `before`, a job is reaped with a status that is not zero and not ignored. -/
structure Counts (cmd1Pid : Nat) (log before : List Event) (pid waitRet : Nat) : Prop where
  reaped : before ++ [.reaped pid waitRet] <+: log
  nonzero : waitRet ≠ 0
  notIgnored : ¬ (waitRet = 143 ∧ Killed cmd1Pid before)

/-- The status of `CMD1` if it counts, else the first that counts, else zero. -/
structure Rule (cmd1Pid : Nat) (log : List Event) (exitStatus : Nat) : Prop where
  cmd1 : ∀ {before waitRet}, Counts cmd1Pid log before cmd1Pid waitRet → exitStatus = waitRet
  first : (¬ ∃ before waitRet, Counts cmd1Pid log before cmd1Pid waitRet) →
    ∀ {before pid waitRet}, Counts cmd1Pid log before pid waitRet →
      (∀ {before' pid' waitRet'}, Counts cmd1Pid log before' pid' waitRet' →
        before.length ≤ before'.length) →
        exitStatus = waitRet
  zero : (¬ ∃ before pid waitRet, Counts cmd1Pid log before pid waitRet) → exitStatus = 0

/-- How often a job is reaped. -/
def reapedCount (log : List Event) (pid : Nat) : Nat :=
  log.countP fun e => match e with
    | .reaped pid' _ => pid' = pid
    | .term => false

/-- What is claimed of a state. -/
structure FollowsRule (cmd1Pid : Nat) (jobs : Finset Nat) (s : State) : Prop where
  /-- a job is reaped by the `if` over its status -/
  look : ∀ {a t pid waitRet}, act cmd1Pid a s = some t →
    (t.log = s.log ++ [.reaped pid waitRet] ↔ a = .next ∧ s.pc = .status pid waitRet)
  /-- nobody is killed without a reason -/
  signalled : ∀ pid ∈ s.signalled, Killed cmd1Pid s.log
  /-- and nobody is spared with one -/
  remaining : s.pc = .loop ∨ s.pc = .waitn → Killed cmd1Pid s.log →
    ∀ pid ∈ s.pids, pid ∈ s.signalled
  reaped : s.pc = .done → ∀ pid, reapedCount s.log pid = if pid ∈ jobs then 1 else 0
  exitStatus : s.pc = .done → Rule cmd1Pid s.log s.exitStatus

/-! ## What an event adds -/

variable {cmd1Pid pid waitRet exitStatus : Nat} {log before : List Event} {jobs : Finset Nat}
    {s t : State}

theorem killed_term (cmd1Pid : Nat) (log : List Event) : Killed cmd1Pid (log ++ [.term]) :=
  Or.inl (List.mem_append_right log List.mem_cons_self)

theorem killed_reaped : Killed cmd1Pid (log ++ [.reaped pid waitRet]) ↔ Killed cmd1Pid log ∨
    pid = cmd1Pid := by
  unfold Killed
  simp only [List.mem_append, List.mem_singleton, reduceCtorEq, or_false, Event.reaped.injEq,
    exists_or]
  rw [or_assoc]
  refine or_congr_right (or_congr_right ?_)
  constructor
  · rintro ⟨_, hpid, -⟩
    exact hpid.symm
  · rintro rfl
    exact ⟨waitRet, rfl, rfl⟩

/-- A TERM changes nothing about the looks before it. -/
theorem counts_term : Counts cmd1Pid (log ++ [.term]) before pid waitRet ↔
    Counts cmd1Pid log before pid waitRet := by
  have hreaped : before ++ [.reaped pid waitRet] <+: log ++ [.term] ↔
      before ++ [.reaped pid waitRet] <+: log := by
    rw [List.prefix_concat_iff]
    refine or_iff_right fun heq => ?_
    cases (List.append_inj' heq rfl).2
  constructor
  · exact fun h => ⟨hreaped.mp h.reaped, h.nonzero, h.notIgnored⟩
  · exact fun h => ⟨hreaped.mpr h.reaped, h.nonzero, h.notIgnored⟩

/-- A job that is reaped after `log` counts there. -/
def CountsNow (cmd1Pid : Nat) (log : List Event) (waitRet : Nat) : Prop :=
  waitRet ≠ 0 ∧ ¬ (waitRet = 143 ∧ Killed cmd1Pid log)

/-- A look counts for good, and the new one if it counts now. -/
theorem counts_reaped {pid' waitRet' : Nat} :
    Counts cmd1Pid (log ++ [.reaped pid waitRet]) before pid' waitRet' ↔
      Counts cmd1Pid log before pid' waitRet' ∨
        (before = log ∧ pid' = pid ∧ waitRet' = waitRet) ∧ CountsNow cmd1Pid log waitRet := by
  constructor
  · rintro ⟨hreaped, hnonzero, hignored⟩
    rcases List.prefix_concat_iff.mp hreaped with heq | hold
    · obtain ⟨rfl, hlast⟩ := List.append_inj' heq rfl
      cases hlast
      exact Or.inr ⟨⟨rfl, rfl, rfl⟩, hnonzero, hignored⟩
    · exact Or.inl ⟨hold, hnonzero, hignored⟩
  · rintro (⟨hold, hnonzero, hignored⟩ | ⟨⟨rfl, rfl, rfl⟩, hnonzero, hignored⟩)
    · exact ⟨List.prefix_concat_iff.mpr (Or.inr hold), hnonzero, hignored⟩
    · exact ⟨List.prefix_rfl, hnonzero, hignored⟩

/-- Of the jobs that count one is the first. -/
theorem exists_first (h : ∃ before pid waitRet, Counts cmd1Pid log before pid waitRet) :
    ∃ before pid waitRet, Counts cmd1Pid log before pid waitRet ∧
      ∀ {before' pid' waitRet'}, Counts cmd1Pid log before' pid' waitRet' →
        before.length ≤ before'.length := by
  classical
  have hlength : ∃ n before, before.length = n ∧
      ∃ pid waitRet, Counts cmd1Pid log before pid waitRet := by
    obtain ⟨before, pid, waitRet, hcounts⟩ := h
    exact ⟨before.length, before, rfl, pid, waitRet, hcounts⟩
  obtain ⟨before, hbefore, pid, waitRet, hcounts⟩ := Nat.find_spec hlength
  refine ⟨before, pid, waitRet, hcounts, fun {before' pid' waitRet'} hcounts' => ?_⟩
  rw [hbefore]
  exact Nat.find_min' hlength ⟨before', rfl, pid', waitRet', hcounts'⟩

/-- The exit status is zero exactly if no look counts. -/
theorem Rule.eq_zero_iff (hrule : Rule cmd1Pid log exitStatus) :
    exitStatus = 0 ↔ ¬ ∃ before pid waitRet, Counts cmd1Pid log before pid waitRet := by
  refine ⟨fun hzero hsome => ?_, hrule.zero⟩
  by_cases hcmd1 : ∃ before waitRet, Counts cmd1Pid log before cmd1Pid waitRet
  · obtain ⟨before, waitRet, hcounts⟩ := hcmd1
    exact hcounts.nonzero ((hrule.cmd1 hcounts).symm.trans hzero)
  · obtain ⟨before, pid, waitRet, hcounts, hfirst⟩ := exists_first hsome
    exact hcounts.nonzero ((hrule.first hcmd1 hcounts hfirst).symm.trans hzero)

/-- The rule only looks at what counts. -/
theorem Rule.congr {log' : List Event} (hrule : Rule cmd1Pid log exitStatus)
    (h : ∀ before pid waitRet, Counts cmd1Pid log' before pid waitRet ↔
      Counts cmd1Pid log before pid waitRet) :
    Rule cmd1Pid log' exitStatus where
  cmd1 hcounts := hrule.cmd1 ((h _ _ _).mp hcounts)
  first hcmd1 {_ _ _} hcounts hfirst := by
    refine hrule.first (fun ⟨before, waitRet, hold⟩ => hcmd1 ⟨before, waitRet, (h _ _ _).mpr hold⟩)
      ((h _ _ _).mp hcounts) fun hold => hfirst ((h _ _ _).mpr hold)
  zero hnone := hrule.zero fun ⟨before, pid, waitRet, hold⟩ =>
    hnone ⟨before, pid, waitRet, (h _ _ _).mpr hold⟩

/-- **What `wait_for_job` makes of a status is what the rule asks for**, as `CMD1` is reaped once.
-/
theorem Rule.reaped (hrule : Rule cmd1Pid log exitStatus)
    (honce : pid = cmd1Pid → ¬ ∃ before waitRet, Counts cmd1Pid log before cmd1Pid waitRet)
    {exitStatus' : Nat}
    (hexit : ((exitStatus = 0 ∨ pid = cmd1Pid) ∧ CountsNow cmd1Pid log waitRet ∧
      exitStatus' = waitRet) ∨
      (¬ ((exitStatus = 0 ∨ pid = cmd1Pid) ∧ CountsNow cmd1Pid log waitRet) ∧
        exitStatus' = exitStatus)) :
    Rule cmd1Pid (log ++ [.reaped pid waitRet]) exitStatus' := by
  by_cases hnow : CountsNow cmd1Pid log waitRet
  · have hnew : Counts cmd1Pid (log ++ [.reaped pid waitRet]) log pid waitRet :=
      counts_reaped.mpr (Or.inr ⟨⟨rfl, rfl, rfl⟩, hnow⟩)
    have hold : ∀ {before pid' waitRet'}, Counts cmd1Pid log before pid' waitRet' →
        Counts cmd1Pid (log ++ [.reaped pid waitRet]) before pid' waitRet' :=
      fun hcounts => counts_reaped.mpr (Or.inl hcounts)
    rcases hexit with ⟨htaken, -, rfl⟩ | ⟨hkept, rfl⟩
    · -- the status is taken over
      refine ⟨fun {before waitRet'} hcounts => ?_, fun hcmd1 {before pid' waitRet'} hcounts _ => ?_,
        fun hnone => (hnone ⟨_, _, _, hnew⟩).elim⟩
      · rcases counts_reaped.mp hcounts with hcounts | ⟨⟨-, -, rfl⟩, -⟩
        · rcases htaken with hzero | hpid
          · exact (hrule.eq_zero_iff.mp hzero ⟨_, _, _, hcounts⟩).elim
          · exact (honce hpid ⟨_, _, hcounts⟩).elim
        · rfl
      · rcases counts_reaped.mp hcounts with hcounts | ⟨⟨-, -, rfl⟩, -⟩
        · rcases htaken with hzero | hpid
          · exact (hrule.eq_zero_iff.mp hzero ⟨_, _, _, hcounts⟩).elim
          · subst hpid
            exact (hcmd1 ⟨_, _, hnew⟩).elim
        · rfl
    · -- another one came first
      have hnonzero : exitStatus' ≠ 0 := fun hzero => hkept ⟨Or.inl hzero, hnow⟩
      have hother : pid ≠ cmd1Pid := fun hpid => hkept ⟨Or.inr hpid, hnow⟩
      refine ⟨fun {before waitRet'} hcounts =>
        ?_, fun hcmd1 {before pid' waitRet'} hcounts hfirst => ?_,
        fun hnone => (hnone ⟨_, _, _, hnew⟩).elim⟩
      · rcases counts_reaped.mp hcounts with hcounts | ⟨⟨-, hpid, -⟩, -⟩
        · exact hrule.cmd1 hcounts
        · exact (hother hpid.symm).elim
      · rcases counts_reaped.mp hcounts with hcounts | ⟨⟨rfl, -, -⟩, -⟩
        · exact hrule.first (fun ⟨_, _, h⟩ => hcmd1 ⟨_, _, hold h⟩) hcounts fun h => hfirst (hold h)
        · obtain ⟨before', pid'', waitRet'', hcounts'⟩ :=
            not_not.mp fun hnone => hnonzero (hrule.eq_zero_iff.mpr hnone)
          have hle := hfirst (hold hcounts')
          have hlt := hcounts'.reaped.length_le
          rw [List.length_append, List.length_singleton] at hlt
          omega
  · have hkept : exitStatus' = exitStatus := by
      rcases hexit with ⟨-, h, -⟩ | ⟨-, h⟩
      · exact (hnow h).elim
      · exact h
    rw [hkept]
    refine hrule.congr fun before pid' waitRet' =>
      counts_reaped.trans (or_iff_left fun h => hnow h.2)

/-! ## The invariant -/

/-- The job that is off `pids` and not reaped yet. -/
def Pc.inHand : Pc → Nat → Nat
  | .status pid' _, pid => if pid = pid' then 1 else 0
  | _, _ => 0

/-- That the jobs are killed, `killed_jobs` says wherever it matters. -/
def State.Knows (cmd1Pid : Nat) (s : State) : Prop :=
  match s.pc with
  | .loop => s.killedJobs = true ∨ s.pids = ∅
  | .primary pid => s.killedJobs = true ∨ pid = cmd1Pid
  | .done => s.pids = ∅
  | .waitn | .finished _ _ | .status _ _ => s.killedJobs = true

/-- What holds between any two steps. -/
structure Inv (cmd1Pid : Nat) (jobs : Finset Nat) (s : State) : Prop where
  count : ∀ pid, reapedCount s.log pid + (if pid ∈ s.pids then 1 else 0) + s.pc.inHand pid =
    if pid ∈ jobs then 1 else 0
  finished : ∀ {pid waitRet}, s.pc = .finished (some pid) waitRet → pid ∈ s.pids
  primary : ∀ {pid}, s.pc = .primary pid → ∃ waitRet, .reaped pid waitRet ∈ s.log
  done : s.pc = .done → s.pids = ∅
  killedJobs : s.killedJobs = true → Killed cmd1Pid s.log ∧ ∀ pid ∈ s.pids, pid ∈ s.signalled
  knows : Killed cmd1Pid s.log → s.Knows cmd1Pid
  signalled : ∀ pid ∈ s.signalled, Killed cmd1Pid s.log
  handledTerm : s.handledTerm = true ↔ .term ∈ s.log
  rule : Rule cmd1Pid s.log s.exitStatus

theorem inv_start (cmd1Pid : Nat) (jobs : Finset Nat) : Inv cmd1Pid jobs { pids := jobs } where
  count pid := by
    show 0 + (if pid ∈ jobs then 1 else 0) + 0 = _
    rw [Nat.zero_add, Nat.add_zero]
  finished h := by cases h
  primary h := by cases h
  done h := by cases h
  killedJobs h := by cases h
  knows h := by
    rcases h with h | ⟨_, h⟩
    · cases h
    · cases h
  signalled pid h := (Finset.notMem_empty pid h).elim
  handledTerm := iff_of_false Bool.false_ne_true List.not_mem_nil
  rule := by
    have hnone : ∀ {before pid waitRet}, ¬ Counts cmd1Pid [] before pid waitRet := by
      intro before pid waitRet h
      have := h.reaped.length_le
      rw [List.length_append] at this
      simp at this
    exact ⟨fun h => (hnone h).elim, fun _ {_ _ _} h => (hnone h).elim, fun _ => rfl⟩

theorem reapedCount_term (log : List Event) (pid : Nat) :
    reapedCount (log ++ [.term]) pid = reapedCount log pid := by
  unfold reapedCount
  rw [List.countP_append, List.countP_singleton]
  rfl

theorem reapedCount_reaped (log : List Event) (pid pid' waitRet : Nat) :
    reapedCount (log ++ [.reaped pid' waitRet]) pid =
      reapedCount log pid + if pid = pid' then 1 else 0 := by
  unfold reapedCount
  rw [List.countP_append, List.countP_singleton]
  by_cases h : pid' = pid
  · rw [if_pos (decide_eq_true h), if_pos h.symm]
  · rw [if_neg (fun hd => h (of_decide_eq_true hd)), if_neg (Ne.symm h)]

/-- A job that counts is reaped. -/
theorem Counts.reapedCount_pos (h : Counts cmd1Pid log before pid waitRet) :
    0 < reapedCount log pid := by
  have hmem : Event.reaped pid waitRet ∈ log :=
    h.reaped.subset (List.mem_append_right before List.mem_cons_self)
  exact List.countP_pos_iff.mpr ⟨_, hmem, decide_eq_true rfl⟩

/-! ## Step by step -/

/-- The trap keeps the invariant. -/
theorem inv_term (hinv : Inv cmd1Pid jobs s) (hact : act cmd1Pid .term s = some t) :
    Inv cmd1Pid jobs t := by
  cases hact
  have hkilled := killed_term cmd1Pid s.log
  refine ⟨fun pid => ?_, hinv.finished, fun hpc => ?_, hinv.done, fun _ =>
    ⟨hkilled, fun pid hpid => ?_⟩,
    fun _ => ?_, fun _ _ => hkilled, iff_of_true rfl (List.mem_append_right _ List.mem_cons_self),
    hinv.rule.congr fun _ _ _ => counts_term⟩
  · show reapedCount (s.log ++ [.term]) pid + _ + _ = _
    rw [reapedCount_term]
    exact hinv.count pid
  · obtain ⟨waitRet, hmem⟩ := hinv.primary hpc
    exact ⟨waitRet, List.mem_append_left _ hmem⟩
  · exact Finset.mem_union_right _ hpid
  · unfold State.Knows
    split
    next => exact Or.inl rfl
    next => exact Or.inl rfl
    next hpc => exact hinv.done hpc
    next => rfl
    next => rfl
    next => rfl

/-- Only the script goes on, without a job in hand. -/
theorem Inv.goto (hinv : Inv cmd1Pid jobs s) {pc : Pc} (hinHand : pc.inHand = s.pc.inHand)
    (hfinished : ∀ {pid waitRet}, pc = .finished (some pid) waitRet → pid ∈ s.pids)
    (hprimary : ∀ {pid}, pc ≠ .primary pid) (hdone : pc = .done → s.pids = ∅)
    (hknows : Killed cmd1Pid s.log → State.Knows cmd1Pid { s with pc := pc }) :
    Inv cmd1Pid jobs { s with pc := pc } where
  count pid := by
    rw [← hinv.count pid, ← hinHand]
  finished := hfinished
  primary h := (hprimary h).elim
  done := hdone
  killedJobs := hinv.killedJobs
  knows := hknows
  signalled := hinv.signalled
  handledTerm := hinv.handledTerm
  rule := hinv.rule

theorem inv_waitn {finished : Option (Nat × Nat)} (hinv : Inv cmd1Pid jobs s)
    (hact : act cmd1Pid (.waitn finished) s = some t) : Inv cmd1Pid jobs t := by
  unfold act at hact
  dsimp only at hact
  split at hact
  next hpc =>
    have hknows : Killed cmd1Pid s.log → s.killedJobs = true := by
      intro hkilled
      have hknows := hinv.knows hkilled
      unfold State.Knows at hknows
      rw [hpc] at hknows
      exact hknows
    split at hact
    next =>
      cases hact
      exact hinv.goto (by rw [hpc]; rfl) (fun h => by cases h) Pc.noConfusion
        (fun h => by cases h) hknows
    next pid waitRet =>
      split at hact
      next hmem =>
        cases hact
        refine hinv.goto (by rw [hpc]; rfl) (fun h =>
          ?_) Pc.noConfusion (fun h => by cases h) hknows
        cases h
        exact hmem
      next => cases hact
  next => cases hact

/-- `wait_for_job` has a job whose status it has not looked at. -/
theorem Inv.not_reaped (hinv : Inv cmd1Pid jobs s) (hpc : s.pc = .status pid waitRet) :
    reapedCount s.log pid = 0 ∧ pid ∉ s.pids := by
  have hcount := hinv.count pid
  rw [hpc, show (Pc.status pid waitRet).inHand pid = 1 from if_pos rfl] at hcount
  constructor
  · split at hcount <;> split at hcount <;> omega
  · intro hmem
    rw [if_pos hmem] at hcount
    split at hcount <;> omega

theorem inv_status (hinv : Inv cmd1Pid jobs s) (hpc : s.pc = .status pid waitRet)
    (hact : act cmd1Pid .next s = some t) : Inv cmd1Pid jobs t := by
  unfold act at hact
  dsimp only at hact
  rw [hpc] at hact
  cases hact
  obtain ⟨hnot, hpid⟩ := hinv.not_reaped hpc
  -- here the flag is what the rule asks for
  have hflag : s.killedJobs = true ↔ Killed cmd1Pid s.log := by
    refine ⟨fun h => (hinv.killedJobs h).1, fun hkilled => ?_⟩
    have hknows := hinv.knows hkilled
    unfold State.Knows at hknows
    rw [hpc] at hknows
    exact hknows
  have hnow : (s.killedJobs = false ∨ waitRet ≠ 143) ∧ waitRet ≠ 0 ↔
      CountsNow cmd1Pid s.log waitRet := by
    unfold CountsNow
    rw [and_comm, ← hflag, ← Bool.not_eq_true, not_and_or, or_comm]
  refine ⟨fun pid' => ?_, fun h => (by cases h), fun h => ?_, fun h =>
    (by cases h), fun hkilled => ?_, fun hkilled => ?_,
    fun pid' h => killed_reaped.mpr (Or.inl (hinv.signalled pid' h)), ?_, ?_⟩
  · show reapedCount (s.log ++ [.reaped pid waitRet]) pid' + (if pid' ∈ s.pids then 1
      else 0) + 0 = _
    have hcount := hinv.count pid'
    rw [hpc] at hcount
    rw [reapedCount_reaped, ← hcount]
    show _ = _ + _ + if pid' = pid then 1 else 0
    omega
  · cases h
    exact ⟨waitRet, List.mem_append_right _ List.mem_cons_self⟩
  · exact ⟨killed_reaped.mpr (Or.inl (hflag.mp hkilled)), (hinv.killedJobs hkilled).2⟩
  · exact (killed_reaped.mp hkilled).imp_left hflag.mpr
  · rw [hinv.handledTerm, List.mem_append]
    exact (or_iff_left fun h => by cases List.mem_singleton.mp h).symm
  · refine hinv.rule.reaped (fun hcmd1 ⟨before, waitRet', hcounts⟩ => ?_) ?_
    · have hpos := hcounts.reapedCount_pos
      rw [← hcmd1, hnot] at hpos
      exact Nat.lt_irrefl 0 hpos
    · rw [← hnow]
      dsimp only
      split
      next h => exact Or.inl ⟨h.1, h.2, rfl⟩
      next h => exact Or.inr ⟨h, rfl⟩

theorem inv_primary (hinv : Inv cmd1Pid jobs s) (hpc : s.pc = .primary pid)
    (hact : act cmd1Pid .next s = some t) : Inv cmd1Pid jobs t := by
  unfold act at hact
  dsimp only at hact
  rw [hpc] at hact
  dsimp only at hact
  have hcount := hinv.count
  rw [hpc] at hcount
  have hknows := hinv.knows
  unfold State.Knows at hknows
  rw [hpc] at hknows
  split at hact
  next hcmd1 =>
    cases hact
    have hkilled : Killed cmd1Pid s.log := Or.inr (hcmd1.1 ▸ hinv.primary hpc)
    refine ⟨hcount, fun h => (by cases h), fun h => (by cases h), fun h => (by cases h),
      fun _ => ⟨hkilled, fun pid' => Finset.mem_union_right _⟩, fun _ =>
        Or.inl rfl, fun _ _ => hkilled,
      hinv.handledTerm, hinv.rule⟩
  next hcmd1 =>
    cases hact
    refine hinv.goto (by rw [hpc]; rfl) (fun h => by cases h) Pc.noConfusion (fun h => by cases h)
      fun hkilled => ?_
    exact (hknows hkilled).imp_right fun hpid => not_not.mp fun hne => hcmd1 ⟨hpid, hne⟩

theorem inv_loop (hinv : Inv cmd1Pid jobs s) (hpc : s.pc = .loop)
    (hact : act cmd1Pid .next s = some t) : Inv cmd1Pid jobs t := by
  unfold act at hact
  dsimp only at hact
  rw [hpc] at hact
  cases hact
  have hknows := hinv.knows
  unfold State.Knows at hknows
  rw [hpc] at hknows
  by_cases hpids : s.pids = ∅
  · rw [if_pos hpids]
    exact hinv.goto (by rw [hpc]; rfl) (fun h => by cases h) Pc.noConfusion
      (fun _ => hpids) fun _ => hpids
  · rw [if_neg hpids]
    exact hinv.goto (by rw [hpc]; rfl) (fun h => by cases h) Pc.noConfusion (fun h => by cases h)
      fun hkilled => (hknows hkilled).resolve_right hpids

theorem inv_finished {finishedPid : Option Nat} (hinv : Inv cmd1Pid jobs s)
    (hpc : s.pc = .finished finishedPid waitRet)
    (hact : act cmd1Pid .next s = some t) : Inv cmd1Pid jobs t := by
  unfold act at hact
  dsimp only at hact
  have hcount := hinv.count
  have hknows := hinv.knows
  unfold State.Knows at hknows
  rw [hpc] at hact hcount hknows
  cases finishedPid with
  | none =>
    cases hact
    exact hinv.goto (by rw [hpc]; rfl) (fun h => by cases h) Pc.noConfusion (fun h => by cases h)
      fun hkilled => Or.inl (hknows hkilled)
  | some pid =>
    cases hact
    refine ⟨fun pid' => ?_, fun h => (by cases h), fun h => (by cases h), fun h => (by cases h),
      fun hkilled => ⟨(hinv.killedJobs hkilled).1, fun pid' hmem => ?_⟩, hknows, hinv.signalled,
      hinv.handledTerm, hinv.rule⟩
    · show reapedCount s.log pid' + (if pid' ∈ s.pids.erase pid then 1 else 0) +
        (if pid' = pid then 1 else 0) = _
      rw [← hcount pid']
      by_cases hp : pid' = pid
      · rw [hp, if_neg (Finset.notMem_erase pid s.pids), if_pos rfl, if_pos (hinv.finished hpc)]
        rfl
      · rw [if_neg hp]
        simp only [Finset.mem_erase, ne_eq, hp, not_false_eq_true, true_and]
        rfl
    · exact (hinv.killedJobs hkilled).2 pid' (Finset.mem_of_mem_erase hmem)

/-- Every step of the script keeps it. -/
theorem inv_next (hinv : Inv cmd1Pid jobs s) (hact : act cmd1Pid .next s = some t) :
    Inv cmd1Pid jobs t := by
  cases hpc : s.pc with
  | loop => exact inv_loop hinv hpc hact
  | finished finishedPid waitRet => exact inv_finished hinv hpc hact
  | status pid waitRet => exact inv_status hinv hpc hact
  | primary pid => exact inv_primary hinv hpc hact
  | waitn =>
    unfold act at hact
    dsimp only at hact
    rw [hpc] at hact
    cases hact
  | done =>
    unfold act at hact
    dsimp only at hact
    rw [hpc] at hact
    cases hact

theorem inv_reachable (h : (runner cmd1Pid jobs).Reachable s) : Inv cmd1Pid jobs s := by
  refine h.invariant (fun s hs => ?_) fun s t _ hinv ⟨a, hact⟩ => ?_
  · rw [show s = _ from hs]
    exact inv_start cmd1Pid jobs
  · cases a with
    | term => exact inv_term hinv hact
    | waitn finished => exact inv_waitn hinv hact
    | next => exact inv_next hinv hact

/-! ## The script -/

/-- After a `TERM` the script sends one to itself, and dies of it unless it is the first process of
its container; else it exits with the status. -/
theorem fate_eq (h : (runner cmd1Pid jobs).Reachable s) (init : Bool) :
    (.term ∈ s.log ∧ init = false → s.fate init = .termed) ∧
      (¬(.term ∈ s.log ∧ init = false) → s.fate init = .exited s.exitStatus) := by
  have hterm := (inv_reachable h).handledTerm
  unfold State.fate
  constructor
  · rintro ⟨hmem, hinit⟩
    rw [if_pos ⟨hterm.mpr hmem, hinit⟩]
  · intro hnot
    rw [if_neg fun hboth => hnot ⟨hterm.mp hboth.1, hboth.2⟩]

/-- **A `TERM` between `waitn` and the look at the status** is handled before the job counts as
reaped: its 143 is ignored, where it would have been the status had the `TERM` come later. -/
theorem term_before_look (cmd1Pid : Nat) (hpc : s.pc = .status pid 143) :
    (∃ t, System.runActions (act cmd1Pid) [.term, .next] s = some t ∧ t.exitStatus = s.exitStatus ∧
      t.log = s.log ++ [.term, .reaped pid 143]) ∧
    (s.killedJobs = false → s.exitStatus = 0 ∨ pid = cmd1Pid →
      ∃ t, System.runActions (act cmd1Pid) [.next, .term] s = some t ∧ t.exitStatus = 143 ∧
        t.log = s.log ++ [.reaped pid 143, .term]) := by
  simp only [System.runActions, act, State.killJobs, hpc, Option.bind_some]
  constructor
  · refine ⟨_, rfl, ?_, ?_⟩
    · exact if_neg (by simp)
    · exact List.append_assoc ..
  · intro hkilled hmay
    refine ⟨_, rfl, ?_, ?_⟩
    · exact if_pos ⟨hmay, Or.inl hkilled, by decide⟩
    · exact List.append_assoc ..

/-- The log grows by a look exactly where there is one. -/
theorem look_iff {a : Action} {waitRet : Nat} (hact : act cmd1Pid a s = some t) :
    t.log = s.log ++ [.reaped pid waitRet] ↔ a = .next ∧ s.pc = .status pid waitRet := by
  have hsame : s.log ≠ s.log ++ [.reaped pid waitRet] := by simp
  unfold act at hact
  cases a with
  | term =>
    cases hact
    simp
  | waitn finished =>
    dsimp only at hact
    split at hact
    next =>
      split at hact
      next =>
        cases hact
        simp
      next =>
        split at hact
        next =>
          cases hact
          simp
        next => cases hact
    next => cases hact
  | next =>
    dsimp only at hact
    split at hact
    next hpc =>
      cases hact
      simp [hpc]
    next hpc =>
      cases hact
      simp [hpc]
    next hpc =>
      cases hact
      simp [hpc]
    next hpc =>
      cases hact
      simp [hpc]
    next hpc =>
      split at hact
      next =>
        cases hact
        simp [hpc, State.killJobs]
      next =>
        cases hact
        simp [hpc]
    next => cases hact
    next => cases hact

/-- A job that finishes is reaped. -/
theorem reap_job (cmd1Pid waitRet : Nat) (hpc : s.pc = .loop) (hpid : pid ∈ s.pids) :
    ∃ t, System.runActions (act cmd1Pid)
        [.next, .waitn (some (pid, waitRet)), .next, .next, .next] s = some t ∧
      t.pc = .loop ∧ t.pids = s.pids.erase pid := by
  have hne : s.pids ≠ ∅ := Finset.ne_empty_of_mem hpid
  simp only [System.runActions, act, hpc, if_neg hne, hpid, if_true, Option.bind_some]
  split
  next => exact ⟨_, rfl, rfl, rfl⟩
  next => exact ⟨_, rfl, rfl, rfl⟩

/-- From the head of the loop, when all jobs finish, the loop is over. -/
theorem reaps_all (cmd1Pid : Nat) (hpc : s.pc = .loop) :
    ∃ as t, System.runActions (act cmd1Pid) as s = some t ∧ t.pc = .done := by
  induction hn : s.pids.card generalizing s with
  | zero =>
    have hnone : s.pids = ∅ := Finset.card_eq_zero.mp hn
    refine ⟨[.next], { s with pc := .done }, ?_, rfl⟩
    simp only [System.runActions, act, hpc, if_pos hnone, Option.bind_some]
  | succ n ih =>
    obtain ⟨pid, hpid⟩ := Finset.card_pos.mp (Nat.lt_of_lt_of_eq (Nat.succ_pos n) hn.symm)
    obtain ⟨t, hrun, hloop, hpids⟩ := reap_job cmd1Pid 0 hpc hpid
    have hcard : t.pids.card = n := by
      rw [hpids, Finset.card_erase_of_mem hpid, hn]
      rfl
    obtain ⟨as, u, hrun', hdone⟩ := ih hloop hcard
    exact ⟨_, u, System.runActions_append hrun hrun', hdone⟩

/-- **The container runner follows its rule**, with whatever jobs, in whatever order they finish,
with whatever status each, and with `TERM` at any moment, any number of times. -/
theorem runner_follows_rule (cmd1Pid : Nat) (jobs : Finset Nat) (s : State)
    (h : (runner cmd1Pid jobs).Reachable s) : FollowsRule cmd1Pid jobs s := by
  have hinv := inv_reachable h
  refine ⟨look_iff, hinv.signalled, fun hpc hkilled pid hpid =>
    ?_, fun hpc pid => ?_, fun _ => hinv.rule⟩
  · have hknows := hinv.knows hkilled
    unfold State.Knows at hknows
    rcases hpc with hpc | hpc
    · rw [hpc] at hknows
      rcases hknows with hkilled | hnone
      · exact (hinv.killedJobs hkilled).2 pid hpid
      · rw [hnone] at hpid
        cases hpid
    · rw [hpc] at hknows
      exact (hinv.killedJobs hknows).2 pid hpid
  · have hcount := hinv.count pid
    rw [hpc, hinv.done hpc, if_neg (Finset.notMem_empty pid)] at hcount
    exact hcount

/-- A job fails, `TERM` interrupts `waitn`, and the other two die of it, `CMD1` among them. -/
theorem runner_follows_rule_three :
    ∃ s, System.runActions (act 1)
        [.next, .waitn (some (2, 7)), .next, .next, .next, .next, .term, .waitn none, .next, .next,
          .waitn (some (1, 143)), .next, .next, .next, .next, .waitn (some (3, 143)), .next, .next,
        .next, .next]
        { pids := {1, 2, 3} } = some s ∧
      s.pc = .done ∧ s.exitStatus = 7 ∧ FollowsRule 1 {1, 2, 3} s := by
  obtain ⟨s, hrun, hdone, hexit⟩ : ∃ s, System.runActions (act 1)
      [.next, .waitn (some (2, 7)), .next, .next, .next, .next, .term, .waitn none, .next, .next,
        .waitn (some (1, 143)), .next, .next, .next, .next, .waitn (some (3, 143)), .next, .next,
        .next, .next]
      { pids := {1, 2, 3} } = some s ∧ s.pc = .done ∧ s.exitStatus = 7 := ⟨_, rfl, rfl, rfl⟩
  have hreach : (runner 1 {1, 2, 3}).Reachable s :=
    System.reachable_of_runActions (.start (Eq.refl _)) hrun
  exact ⟨s, hrun, hdone, hexit, runner_follows_rule 1 {1, 2, 3} s hreach⟩

end ShouldIAsync.Harness.ContainerRunner
