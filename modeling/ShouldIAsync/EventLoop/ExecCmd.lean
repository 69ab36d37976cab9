import ShouldIAsync.EventLoop.CommandJoin

/-!
# `os/exec` under `RunCommands`: exits that are not judged by their status

`createCommand` makes every command with `exec.CommandContext` and a `Cancel`
that sends SIGTERM. This file is the `Exec` that goes with it. A process runs
until it is gone and `Wait` has reaped it; a watcher goroutine per command calls
`Cancel` once the context is done, and what it has to say reaches `Wait` after
the reaping. `Wait` prefers the exit status, then the watcher's error, then that
of the goroutines copying the output.

So a process that exits with 0 is not reported as such once `Cancel` has
returned nil for it: `Wait` returns `ctx.Err()`, which `didExitGracefully` takes
for a failure. `command_unreported_iff` says that this is the only way for a
benign exit to be reported.
-/

namespace ShouldIAsync.EventLoop

open ShouldIAsync.Lib ShouldIAsync.GoStd

/-! ## Facts about the world behind the commands -/

section World

variable {ε ω β : Type}

/-- `W` survives whatever is done to the world. -/
structure Stable (E : Exec ε ω β) (W : ω → Prop) : Prop where
  start : ∀ i x, W x → W (E.start i x).2
  enterWait : ∀ i x, W x → W (E.enterWait i x)
  close : ∀ i stream x, W x → W (E.close i stream x).2
  cancel : ∀ x, W x → W (E.cancel x)
  background : ∀ b x y, E.background b x = some y → W x → W y

/-- The main goroutine's share of a step: `W` survives and no `Wait` returns. -/
def Carried (W : ω → Prop) (s t : State ε ω) : Prop :=
  W t.world ∧ ∀ i err, .waited i err ∈ t.trace → .waited i err ∈ s.trace

/-- The cancel carries what is stable on. -/
theorem Stable.cancelOnceFunc {E : Exec ε ω β} {W : ω → Prop} (hW : Stable E W) {s : State ε ω}
    (h : W s.world) : Carried W s (cancelOnceFunc E s) := by
  unfold EventLoop.cancelOnceFunc
  split
  · exact ⟨h, fun _ _ he => he⟩
  · exact ⟨hW.cancel _ h, by simp [cancelFunc]⟩

theorem Stable.closeStream {E : Exec ε ω β} {W : ω → Prop} (hW : Stable E W) {cmds : List Command}
    {s : State ε ω} {idx : Nat} {stream : Stream} (h : W s.world) :
    Carried W s (closeStream E cmds s idx stream) := by
  have hclose := hW.close idx stream _ h
  unfold EventLoop.closeStream
  split
  · split
    next x hx =>
      rw [hx] at hclose
      exact ⟨hclose, by simp⟩
    next cause x hx =>
      rw [hx] at hclose
      exact ⟨hclose, by simp [joinErr]⟩
  · exact ⟨h, fun _ _ he => he⟩

theorem Stable.startCommand {E : Exec ε ω β} {W : ω → Prop} (hW : Stable E W) {s : State ε ω}
    {idx : Nat} (h : W s.world) : Carried W s (startCommand E s idx) := by
  have hstart := hW.start idx _ h
  unfold EventLoop.startCommand
  split
  next x hx =>
    rw [hx] at hstart
    exact ⟨hstart, by simp⟩
  next cause x hx =>
    rw [hx] at hstart
    exact ⟨hstart, by simp⟩

theorem Stable.mainStep {E : Exec ε ω β} {W : ω → Prop} (hW : Stable E W) {cmds : List Command}
    {s t : State ε ω} (h : W s.world) (hstep : mainStep E cmds s = some t) : Carried W s t := by
  have hself : Carried W s s := ⟨h, fun _ _ he => he⟩
  unfold EventLoop.mainStep at hstep
  split at hstep
  · split at hstep <;> obtain rfl := Option.some.inj hstep
    · exact hW.startCommand h
    · exact hself
  · obtain rfl := Option.some.inj hstep
    exact ⟨hW.cancel _ h, by simp [cancelFunc]⟩
  · split at hstep
    · obtain rfl := Option.some.inj hstep
      exact hself
    · obtain rfl := Option.some.inj hstep
      exact hself
    · split at hstep <;> obtain rfl := Option.some.inj hstep <;> exact hself
  · cases hstep
  · obtain rfl := Option.some.inj hstep
    exact hW.closeStream h
  · obtain rfl := Option.some.inj hstep
    exact hW.closeStream h
  next idx waitErr _ =>
    split at hstep <;> obtain rfl := Option.some.inj hstep
    · exact hself
    · have hjoin : W (joinErr s (.leaf (.command idx waitErr))).world := h
      exact hW.cancelOnceFunc hjoin
  next idx _ =>
    have hcancel : Carried W s (if idx = 0 then EventLoop.cancelOnceFunc E s else s) := by
      split
      · exact hW.cancelOnceFunc h
      · exact hself
    generalize (if idx = 0 then EventLoop.cancelOnceFunc E s else s) = u at hcancel hstep
    dsimp only at hstep
    split at hstep <;> obtain rfl := Option.some.inj hstep <;> exact hcancel
  · cases hstep

/-- One step of anyone: `W` survives, and a `Wait` that returns got its result from
the world. -/
theorem Stable.act {E : Exec ε ω β} {W : ω → Prop} (hW : Stable E W) {cmds : List Command}
    {s t : State ε ω} {a : Action β} (h : W s.world) (hstep : act E cmds a s = some t) :
    W t.world ∧ ∀ i err, .waited i err ∈ t.trace →
      .waited i err ∈ s.trace ∨ (E.waitResult i s.world = some err ∧ t.world = s.world) := by
  cases a with
  | main =>
    obtain ⟨ht, hwaited⟩ := hW.mainStep h hstep
    exact ⟨ht, fun i err he => Or.inl (hwaited i err he)⟩
  | receive idx =>
    simp only [EventLoop.act, receiveStep] at hstep
    split at hstep
    · obtain rfl := Option.some.inj hstep
      exact ⟨h, fun i err he => Or.inl (by simpa using he)⟩
    · cases hstep
  | waiter idx =>
    simp only [EventLoop.act, waiterStep] at hstep
    split at hstep
    · obtain rfl := Option.some.inj hstep
      exact ⟨hW.enterWait idx _ h, fun i err he => Or.inl he⟩
    · obtain ⟨err, hres, rfl⟩ := Option.map_eq_some_iff.mp hstep
      refine ⟨h, fun i err' he => ?_⟩
      rcases List.mem_append.mp he with he | he
      · exact Or.inl he
      · cases List.mem_singleton.mp he
        exact Or.inr ⟨hres, rfl⟩
    all_goals cases hstep
  | background b =>
    obtain ⟨x, hx, rfl⟩ := Option.map_eq_some_iff.mp hstep
    exact ⟨hW.background b _ x hx h, fun i err he => Or.inl he⟩

/-- What is stable and holds at the start holds in each run. -/
theorem Stable.reachable {E : Exec ε ω β} {W : ω → Prop} (hW : Stable E W) {cmds : List Command}
    {x : ω} (hx : W x) {s : State ε ω} (h : (runCommands E cmds x).Reachable s) : W s.world := by
  induction h with
  | start h0 =>
    subst h0
    exact hx
  | next _ hst ih =>
    obtain ⟨a, ha⟩ := hst
    exact (hW.act ih ha).1

/-- What a `Wait` result says about the world, said by something stable, it says
for good. -/
theorem Stable.waited {E : Exec ε ω β} {Q : Nat → Option (WaitError ε) → ω → Prop}
    (hQ : ∀ i err, Stable E (Q i err)) {cmds : List Command} {x : ω} {P : ω → Prop}
    (hP : Stable E P) (hx : P x)
    (hres : ∀ i err y, P y → E.waitResult i y = some err → Q i err y) {s : State ε ω}
    (h : (runCommands E cmds x).Reachable s) {i : Nat} {err : Option (WaitError ε)}
    (he : .waited i err ∈ s.trace) : Q i err s.world := by
  induction h generalizing i err with
  | start h0 =>
    subst h0
    cases he
  | next hr hst ih =>
    obtain ⟨a, ha⟩ := hst
    have hPs := hP.reachable hx hr
    rcases (hP.act hPs ha).2 i err he with hold | ⟨hnew, hsame⟩
    · exact ((hQ i err).act (ih hold) ha).1
    · rw [hsame]
      exact hres i err _ hPs hnew

end World

/-! ## `os/exec` -/

/-- The errors from outside: the context's, or one with a number. -/
inductive ExecError
  | ctx
  | alreadyStarted
  | errno (code : Nat)
  deriving DecidableEq, Repr

/-- A process; `reaped` is when `Process.Wait` has marked it done. -/
inductive ProcState
  | unstarted
  | running
  | exited (status : WaitStatus)
  | reaped (status : WaitStatus)
  deriving DecidableEq, Repr

/-- The goroutine `watchCtx` of a command, up to the result it has for `Wait`. -/
inductive Watch
  | off
  | watching
  | result (err : Option (WaitError ExecError))
  deriving DecidableEq, Repr

/-- A command, as the operating system and `os/exec` see it. -/
structure Proc where
  state : ProcState := .unstarted
  watch : Watch := .off
  inWait : Bool := false
  -- `Cancel` has sent SIGTERM and returned nil
  signalled : Bool := false
  deriving DecidableEq, Repr

/-- The commands, the context and the errors that may come. -/
structure World where
  procs : Nat → Proc
  ctxDone : Bool
  startErr : Nat → Option ExecError
  copyErr : Nat → Option ExecError
  closeErr : Nat → Stream → Option ExecError

/-- Command `idx` becomes `p`. -/
def World.setProc (x : World) (idx : Nat) (p : Proc) : World :=
  { x with procs := fun i => if i = idx then p else x.procs i }

/-- The error of `cmd.Wait` from the exit, the watcher and the copying. -/
def waitError (status : WaitStatus) (watch : Option (WaitError ExecError))
    (copyErr : Option ExecError) : Option (WaitError ExecError) :=
  if status ≠ .exited 0 then some (.exitError status)
  else if watch.isSome then watch
  else copyErr.map .other

/-- What the processes and the goroutines of `os/exec` do by themselves. -/
inductive ExecAction
  -- the process is gone, by itself or by a signal
  | exit (idx : Nat) (status : WaitStatus)
  -- a SIGTERM reaches the supervisor and the context is done
  | interrupt
  -- `watchCtx` calls `Cancel`
  | watchCancel (idx : Nat)
  -- `watchCtx` hands `Wait` an empty result
  | watchIdle (idx : Nat)
  -- `Process.Wait` returns
  | reap (idx : Nat)
  deriving DecidableEq, Repr

/-- What happens outside of `RunCommands`. -/
def execBackground (a : ExecAction) (x : World) : Option World :=
  match a with
  | .exit idx status =>
    let p := x.procs idx
    match p.state with
    | .running => some (x.setProc idx { p with state := .exited status })
    | _ => none
  | .interrupt => some { x with ctxDone := true }
  | .watchCancel idx =>
    let p := x.procs idx
    match p.watch with
    | .watching =>
      if x.ctxDone then
        match p.state with
        -- `Process.Signal` returns `os.ErrProcessDone`, which is no error here
        | .reaped _ => some (x.setProc idx { p with watch := .result none })
        | _ => some (x.setProc idx { p with watch := .result (some .ctxErr), signalled := true })
      else none
    | _ => none
  | .watchIdle idx =>
    let p := x.procs idx
    match p.watch, p.state with
    | .watching, .reaped _ => some (x.setProc idx { p with watch := .result none })
    | _, _ => none
  | .reap idx =>
    let p := x.procs idx
    match p.state with
    | .exited status =>
      if p.inWait then some (x.setProc idx { p with state := .reaped status }) else none
    | _ => none

/-- Commands made by `exec.CommandContext` with the `Cancel` of `createCommand`. -/
def osExec : Exec ExecError World ExecAction where
  start idx x :=
    if (x.procs idx).state ≠ .unstarted then (some .alreadyStarted, x)
    else if x.ctxDone then (some .ctx, x)
    else
      match x.startErr idx with
      | some err => (some err, x)
      | none => (none, x.setProc idx { state := .running, watch := .watching })
  enterWait idx x := x.setProc idx { x.procs idx with inWait := true }
  waitResult idx x :=
    match (x.procs idx).state, (x.procs idx).watch with
    | .reaped status, .result err => some (waitError status err (x.copyErr idx))
    | _, _ => none
  close idx stream x := (x.closeErr idx stream, x)
  cancel x := { x with ctxDone := true }
  background := execBackground

/-- No command is started yet. -/
def World.fresh (startErr copyErr : Nat → Option ExecError)
    (closeErr : Nat → Stream → Option ExecError) : World where
  procs := fun _ => {}
  ctxDone := false
  startErr := startErr
  copyErr := copyErr
  closeErr := closeErr

/-! ## What `Wait` returns -/

theorem setProc_self (x : World) (idx : Nat) (p : Proc) : (x.setProc idx p).procs idx = p :=
  if_pos rfl

theorem setProc_of_ne (x : World) {idx i : Nat} (p : Proc) (h : i ≠ idx) :
    (x.setProc idx p).procs i = x.procs i := if_neg h

/-- The watcher has an error for `Wait` exactly if `Cancel` returned nil. -/
def Proc.WatchOk (p : Proc) : Prop :=
  match p.watch with
  | .off | .watching => p.signalled = false
  | .result err => err = if p.signalled then some .ctxErr else none

/-- Every watcher is right, and the copying goes as it was to go. -/
def WatchInv (copyErr : Nat → Option ExecError) (x : World) : Prop :=
  x.copyErr = copyErr ∧ ∀ i, (x.procs i).WatchOk

/-- A command that is watched as it should be keeps the invariant. -/
theorem WatchInv.setProc {copyErr : Nat → Option ExecError} {x : World} (h : WatchInv copyErr x)
    {idx : Nat} {p : Proc} (hp : p.WatchOk) : WatchInv copyErr (x.setProc idx p) := by
  refine ⟨h.1, fun i => ?_⟩
  by_cases hi : i = idx
  · subst hi
    rw [setProc_self]
    exact hp
  · rw [setProc_of_ne x p hi]
    exact h.2 i

/-- The exit of a command that was waited for, and what its `Wait` returned. -/
def WaitedFor (copyErr : Option ExecError) (i : Nat) (err : Option (WaitError ExecError))
    (x : World) : Prop :=
  ∃ status watch, (x.procs i).state = .reaped status ∧ (x.procs i).watch = .result watch ∧
    err = waitError status watch copyErr

/-- A watcher that ends without having called `Cancel` has no error. -/
theorem Proc.WatchOk.idle {p : Proc} (h : p.WatchOk) (hw : p.watch = .watching) :
    Proc.WatchOk { p with watch := .result none } := by
  unfold Proc.WatchOk at h ⊢
  rw [hw] at h
  simp only [h]
  rfl

/-- Every call of `os/exec` keeps it. -/
theorem osExec_watchInv (copyErr : Nat → Option ExecError) :
    Stable osExec (WatchInv copyErr) where
  start := by
    intro idx x hx
    simp only [osExec]
    split
    · exact hx
    · split
      · exact hx
      · split
        · exact hx
        · exact hx.setProc rfl
  enterWait := by
    intro idx x hx
    exact hx.setProc (hx.2 idx)
  close := by
    intro i stream x hx
    exact hx
  cancel := by
    intro x hx
    exact hx
  background := by
    intro a x y hstep hx
    cases a with
    | exit idx status =>
      simp only [osExec, execBackground] at hstep
      split at hstep
      · obtain rfl := Option.some.inj hstep
        exact hx.setProc (hx.2 idx)
      · cases hstep
    | interrupt =>
      obtain rfl := Option.some.inj hstep
      exact hx
    | watchCancel idx =>
      simp only [osExec, execBackground] at hstep
      split at hstep
      next hw =>
        split at hstep
        · split at hstep <;> obtain rfl := Option.some.inj hstep
          · exact hx.setProc ((hx.2 idx).idle hw)
          · exact hx.setProc rfl
        · cases hstep
      · cases hstep
    | watchIdle idx =>
      simp only [osExec, execBackground] at hstep
      split at hstep
      next hw _ =>
        obtain rfl := Option.some.inj hstep
        exact hx.setProc ((hx.2 idx).idle hw)
      · cases hstep
    | reap idx =>
      simp only [osExec, execBackground] at hstep
      split at hstep
      · split at hstep
        · obtain rfl := Option.some.inj hstep
          exact hx.setProc (hx.2 idx)
        · cases hstep
      · cases hstep

/-- Nothing changes a reaped process with a finished watcher, except that `Wait`
is entered on it. -/
theorem WaitedFor.setProc {copyErr : Option ExecError} {i : Nat}
    {err : Option (WaitError ExecError)} {x : World} (h : WaitedFor copyErr i err x) {idx : Nat}
    {p : Proc} (hp : i = idx → p.state = (x.procs idx).state ∧ p.watch = (x.procs idx).watch) :
    WaitedFor copyErr i err (x.setProc idx p) := by
  obtain ⟨status, watch, hs, hw, he⟩ := h
  by_cases hi : i = idx
  · obtain ⟨hps, hpw⟩ := hp hi
    subst hi
    exact ⟨status, watch, by rw [setProc_self, hps, hs], by rw [setProc_self, hpw, hw], he⟩
  · exact ⟨status, watch, by rw [setProc_of_ne x p hi, hs], by rw [setProc_of_ne x p hi, hw], he⟩

/-- What `Wait` has given for a command is not changed by anything later. -/
theorem osExec_waitedFor (copyErr : Option ExecError) (i : Nat)
    (err : Option (WaitError ExecError)) : Stable osExec (WaitedFor copyErr i err) where
  start := by
    intro idx x hx
    simp only [osExec]
    split
    · exact hx
    next hun =>
      split
      · exact hx
      · split
        · exact hx
        · refine hx.setProc fun hi => ?_
          obtain ⟨status, watch, hs, -⟩ := id hx
          rw [← hi, hs] at hun
          simp at hun
  enterWait := by
    intro idx x hx
    exact hx.setProc fun _ => ⟨rfl, rfl⟩
  close := by
    intro idx stream x hx
    exact hx
  cancel := by
    intro x hx
    exact hx
  background := by
    intro a x y hstep hx
    obtain ⟨status, watch, hs, hw, -⟩ := id hx
    cases a with
    | interrupt =>
      obtain rfl := Option.some.inj hstep
      exact hx
    | exit idx _ | watchCancel idx | watchIdle idx | reap idx =>
      by_cases hi : i = idx
      · -- the process is reaped and its watcher is through
        subst hi
        simp [osExec, execBackground, hs, hw] at hstep
      · simp only [osExec, execBackground] at hstep
        repeat' split at hstep
        all_goals first
          | obtain rfl := Option.some.inj hstep
            exact hx.setProc fun h => absurd h hi
          | cases hstep

/-! ## The payoff -/

/-- Exits that `didExitGracefully` is to accept: 0, 143, and the end by SIGTERM. -/
def Benign (status : WaitStatus) : Prop :=
  status = .exited 0 ∨ status = .exited 143 ∨ status = .signaled sigterm

/-- A benign exit is misjudged exactly if the watcher's error replaces exit code 0. -/
theorem waitError_graceful_iff {status : WaitStatus} (hb : Benign status)
    (watch : Option (WaitError ExecError)) (hwatch : ∀ err, watch = some err → err = .ctxErr) :
    didExitGracefully (waitError status watch none) = false ↔
      status = .exited 0 ∧ watch ≠ none := by
  rcases hb with rfl | rfl | rfl
  · cases watch with
    | none => simp [waitError, didExitGracefully]
    | some err =>
      obtain rfl := hwatch err rfl
      simp [waitError, didExitGracefully]
  · simp [waitError, didExitGracefully, WaitStatus.exitCode]
  · simp [waitError, didExitGracefully, WaitStatus.exitCode, WaitStatus.signal]

/-- **When a benign exit is reported.** In any run, once `RunCommands` has returned:
a started command that exited with 0 or 143 or was killed by SIGTERM, and whose
output was copied, contributes no `commandError`, if and only if it is not one that
exited with 0 and had been sent the SIGTERM of `Cancel` before it was reaped. -/
theorem command_unreported_iff (cmds : List Command) (startErr copyErr : Nat → Option ExecError)
    (closeErr : Nat → Stream → Option ExecError) (s : State ExecError World)
    (hs : (runCommands osExec cmds (.fresh startErr copyErr closeErr)).Reachable s)
    (result : Option (RunErr ExecError)) (hm : s.main = .returned result)
    (i : Nat) (hi : .started i ∈ s.trace) (status : WaitStatus)
    (hexit : (s.world.procs i).state = .reaped status) (hb : Benign status)
    (hcopy : copyErr i = none) :
    (∀ err, .command i err ∉ Error.leavesOf result) ↔
      ¬ (status = .exited 0 ∧ (s.world.procs i).signalled = true) := by
  have h := reachable_inv hs
  obtain ⟨err, hwaited⟩ := waited_of_returned h hm hi
  have hinit : WatchInv copyErr (.fresh startErr copyErr closeErr) := ⟨rfl, fun _ => rfl⟩
  have hinv := (osExec_watchInv copyErr).reachable hinit hs
  -- the result of its `Wait`, from the exit and the watcher
  have hres : ∀ err, .waited i err ∈ s.trace → WaitedFor (copyErr i) i err s.world := by
    intro err he
    refine Stable.waited (Q := fun i => WaitedFor (copyErr i) i)
      (fun i err => osExec_waitedFor (copyErr i) i err) (osExec_watchInv copyErr) hinit ?_ hs he
    intro i err y hy hr
    simp only [osExec] at hr
    split at hr
    next status watch hst hw =>
      obtain rfl := Option.some.inj hr
      exact ⟨status, watch, hst, hw, by rw [hy.1]⟩
    · cases hr
  have hjudged : ∀ err, .waited i err ∈ s.trace → (didExitGracefully err = false ↔
      status = .exited 0 ∧ (s.world.procs i).signalled = true) := by
    intro err he
    obtain ⟨status', watch, hst, hw, rfl⟩ := hres err he
    obtain rfl : status' = status := by simpa [hexit] using hst.symm
    have hok := hinv.2 i
    rw [Proc.WatchOk, hw] at hok
    have hok' : watch = if (s.world.procs i).signalled = true then some .ctxErr else none := hok
    rw [hcopy, waitError_graceful_iff hb watch]
    · by_cases hsig : (s.world.procs i).signalled = true <;> simp [hok', hsig]
    · intro err' herr'
      rw [hok'] at herr'
      split at herr'
      · exact (Option.some.inj herr').symm
      · cases herr'
  have hmem := (returned_members h hm).2
  constructor
  · intro hnone hbad
    exact hnone err ((hmem _).mpr ⟨hwaited, (hjudged err hwaited).mpr hbad⟩)
  · intro hgood err' he
    obtain ⟨hw, hg⟩ := (hmem _).mp he
    exact hgood ((hjudged err' hw).mp hg)

/-- No benign exit is reported, as long as its output could be copied and its
writers closed. -/
def NeverMisjudged (s : State ExecError World) : Prop :=
  ∀ result, s.main = .returned result → ∀ i status, .started i ∈ s.trace →
    (s.world.procs i).state = .reaped status → Benign status → s.world.copyErr i = none →
      (∀ stream, s.world.closeErr i stream = none) →
        ∀ err, .command i err ∉ Error.leavesOf result

/-- A world without errors of its own. -/
def World.calm : World := .fresh (fun _ => none) (fun _ => none) fun _ _ => none

/-- One command whose streams are all to be closed. -/
def oneCommand : List Command := [⟨fun _ => true⟩]

/-- A command that exits with 0 and is reaped before anybody cancels. -/
theorem command_unreported_iff_exit : ∃ s : State ExecError World,
    (runCommands osExec oneCommand .calm).Reachable s ∧ s.main = .returned none ∧
      (s.world.procs 0).state = .reaped (.exited 0) ∧
      ((∀ err, .command 0 err ∉ Error.leavesOf (none : Option (RunErr ExecError))) ↔
        ¬ (WaitStatus.exited 0 = .exited 0 ∧ (s.world.procs 0).signalled = true)) := by
  have hrun : System.runActions (act osExec oneCommand)
      [.main, .main, .main, .main, .waiter 0, .background (.exit 0 (.exited 0)),
        .background (.reap 0), .background (.watchIdle 0), .waiter 0, .receive 0, .main, .main,
        .main, .main] (initial oneCommand .calm) = some _ := rfl
  have hreach : (runCommands osExec oneCommand .calm).Reachable _ :=
    System.reachable_of_runActions (.start rfl) hrun
  exact ⟨_, hreach, rfl, rfl, command_unreported_iff oneCommand (fun _ => none) (fun _ => none)
    (fun _ _ => none) _ hreach none rfl 0 (List.mem_cons_self ..) (.exited 0) rfl (Or.inl rfl) rfl⟩

/-- The supervisor is interrupted, `Cancel` sends SIGTERM, and the command traps it
and exits with 0: it is reported, with the context's error. -/
theorem command_trapping_sigterm :
    ¬ ∀ s, (runCommands osExec oneCommand .calm).Reachable s → NeverMisjudged s := by
  intro h
  have hrun : System.runActions (act osExec oneCommand)
      [.main, .main, .main, .main, .background .interrupt, .background (.watchCancel 0),
        .background (.exit 0 (.exited 0)), .waiter 0, .background (.reap 0), .waiter 0, .receive 0,
        .main, .main, .main, .main] (initial oneCommand .calm) = some _ := rfl
  have hreach : (runCommands osExec oneCommand .calm).Reachable _ :=
    System.reachable_of_runActions (.start rfl) hrun
  refine h _ hreach (some (.join (.join (.leaf (.command 0 (some .ctxErr))) []) [])) rfl 0
    (.exited 0)
    (List.mem_cons_self ..) rfl (Or.inl rfl) rfl (fun _ => rfl) (some .ctxErr) ?_
  simp [Error.leavesOf, Error.leaves]

end ShouldIAsync.EventLoop
