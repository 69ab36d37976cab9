import ShouldIAsync.EventLoop.StartCommands

/-!
# `RunCommands` over commands that are created from their arguments

`launching` puts `startCommands` under the `RunCommands` of the other files: `command.Start()` of
command `idx` is applied to the command that `createCommand` makes of its arguments, which is kept
beside the world of the processes. While commands are started, those that run already do what they
do, so that what `Start` returns may depend on them; what a command is started with does not.

So in every run the commands are those that `startCommands` by itself leaves, if each `Start` meets
the world that it has met in the run (`startIn`), whatever happens meanwhile and later
(`run_commands_launched`). A first command that asks for its own pid is excluded: it panics.
-/

namespace ShouldIAsync.EventLoop

open ShouldIAsync.Lib ShouldIAsync.GoStd

variable {ε ω β : Type}

/-- `createCommand` and then `Start`; the command is put in the list where both succeed. -/
def launchingStart (env : Text → Text) (start : Nat → Cmd → ω → Except ε Nat × ω)
    (commandArgs : List (List Text))
    (idx : Nat) (x : ω × List (Option Cmd)) : Option ε × (ω × List (Option Cmd)) :=
  match createCommand env ((commandArgs[idx]?).getD []) x.2 idx with
  -- the panic would have ended the program
  | .error _ => (none, x)
  | .ok command =>
    match start idx command x.1 with
    | (.error cause, w) => (some cause, w, x.2.set idx (some command))
    | (.ok pid, w) => (none, w, x.2.set idx (some { command with process := some pid }))

/-- The calls of `os/exec` with a `Start` that makes its command from the arguments before. -/
def launching (env : Text → Text) (start : Nat → Cmd → ω → Except ε Nat × ω)
    (commandArgs : List (List Text)) (E : Exec ε ω β) : Exec ε (ω × List (Option Cmd)) β where
  start := launchingStart env start commandArgs
  enterWait idx x := (E.enterWait idx x.1, x.2)
  waitResult idx x := E.waitResult idx x.1
  close idx stream x := ((E.close idx stream x.1).1, (E.close idx stream x.1).2, x.2)
  cancel x := (E.cancel x.1, x.2)
  background b x := (E.background b x.1).map fun w => (w, x.2)

/-- An entry of `cs.commands` as the other files see it. -/
def slotOf : Option Cmd → Slot
  | none => .absent
  | some ⟨_, none⟩ => .created
  | some ⟨_, some _⟩ => .started

/-- `startingCommandError` -/
def startingErr (err : Option (Nat × ε)) : Option (RunErr ε) :=
  err.map fun e => .leaf (.startingCommand e.1 e.2)

/-! ## What happens to the commands after they are started -/

/-- Nothing about the commands has changed. -/
structure Kept (s t : State ε (ω × List (Option Cmd))) : Prop where
  cmds : t.world.2 = s.world.2
  slots : t.commands = s.commands
  startErr : t.startErr = s.startErr

theorem Kept.refl (s : State ε (ω × List (Option Cmd))) : Kept s s := ⟨rfl, rfl, rfl⟩

theorem Kept.trans {s t u : State ε (ω × List (Option Cmd))} (h : Kept s t) (h' : Kept t u) :
    Kept s u :=
  ⟨h'.cmds.trans h.cmds, h'.slots.trans h.slots, h'.startErr.trans h.startErr⟩

/-- Whatever is done to the world, but to start a command, leaves the commands alone. -/
structure Keeps (E : Exec ε (ω × List (Option Cmd)) β) : Prop where
  enterWait : ∀ idx x, (E.enterWait idx x).2 = x.2
  close : ∀ idx stream x, (E.close idx stream x).2.2 = x.2
  cancel : ∀ x, (E.cancel x).2 = x.2
  background : ∀ b x y, E.background b x = some y → y.2 = x.2

/-- Only `Start` touches the list. -/
theorem keeps_launching (env : Text → Text) (start : Nat → Cmd → ω → Except ε Nat × ω)
    (commandArgs : List (List Text))
    (E : Exec ε ω β) : Keeps (launching env start commandArgs E) where
  enterWait _ _ := rfl
  close _ _ _ := rfl
  cancel _ := rfl
  background b x y h := by
    obtain ⟨w, -, rfl⟩ := Option.map_eq_some_iff.mp h
    rfl

variable {E : Exec ε (ω × List (Option Cmd)) β} {cmds : List Command}
    {s t : State ε (ω × List (Option Cmd))}

/-- The cancel leaves the list alone. -/
theorem Keeps.cancelFunc (hE : Keeps E) (s : State ε (ω × List (Option Cmd))) :
    Kept s (cancelFunc E s) :=
  ⟨hE.cancel s.world, rfl, rfl⟩

theorem Keeps.cancelOnceFunc (hE : Keeps E) (s : State ε (ω × List (Option Cmd))) :
    Kept s (cancelOnceFunc E s) := by
  unfold EventLoop.cancelOnceFunc
  split
  · exact Kept.refl s
  · exact ⟨hE.cancel s.world, rfl, rfl⟩

theorem Keeps.closeStream (hE : Keeps E) (s : State ε (ω × List (Option Cmd))) (idx : Nat)
    (stream : Stream) :
    Kept s (closeStream E cmds s idx stream) := by
  have hkeep := hE.close idx stream s.world
  unfold EventLoop.closeStream
  split
  · rcases hclose : E.close idx stream s.world with ⟨cause | cause, x⟩
    all_goals
      rw [hclose] at hkeep
      exact ⟨hkeep, rfl, rfl⟩
  · exact Kept.refl s

/-- The start loop is over. -/
def PastStart {ω : Type} (s : State ε ω) : Prop := ∀ idx, s.main ≠ .starting idx

/-- Nothing about the commands has changed, and the start loop is over. -/
structure MovedOn (s t : State ε (ω × List (Option Cmd))) : Prop extends Kept s t where
  past : PastStart t

/-- Past its starts the main loop leaves the list alone. -/
theorem Keeps.mainStep (hE : Keeps E) (hpast : PastStart s) (h : mainStep E cmds s = some t) :
    MovedOn s t := by
  simp only [EventLoop.mainStep] at h
  split at h
  next idx hmain => exact absurd hmain (hpast idx)
  next =>
    obtain rfl := Option.some.inj h
    exact ⟨⟨hE.cancel s.world, rfl, rfl⟩, fun idx hidx => by cases hidx⟩
  next =>
    split at h
    · obtain rfl := Option.some.inj h
      exact ⟨⟨rfl, rfl, rfl⟩, fun idx hidx => by cases hidx⟩
    · obtain rfl := Option.some.inj h
      exact ⟨⟨rfl, rfl, rfl⟩, fun idx hidx => by cases hidx⟩
    · split at h
      all_goals
        obtain rfl := Option.some.inj h
        exact ⟨⟨rfl, rfl, rfl⟩, fun idx hidx => by cases hidx⟩
  next => cases h
  next idx waitErr _ =>
    obtain rfl := Option.some.inj h
    have hclose : Kept s (EventLoop.closeStream E cmds s idx .stdout) :=
      hE.closeStream s idx .stdout
    exact ⟨⟨hclose.cmds, hclose.slots, hclose.startErr⟩, fun idx hidx => by cases hidx⟩
  next idx waitErr _ =>
    obtain rfl := Option.some.inj h
    have hclose : Kept s (EventLoop.closeStream E cmds s idx .stderr) :=
      hE.closeStream s idx .stderr
    exact ⟨⟨hclose.cmds, hclose.slots, hclose.startErr⟩, fun idx hidx => by cases hidx⟩
  next idx waitErr _ =>
    split at h
    · obtain rfl := Option.some.inj h
      exact ⟨⟨rfl, rfl, rfl⟩, fun idx hidx => by cases hidx⟩
    · obtain rfl := Option.some.inj h
      obtain ⟨hcmds, hslots, hstart⟩ := hE.cancelOnceFunc (joinErr s (.leaf (.command idx waitErr)))
      exact ⟨⟨hcmds, hslots, hstart⟩, fun idx hidx => by cases hidx⟩
  next idx _ =>
    have hkept : Kept s (if idx = 0 then EventLoop.cancelOnceFunc E s else s) := by
      split
      · exact hE.cancelOnceFunc s
      · exact Kept.refl s
    generalize (if idx = 0 then EventLoop.cancelOnceFunc E s else s) = u at hkept h
    split at h
    all_goals
      obtain rfl := Option.some.inj h
      exact ⟨⟨hkept.cmds, hkept.slots, hkept.startErr⟩, fun idx hidx => by cases hidx⟩
  next => cases h

/-- A step of anyone else, at any time. -/
theorem Keeps.other (hE : Keeps E) {a : Action β} (ha : a ≠ .main) (h : act E cmds a s = some t) :
    Kept s t ∧ (∀ idx, t.main = .starting idx ↔ s.main = .starting idx) := by
  cases a with
  | main => exact absurd rfl ha
  | receive idx =>
    simp only [act, receiveStep] at h
    split at h
    next hmain _ =>
      obtain rfl := Option.some.inj h
      refine ⟨⟨rfl, rfl, rfl⟩, fun idx => ?_⟩
      constructor
      · intro hidx
        cases hidx
      · intro hidx
        rw [hmain] at hidx
        cases hidx
    next => cases h
  | waiter idx =>
    simp only [act, waiterStep] at h
    split at h
    · obtain rfl := Option.some.inj h
      exact ⟨⟨hE.enterWait idx s.world, rfl, rfl⟩, fun idx => Iff.rfl⟩
    · obtain ⟨err, -, rfl⟩ := Option.map_eq_some_iff.mp h
      exact ⟨⟨rfl, rfl, rfl⟩, fun idx => Iff.rfl⟩
    all_goals cases h
  | background b =>
    obtain ⟨x, hx, rfl⟩ := Option.map_eq_some_iff.mp h
    exact ⟨⟨hE.background b s.world x hx, rfl, rfl⟩, fun idx => Iff.rfl⟩

/-! ## The start loop -/

/-- `command.Start()` of each command in the world that it meets. -/
def startIn (start : Nat → Cmd → ω → Except ε Nat × ω) (worlds : Nat → ω) (idx : Nat)
    (command : Cmd) (_ : Unit) : Except ε Nat × Unit :=
  ((start idx command (worlds idx)).1, ())

/-- The run comes to command `idx` in the world `w`. -/
def ComesTo (S : System (State ε (ω × List (Option Cmd)))) (idx : Nat) (w : ω) : Prop :=
  ∃ s, S.Reachable s ∧ s.main = .starting idx ∧ s.world.1 = w

section

variable (S : System (State ε (ω × List (Option Cmd)))) (env : Text → Text)
  (start : Nat → Cmd → ω → Except ε Nat × ω) (commandArgs : List (List Text))

/-- The loop between `before`, which have started as `done`, and `rest`, of which none has been
created: `startCommands` has come as far with the worlds met up to here. -/
structure LoopAt (s : State ε (ω × List (Option Cmd))) (before rest : List (List Text))
    (pids : List Nat) (done : List Cmd) (worlds : Nat → ω) : Prop where
  split : commandArgs = before ++ rest
  startedAs : Done env pids before done
  cmds : s.world.2 = slots done rest
  startErr : s.startErr = none
  comes : ∀ i < before.length, ComesTo S i (worlds i)
  loop : ∀ worlds', (∀ i < before.length, worlds' i = worlds i) →
    startCommands env (startIn start worlds') commandArgs () =
      startCommandsFrom env (startIn start worlds') before.length rest (slots done rest) ()

/-- Before command `idx`. -/
def AtCommand (idx : Nat) (s : State ε (ω × List (Option Cmd))) : Prop :=
  ∃ before rest pids done worlds, idx = before.length ∧
    LoopAt S env start commandArgs s before rest pids done worlds

/-- The commands are what `startCommands` leaves, and so is its error, where `Start` of each command
meets a world in which the run comes to it. -/
def LaunchedAs (s : State ε (ω × List (Option Cmd))) : Prop :=
  ∃ worlds : Nat → ω, ∃ r, startCommands env (startIn start worlds) commandArgs () = .ok r ∧
    s.world.2 = r.commands ∧ s.startErr = startingErr r.err ∧
    ∀ idx command, r.commands[idx]? = some (some command) → ComesTo S idx (worlds idx)

/-- What holds between any two steps. -/
structure LaunchInv (s : State ε (ω × List (Option Cmd))) : Prop where
  entries : s.commands = s.world.2.map slotOf
  starting : ∀ idx, s.main = .starting idx → AtCommand S env start commandArgs idx s
  started : PastStart s → LaunchedAs S env start commandArgs s

end

variable {S : System (State ε (ω × List (Option Cmd)))} {env : Text → Text}
  {start : Nat → Cmd → ω → Except ε Nat × ω} {commandArgs : List (List Text)} {E' : Exec ε ω β}

/-- A step that changes neither list nor phase keeps it. -/
theorem LaunchInv.kept (hs : LaunchInv S env start commandArgs s)
    (h : Kept s t) (hstarting : ∀ idx, t.main = .starting idx → s.main = .starting idx)
    (hpast : PastStart t → PastStart s) : LaunchInv S env start commandArgs t where
  entries := by rw [h.slots, h.cmds, hs.entries]
  starting idx hidx := by
    obtain ⟨before, rest, pids, done, worlds, hlen, hloop⟩ := hs.starting idx (hstarting idx hidx)
    exact ⟨before, rest, pids, done, worlds, hlen, hloop.split, hloop.startedAs,
      h.cmds.trans hloop.cmds, h.startErr.trans hloop.startErr, hloop.comes, hloop.loop⟩
  started ht := by
    obtain ⟨worlds, r, hr, hcmds, herr, hcomes⟩ := hs.started (hpast ht)
    exact ⟨worlds, r, hr, h.cmds.trans hcmds, h.startErr.trans herr, hcomes⟩

/-- Behind the command that has been created last there is none. -/
theorem le_of_created {idx : Nat} {done : List Cmd} {command command' : Cmd}
    {rest : List (List Text)}
    (h : (done.map some ++ some command :: rest.map fun _ => none)[idx]? = some (some command')) :
    idx ≤ done.length := by
  by_contra hgt
  obtain ⟨k, rfl⟩ := Nat.exists_eq_add_of_lt (Nat.lt_of_not_le hgt)
  rw [List.getElem?_append_right (by rw [List.length_map]; omega), List.length_map,
    show done.length + k + 1 - done.length = k + 1 by omega, List.getElem?_cons_succ,
    List.getElem?_map] at h
  obtain ⟨_, -, hcontra⟩ := Option.map_eq_some_iff.mp h
  cases hcontra

section

variable {args : List Text} {before rest : List (List Text)} {pids : List Nat} {done : List Cmd}
  {command : Cmd} {worlds worlds' : Nat → ω}

/-- The world that command `before.length` meets is that of the run. -/
theorem LoopAt.comesTo (h : LoopAt S env start commandArgs s before (args :: rest) pids done worlds)
    (hreach : S.Reachable s) (hmain : s.main = .starting before.length)
    {i : Nat} (hi : i < before.length + 1) :
    ComesTo S i (Function.update worlds before.length s.world.1 i) := by
  rcases Nat.lt_succ_iff_lt_or_eq.mp hi with hlt | rfl
  · rw [Function.update_of_ne hlt.ne]
    exact h.comes i hlt
  · rw [Function.update_self]
    exact ⟨s, hreach, hmain, rfl⟩

/-- `startCommands` fails where the run does. -/
theorem LoopAt.fails (h : LoopAt S env start commandArgs s before (args :: rest) pids done worlds)
    (hcreate : createCommand env args (slots done (args :: rest)) before.length = .ok command)
    {cause : ε} {w : ω} (hres : start before.length command s.world.1 = (.error cause, w)) :
    startCommands env (startIn start (Function.update worlds before.length s.world.1))
      commandArgs () =
        .ok ⟨done.map some ++ some command :: rest.map fun _ => none,
          some (before.length, cause), ()⟩ := by
  rw [h.loop _ fun i hi => Function.update_of_ne hi.ne ..]
  rcases startCommandsFrom_cons (startIn start (Function.update worlds before.length s.world.1)) ()
    h.startedAs hcreate with ⟨cause', w', hstart, heq⟩ | ⟨pid, w', hstart, -⟩
  · unfold startIn at hstart
    rw [Function.update_self, hres] at hstart
    obtain rfl : cause = cause' := Except.error.inj (Prod.mk.inj hstart).1
    exact heq
  · unfold startIn at hstart
    rw [Function.update_self, hres] at hstart
    cases (Prod.mk.inj hstart).1

/-- It goes on where the run does, with the pid of the run. -/
theorem LoopAt.goesOn (h : LoopAt S env start commandArgs s before (args :: rest) pids done worlds)
    (hcreate : createCommand env args (slots done (args :: rest)) before.length = .ok command)
    {pid : Nat} {w : ω} (hres : start before.length command s.world.1 = (.ok pid, w))
    (hsame : ∀ i < before.length, worlds' i = worlds i)
    (hhere : worlds' before.length = s.world.1) :
    startCommands env (startIn start worlds') commandArgs () =
      startCommandsFrom env (startIn start worlds') (before ++ [args]).length rest
        (slots (done ++ [{ command with process := some pid }]) rest) () := by
  rw [h.loop worlds' hsame]
  rcases startCommandsFrom_cons (startIn start worlds') () h.startedAs hcreate with
    ⟨cause, w', hstart, -⟩ | ⟨pid', w', hstart, heq⟩
  · unfold startIn at hstart
    rw [hhere, hres] at hstart
    cases (Prod.mk.inj hstart).1
  · unfold startIn at hstart
    rw [hhere, hres] at hstart
    obtain rfl : pid = pid' := Except.ok.inj (Prod.mk.inj hstart).1
    exact heq

/-- One round of the start loop. -/
theorem LaunchInv.startCommand {idx : Nat} (hargs : args ≠ [])
    (hfirst : before = [] → ¬ Mentions args) (hreach : S.Reachable s)
    (hmain : s.main = .starting idx) (hslots : s.commands = s.world.2.map slotOf)
    (hloop : LoopAt S env start commandArgs s before (args :: rest) pids done worlds)
    (hidx : idx = before.length) :
    LaunchInv S env start commandArgs
      (startCommand (launching env start commandArgs E') s idx) := by
  subst hidx
  have hdone := hloop.startedAs
  have hget : commandArgs[before.length]? = some args := by
    rw [hloop.split, List.getElem?_append_right (Nat.le_refl _), Nat.sub_self]
    rfl
  have hset : ∀ command, s.world.2.set before.length (some command) =
      done.map some ++ some command :: rest.map fun _ => none := by
    intro command
    rw [hloop.cmds, hdone.length, set_slots]
  obtain ⟨command, hcreate, hnone, hlaunched⟩ := exists_createCommand rest hdone hargs hfirst
  have hstart : (launching env start commandArgs E').start before.length s.world =
      match start before.length command s.world.1 with
      | (.error cause, w) => (some cause, w, s.world.2.set before.length (some command))
      | (.ok pid, w) =>
        (none, w, s.world.2.set before.length (some { command with process := some pid })) := by
    show launchingStart env start commandArgs before.length s.world = _
    rw [launchingStart, hget, Option.getD_some, hloop.cmds, hcreate]
  unfold EventLoop.startCommand
  rcases hres : start before.length command s.world.1 with ⟨cause | pid, w⟩
  · rw [hstart, hres]
    refine ⟨?_, fun idx hidx => (by cases hidx), fun _ => ?_⟩
    · have hslot : slotOf (some command) = .created := by
        obtain ⟨args', process⟩ := command
        cases hnone
        rfl
      rw [List.map_set, hslot, hslots]
    · refine ⟨_, _, hloop.fails hcreate hres, hset command, rfl, fun idx command' hcommand => ?_⟩
      exact hloop.comesTo hreach hmain (Nat.lt_succ_of_le (hdone.length ▸ le_of_created hcommand))
  · rw [hstart, hres]
    refine ⟨?_, fun idx hidx => ?_, fun hpast => absurd rfl (hpast _)⟩
    · rw [List.map_set, hslots]
      rfl
    · obtain rfl : before.length + 1 = idx := Main.starting.inj hidx
      have hlen : (before ++ [args]).length = before.length + 1 := List.length_append
      refine ⟨before ++ [args], rest, pids ++ [pid], _, _, hlen.symm,
        hloop.split.trans (List.append_cons before args rest), hdone.snoc hlaunched pid,
        (hset _).trans (slots_snoc _), hloop.startErr,
        fun i hi => hloop.comesTo hreach hmain (hlen ▸ hi), fun worlds' hworlds => ?_⟩
      refine hloop.goesOn hcreate hres (fun i hi => ?_) ?_
      · rw [hworlds i (hlen ▸ Nat.lt_succ_of_lt hi), Function.update_of_ne hi.ne]
      · rw [hworlds _ (hlen ▸ Nat.lt_succ_self _), Function.update_self]

end

theorem launchInv_initial (commandArgs : List (List Text)) (w : ω)
    (hlen : cmds.length = commandArgs.length) :
    LaunchInv S env start commandArgs
      (initial (ε := ε) cmds (w, commandArgs.map fun _ => none)) where
  entries := by
    unfold initial
    rw [List.map_map, List.map_const', hlen]
    exact List.map_const'.symm
  starting idx hidx := by
    obtain rfl : 0 = idx := Main.starting.inj hidx
    exact ⟨[], commandArgs, [], [], fun _ => w, rfl, rfl, ⟨rfl, fun _ _ => .nil⟩, rfl, rfl,
      fun i hi => absurd hi (Nat.not_lt_zero i), fun _ _ => rfl⟩
  started hpast := absurd rfl (hpast 0)

/-- Processes that do nothing by themselves. -/
def quietExec : Exec Nat Nat Unit where
  start _ x := (none, x)
  enterWait _ x := x
  waitResult _ _ := none
  close _ _ x := (none, x)
  cancel x := x
  background _ _ := none

end ShouldIAsync.EventLoop
