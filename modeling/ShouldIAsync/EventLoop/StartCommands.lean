import ShouldIAsync.EventLoop.Command
import ShouldIAsync.GoStd.Expand
import Mathlib.Data.List.Forall2

/-!
# `startCommands`: what the commands are started with

The arguments of a command are expanded with the environment, and `CMD1_PID` stands for the pid of
the first command. `expandFunc` takes it from `cs.commands[0].Process`: the first command has none
yet, and panics if it asks for it. Every later command is created only once all before it have
started, so the pid is there; that of a command which `ReadInputCommands` let through is not empty
either. So the first command's `CMD1_PID` is the only panic there is (`start_commands`).

What `RunCommands` is proved to do starts from the commands that are started here
(`run_commands_launched`).
-/

namespace ShouldIAsync.EventLoop

open ShouldIAsync.Lib ShouldIAsync.GoStd

/-- A string is the list of its characters. -/
abbrev Text := List Char

/-- How `createCommand` can panic. -/
inductive Panic
  -- `panic("expanding CMD1_PID in first command")`
  | cmd1Pid
  | nilPointer
  | indexOutOfRange
  deriving DecidableEq

/-- `exec.Cmd`: its `Args`, the first of which is what is run, and the pid of its `Process`. -/
structure Cmd where
  args : List Text
  process : Option Nat
  deriving DecidableEq

/-- `"CMD1_PID"` -/
def cmd1Pid : Text := "CMD1_PID".toList

/-- `strconv.Itoa` -/
def itoa (pid : Nat) : Text := Nat.toDigits 10 pid

/-! ## The input -/

/-- The checks of `ReadInputCommands` from command `idx` on. -/
def checkArgs (idx : Nat) : List (List Text) → Except String Unit
  | [] => .ok ()
  | args :: rest =>
    if args = [] then .error s!"command {idx} json args must not be empty."
      else checkArgs (idx + 1) rest

/-- `ReadInputCommands`, of what the input has been unmarshalled to. -/
def readInputCommands (commandArgs : List (List Text)) : Except String (List (List Text)) :=
  if commandArgs = [] then .error "json args must not be empty. Requires at least one command"
  else (checkArgs 0 commandArgs).map fun _ => commandArgs

/-! ## Creating and starting commands -/

section

variable {ε ω : Type} (env : Text → Text) (start : Nat → Cmd → ω → Except ε Nat × ω)

/-- The function that `os.Expand` is given -/
def expandFunc (commands : List (Option Cmd)) (idx : Nat) (s : Text) : Except Panic Text :=
  if s = cmd1Pid then
    if idx = 0 then .error .cmd1Pid
    else
      match commands.head? with
      | some (some ⟨_, some pid⟩) => .ok (itoa pid)
      | _ => .error .nilPointer
  else .ok (env s)

def createCommand (args : List Text) (commands : List (Option Cmd)) (idx : Nat) :
    Except Panic Cmd :=
  (args.mapM (expand (expandFunc env commands idx))).bind fun expandedArgs =>
    if expandedArgs = [] then .error .indexOutOfRange else .ok ⟨expandedArgs, none⟩

/-- What `startCommands` leaves. -/
structure Starter (ε ω : Type) where
  commands : List (Option Cmd)
  -- the index of `startingCommandError` and its cause
  err : Option (Nat × ε)
  world : ω

/-- The loop of `startCommands` from command `idx` on; `start` is `command.Start()`. -/
def startCommandsFrom : Nat → List (List Text) → List (Option Cmd) → ω → Except Panic (Starter ε ω)
  | _, [], commands, w => .ok ⟨commands, none, w⟩
  | idx, args :: rest, commands, w =>
    (createCommand env args commands idx).bind fun command =>
      match start idx command w with
      | (.error cause, w) => .ok ⟨commands.set idx (some command), some (idx, cause), w⟩
      | (.ok pid, w) =>
        startCommandsFrom (idx + 1) rest
          (commands.set idx (some { command with process := some pid })) w

def startCommands (commandArgs : List (List Text)) (w : ω) : Except Panic (Starter ε ω) :=
  startCommandsFrom env start 0 commandArgs (commandArgs.map fun _ => none) w

end

/-! ## What a command is to be started with -/

/-- The text of a piece of an argument, where `pid` is the pid of the first command. -/
def pieceText (env : Text → Text) (pid : Nat) : Piece → Text
  | .text c => [c]
  | .var name => if name = cmd1Pid then itoa pid else env name

/-- The argument with its variables replaced. -/
def Expands (env : Text → Text) (pid : Nat) (arg text : Text) : Prop :=
  ∃ ps, Reads arg ps ∧ text = ps.flatMap (pieceText env pid)

/-- Some argument asks for the pid of the first command. -/
def Mentions (args : List Text) : Prop := ∃ arg ∈ args, ∃ ps, Reads arg ps ∧ .var cmd1Pid ∈ ps

/-! ## Arguments -/

section

variable {ε α β : Type} {f : α → Except ε β} {l : List α}

/-- Where each element gives something related to it, so does the list. -/
theorem mapM_ok {R : α → β → Prop} (h : ∀ a ∈ l, ∃ b, f a = .ok b ∧ R a b) :
    ∃ bs, l.mapM f = .ok bs ∧ List.Forall₂ R l bs := by
  induction l with
  | nil => exact ⟨[], rfl, .nil⟩
  | cons a l ih =>
    obtain ⟨b, hb, hR⟩ := h a List.mem_cons_self
    obtain ⟨bs, hbs, hall⟩ := ih fun a' ha' => h a' (List.mem_cons_of_mem _ ha')
    refine ⟨b :: bs, ?_, .cons hR hall⟩
    rw [List.mapM_cons, hb, hbs]
    rfl

/-- An error of the list is one of an element. -/
theorem mapM_error {e : ε} (h : l.mapM f = .error e) : ∃ a ∈ l, f a = .error e := by
  induction l with
  | nil => cases h
  | cons a l ih =>
    rw [List.mapM_cons] at h
    cases hb : f a with
    | error e' =>
      rw [hb] at h
      cases h
      exact ⟨a, List.mem_cons_self, hb⟩
    | ok b =>
      cases hbs : l.mapM f with
      | error e' =>
        rw [hb, hbs] at h
        cases h
        obtain ⟨a', ha', herr⟩ := ih hbs
        exact ⟨a', List.mem_cons_of_mem _ ha', herr⟩
      | ok bs =>
        rw [hb, hbs] at h
        cases h

/-- Where the list gives something, each element does. -/
theorem mapM_all {bs : List β} (h : l.mapM f = .ok bs) (a : α) (ha : a ∈ l) : ∃ b, f a = .ok b := by
  induction l generalizing bs with
  | nil => cases ha
  | cons a' l ih =>
    rw [List.mapM_cons] at h
    cases hb : f a' with
    | error e =>
      rw [hb] at h
      cases h
    | ok b =>
      cases hbs : l.mapM f with
      | error e =>
        rw [hb, hbs] at h
        cases h
      | ok bs' =>
        rcases List.mem_cons.mp ha with rfl | ha
        · exact ⟨b, hb⟩
        · exact ih hbs ha

end

variable {env : Text → Text} {commands : List (Option Cmd)} {idx pid : Nat} {args : List Text}
    {command : Cmd}

/-- Pieces all of whose names are known give their texts. -/
theorem values_of_forall {mapping : Text → Except Panic Text} {ps : List Piece}
    (h : ∀ name, .var name ∈ ps → mapping name = .ok (pieceText env pid (.var name))) :
    values mapping ps = .ok (ps.flatMap (pieceText env pid)) := by
  induction ps with
  | nil => rfl
  | cons p ps ih =>
    have hp : p.value mapping = .ok (pieceText env pid p) := by
      cases p with
      | text c => rfl
      | var name => exact h name List.mem_cons_self
    rw [values, hp, ih fun name hname => h name (List.mem_cons_of_mem _ hname)]
    rfl

/-- The pid of the first command, which has started. -/
def FirstPid (commands : List (Option Cmd)) (pid : Nat) : Prop :=
  ∃ args, commands.head? = some (some ⟨args, some pid⟩)

/-- After the first command every name is known. -/
theorem expandFunc_later (hidx : idx ≠ 0) (h : FirstPid commands pid) (name : Text) :
    expandFunc env commands idx name = .ok (pieceText env pid (.var name)) := by
  obtain ⟨args, hhead⟩ := h
  by_cases hname : name = cmd1Pid
  · rw [expandFunc, if_pos hname, if_neg hidx, hhead, pieceText, if_pos hname]
  · rw [expandFunc, if_neg hname, pieceText, if_neg hname]

/-- The arguments of a command for which they expand. -/
def Launched (env : Text → Text) (pid : Nat) (args : List Text) (command : Cmd) : Prop :=
  List.Forall₂ (Expands env pid) args command.args

/-- A command can be created from arguments that can all be expanded. -/
theorem createCommand_ok {R : Text → Text → Prop} (hargs : args ≠ [])
    (h : ∀ arg ∈ args, ∃ text, expand (expandFunc env commands idx) arg = .ok text ∧ R arg text) :
    ∃ command, createCommand env args commands idx = .ok command ∧ command.process = none ∧
      List.Forall₂ R args command.args := by
  obtain ⟨texts, htexts, hall⟩ := mapM_ok h
  refine ⟨⟨texts, none⟩, ?_, rfl, hall⟩
  unfold createCommand
  rw [htexts]
  refine if_neg fun hnil => hargs ?_
  rw [hnil] at hall
  exact List.forall₂_nil_right_iff.mp hall

/-- A later command is created, whatever its arguments ask for. -/
theorem createCommand_later (env : Text → Text) (hidx : idx ≠ 0) (h : FirstPid commands pid)
    (hargs : args ≠ []) :
    ∃ command, createCommand env args commands idx = .ok command ∧ command.process = none ∧
      Launched env pid args command := by
  refine createCommand_ok hargs fun arg _ => ?_
  obtain ⟨ps, hps⟩ := exists_reads arg
  exact ⟨_, (expand_eq hps).trans (values_of_forall fun name _ => expandFunc_later hidx h name), ps,
    hps, rfl⟩

/-- For the first command every name but `CMD1_PID` is known. -/
theorem expandFunc_first {name : Text} (h : name ≠ cmd1Pid) (pid : Nat) :
    expandFunc env commands 0 name = .ok (pieceText env pid (.var name)) := by
  rw [expandFunc, if_neg h, pieceText, if_neg h]

/-- The first command is created if it does not ask for its own pid: which one it has makes no
difference then. -/
theorem createCommand_first (env : Text → Text) (commands : List (Option Cmd))
    (hmentions : ¬ Mentions args) (hargs : args ≠ []) :
    ∃ command, createCommand env args commands 0 = .ok command ∧ command.process = none ∧
      ∀ pid, Launched env pid args command := by
  have hall : ∀ arg ∈ args, ∃ text, expand (expandFunc env commands 0) arg = .ok text ∧
      ∀ pid, Expands env pid arg text := by
    intro arg harg
    obtain ⟨ps, hps⟩ := exists_reads arg
    have hvalues : ∀ pid, values (expandFunc env commands 0) ps =
        .ok (ps.flatMap (pieceText env pid)) := by
      intro pid
      refine values_of_forall fun name hname => expandFunc_first (fun heq => ?_) pid
      exact hmentions ⟨arg, harg, ps, hps, heq ▸ hname⟩
    refine ⟨_, (expand_eq hps).trans (hvalues 0), fun pid => ⟨ps, hps, ?_⟩⟩
    exact Except.ok.inj ((hvalues 0).symm.trans (hvalues pid))
  obtain ⟨command, hcreate, hnone, hargs'⟩ := createCommand_ok hargs hall
  exact ⟨command, hcreate, hnone, fun pid => hargs'.imp fun _ _ h => h pid⟩

/-- `CMD1_PID` in the first command is a panic. -/
theorem createCommand_panic (hmentions : Mentions args) :
    createCommand env args commands 0 = .error .cmd1Pid := by
  obtain ⟨arg, harg, ps, hps, hvar⟩ := hmentions
  have hself : expandFunc env commands 0 cmd1Pid = .error .cmd1Pid := by
    rw [expandFunc, if_pos rfl, if_pos rfl]
  unfold createCommand
  cases hmap : args.mapM (expand (expandFunc env commands 0)) with
  | error panic =>
    obtain ⟨arg', -, herr⟩ := mapM_error hmap
    obtain ⟨ps', hps'⟩ := exists_reads arg'
    obtain ⟨name, -, hname⟩ := exists_var_of_error ((expand_eq hps').symm.trans herr)
    by_cases heq : name = cmd1Pid
    · rw [heq, hself] at hname
      exact congrArg Except.error (Except.error.inj hname).symm
    · rw [expandFunc_first heq 0] at hname
      cases hname
  | ok texts =>
    obtain ⟨text, htext⟩ := mapM_all hmap arg harg
    rw [expand_eq hps] at htext
    obtain ⟨value, hvalue⟩ := values_ok_iff.mp ⟨text, htext⟩ cmd1Pid hvar
    rw [hself] at hvalue
    cases hvalue

/-! ## The loop -/

/-- `first` is the pid of the first command, if it has started. -/
def FirstIs (pids : List Nat) (first : Nat) : Prop := ∀ pid ∈ pids.head?, first = pid

/-- The commands of `before` have been started as `done`, with the pids `pids`. -/
structure Done (env : Text → Text) (pids : List Nat) (before : List (List Text)) (done : List Cmd) :
    Prop where
  process : done.map Cmd.process = pids.map some
  args : ∀ first, FirstIs pids first → List.Forall₂ (Launched env first) before done

section

variable {ε ω : Type} (start : Nat → Cmd → ω → Except ε Nat × ω)

/-- `Start` of the commands one after another, from the world `w` on, has given them these pids. -/
inductive Starts (w : ω) : List Cmd → ω → Prop
  | nil : Starts w [] w
  | snoc {done : List Cmd} {command : Cmd} {pid : Nat} {w' w'' : ω} (hstarts : Starts w done w')
      (hnone : command.process = none) (hstart : start done.length command w' = (.ok pid, w'')) :
      Starts w (done ++ [{ command with process := some pid }]) w''

/-- What `startCommands` leaves: the commands up to the first that could not be started run, each
with its arguments expanded for the pid of the first and with the pid that its `Start` has returned,
and those after it have not been created. -/
inductive StartedAs (env : Text → Text) (pids : List Nat) (w : ω) :
    List (List Text) → Starter ε ω → Prop
  | all {commandArgs : List (List Text)} {done : List Cmd} {w' : ω}
      (hdone : Done env pids commandArgs done) (hstarts : Starts start w done w') :
      StartedAs env pids w commandArgs ⟨done.map some, none, w'⟩
  | failed {before after : List (List Text)} {args : List Text} {done : List Cmd} {command : Cmd}
      {cause : ε} {w' w'' : ω} (hdone : Done env pids before done)
        (hstarts : Starts start w done w')
      (hnone : command.process = none)
      (hargs : ∀ first, FirstIs pids first → Launched env first args command)
      (hfails : start before.length command w' = (.error cause, w'')) :
      StartedAs env pids w (before ++ args :: after)
        ⟨done.map some ++ some command :: after.map fun _ => none, some (before.length, cause), w''⟩

end

variable {ε ω : Type} {start : Nat → Cmd → ω → Except ε Nat × ω} {pids : List Nat}
  {before rest : List (List Text)} {done : List Cmd} {w w' : ω}

/-- There is a command for each list of arguments that is done. -/
theorem Done.length (h : Done env pids before done) : before.length = done.length := by
  obtain ⟨first, hfirst⟩ : ∃ first, FirstIs pids first := by
    cases pids with
    | nil => exact ⟨0, fun pid hpid => by cases hpid⟩
    | cons pid pids => exact ⟨pid, fun pid' hpid => Option.some.inj hpid⟩
  exact (h.args first hfirst).length_eq

/-- One more command has started. -/
theorem Done.snoc (h : Done env pids before done)
    (hargs : ∀ first, FirstIs pids first → Launched env first args command) (pid : Nat) :
    Done env (pids ++ [pid]) (before ++ [args])
      (done ++ [{ command with process := some pid }]) where
  process := by
    rw [List.map_append, List.map_append, h.process]
    rfl
  args first hfirst := by
    have hfirst' : FirstIs pids first := by
      cases pids with
      | nil => exact fun pid hpid => by cases hpid
      | cons pid pids => exact hfirst
    exact List.rel_append (h.args first hfirst') (.cons (hargs first hfirst') .nil)

/-- `cs.commands` when `done` have started and `rest` are to be created. -/
def slots (done : List Cmd) (rest : List (List Text)) : List (Option Cmd) :=
  done.map some ++ rest.map fun _ => none

/-- A command that is started takes the next slot. -/
theorem set_slots (command : Cmd) : (slots done (args :: rest)).set done.length (some command) =
    done.map some ++ some command :: rest.map fun _ => none := by
  unfold slots
  rw [List.set_append_right _ _ (le_of_eq (List.length_map some)), List.length_map, Nat.sub_self]
  rfl

theorem slots_snoc (command : Cmd) :
    (done.map some ++ some command :: rest.map fun _ => none) = slots (done ++ [command]) rest := by
  unfold slots
  rw [List.map_append, List.append_assoc]
  rfl

/-- The command that is created, and started or not. -/
theorem startCommandsFrom_cons (start : Nat → Cmd → ω → Except ε Nat × ω) (w : ω)
    (hdone : Done env pids before done)
    (hcreate : createCommand env args (slots done (args :: rest)) before.length = .ok command) :
    (∃ cause w', start before.length command w = (.error cause, w') ∧
      startCommandsFrom env start before.length (args :: rest) (slots done (args :: rest)) w =
        .ok ⟨done.map some ++ some command :: rest.map fun _ =>
          none, some (before.length, cause), w'⟩) ∨
    ∃ pid w', start before.length command w = (.ok pid, w') ∧
      startCommandsFrom env start before.length (args :: rest) (slots done (args :: rest)) w =
        startCommandsFrom env start (before ++ [args]).length rest
          (slots (done ++ [{ command with process := some pid }]) rest) w' := by
  have hset : ∀ command, (slots done (args :: rest)).set before.length (some command) =
      done.map some ++ some command :: rest.map fun _ => none := fun command =>
        hdone.length ▸ set_slots command
  rw [startCommandsFrom, hcreate]
  rcases hstart : start before.length command w with ⟨cause | pid, w'⟩
  · refine Or.inl ⟨cause, w', rfl, ?_⟩
    rw [Except.bind, hstart, hset]
  · refine Or.inr ⟨pid, w', rfl, ?_⟩
    rw [Except.bind, hstart, ← slots_snoc, ← hset, List.length_append]
    rfl

/-- Once there is a command the first one has the pid that `CMD1_PID` stands for. -/
theorem firstPid_slots (rest : List (List Text)) (hdone : Done env pids before done)
    (hne : done ≠ []) :
    ∃ pid, FirstPid (slots done rest) pid ∧ ∀ first, FirstIs pids first → first = pid := by
  obtain ⟨command, done, rfl⟩ := List.exists_cons_of_ne_nil hne
  have hprocess := hdone.process
  cases pids with
  | nil => cases hprocess
  | cons pid pids =>
    obtain ⟨args, process⟩ := command
    obtain ⟨rfl, -⟩ := List.cons.inj hprocess
    exact ⟨pid, ⟨args, rfl⟩, fun first hfirst => hfirst pid rfl⟩

/-- The next command is created, unless it is the first and asks for its own pid. -/
theorem exists_createCommand (rest : List (List Text)) (hdone : Done env pids before done)
    (hargs : args ≠ []) (hfirst : before = [] → ¬ Mentions args) : ∃ command,
      createCommand env args (slots done (args :: rest)) before.length = .ok command ∧
        command.process = none ∧ ∀ first, FirstIs pids first → Launched env first args command := by
  by_cases hbefore : before = []
  · obtain ⟨command, hcreate, hnone, hlaunched⟩ := createCommand_first env
      (slots done (args :: rest)) (hfirst hbefore) hargs
    refine ⟨command, ?_, hnone, fun first _ => hlaunched first⟩
    rw [hbefore]
    exact hcreate
  · have hidx : before.length ≠ 0 := mt List.eq_nil_of_length_eq_zero hbefore
    have hne : done ≠ [] := by
      rintro rfl
      exact hidx hdone.length
    obtain ⟨pid, hpid, hpids⟩ := firstPid_slots (args :: rest) hdone hne
    obtain ⟨command, hcreate, hnone, hlaunched⟩ := createCommand_later env hidx hpid hargs
    exact ⟨command, hcreate, hnone, fun first h => hpids first h ▸ hlaunched⟩

/-- There is no panic from the first command on that does not ask for its own pid. -/
theorem startCommandsFrom_ok (hdone : Done env pids before done) (hstarts : Starts start w done w')
    (hrest : ∀ args ∈ rest, args ≠ [])
    (hfirst : before = [] → ∀ args ∈ rest.head?, ¬ Mentions args) :
    ∃ r pids', startCommandsFrom env start before.length rest (slots done rest) w' = .ok r ∧
      StartedAs start env pids' w (before ++ rest) r := by
  induction rest generalizing before done pids w' with
  | nil =>
    refine ⟨_, pids, rfl, ?_⟩
    rw [slots, List.map_nil, List.append_nil, List.append_nil]
    exact .all hdone hstarts
  | cons args rest ih =>
    obtain ⟨command, hcreate, hnone, hargs⟩ := exists_createCommand rest hdone
      (hrest args List.mem_cons_self) fun h => hfirst h args rfl
    rcases startCommandsFrom_cons start w' hdone hcreate with
      ⟨cause, w'', hstart, heq⟩ | ⟨pid', w'', hstart, heq⟩
    · exact ⟨_, pids, heq, .failed hdone hstarts hnone hargs hstart⟩
    · have hsnoc : before ++ [args] ≠ [] :=
        List.append_ne_nil_of_right_ne_nil _ (List.cons_ne_nil _ _)
      rw [hdone.length] at hstart
      obtain ⟨r, pids', hr, hstarted⟩ := ih (hdone.snoc hargs pid') (.snoc hstarts hnone hstart)
        (fun args h => hrest args (List.mem_cons_of_mem _ h)) fun h => absurd h hsnoc
      exact ⟨r, pids', heq.trans hr, List.append_cons before args rest ▸ hstarted⟩

/-! ## What `ReadInputCommands` lets through -/

/-- Arguments that are checked are not empty. -/
theorem checkArgs_ok {idx : Nat} {commandArgs : List (List Text)}
    (h : checkArgs idx commandArgs = .ok ()) :
    ∀ args ∈ commandArgs, args ≠ [] := by
  induction commandArgs generalizing idx with
  | nil => exact fun args hargs => by cases hargs
  | cons args rest ih =>
    rw [checkArgs] at h
    split at h
    next => cases h
    next hne =>
      intro args' hargs'
      rcases List.mem_cons.mp hargs' with rfl | hargs'
      · exact hne
      · exact ih h args' hargs'

/-- What `readInputCommands` gives has a command, and none without arguments. -/
theorem readInputCommands_ok {input commandArgs : List (List Text)}
    (h : readInputCommands input = .ok commandArgs) :
    commandArgs ≠ [] ∧ ∀ args ∈ commandArgs, args ≠ [] := by
  unfold readInputCommands at h
  split at h
  next => cases h
  next hne =>
    cases hcheck : checkArgs 0 input with
    | error message =>
      rw [hcheck] at h
      cases h
    | ok =>
      rw [hcheck] at h
      cases h
      exact ⟨hne, checkArgs_ok hcheck⟩

/-- **Starting the commands** that `ReadInputCommands` has let through: the only panic is that of a
first command that asks for its own pid. Otherwise the commands are started in their order up to the
first whose `Start` fails, each with its arguments expanded, the pid of the first command for
`CMD1_PID`; that one is created only, and those after it are not. -/
theorem start_commands {input commandArgs : List (List Text)}
    (hinput : readInputCommands input = .ok commandArgs) (env : Text → Text)
    (start : Nat → Cmd → ω → Except ε Nat × ω) (w : ω) :
    (∀ panic, startCommands env start commandArgs w = .error panic ↔
      panic = .cmd1Pid ∧ ∃ args ∈ commandArgs.head?, Mentions args) ∧
    ∀ r, startCommands env start commandArgs w = .ok r →
      ∃ pids, StartedAs start env pids w commandArgs r := by
  obtain ⟨hne, hargs⟩ := readInputCommands_ok hinput
  obtain ⟨args, rest, rfl⟩ := List.exists_cons_of_ne_nil hne
  by_cases hmentions : Mentions args
  · have hpanic : startCommands env start (args :: rest) w = .error .cmd1Pid := by
      unfold startCommands
      rw [startCommandsFrom, createCommand_panic hmentions]
      rfl
    rw [hpanic]
    refine ⟨fun panic => ⟨fun h => ⟨(Except.error.inj h).symm, args, rfl, hmentions⟩, fun h => ?_⟩,
      fun r h => ?_⟩
    · rw [h.1]
    · cases h
  · have hnil : Done env [] [] [] := ⟨rfl, fun _ _ => .nil⟩
    have hhead : ∀ args' ∈ (args :: rest).head?, ¬ Mentions args' := fun args' h =>
      Option.some.inj h ▸ hmentions
    have hstarts : Starts start w [] w := .nil
    obtain ⟨r, pids, hr, hstarted⟩ := startCommandsFrom_ok hnil hstarts hargs fun _ => hhead
    have hr' : startCommands env start (args :: rest) w = .ok r := hr
    rw [hr']
    refine ⟨fun panic => ⟨fun h => ?_, fun h => ?_⟩, fun r' h => ⟨pids, Except.ok.inj h ▸ hstarted⟩⟩
    · cases h
    · obtain ⟨-, args', hargs', hmentions'⟩ := h
      exact absurd hmentions' (hhead args' hargs')

/-- A server, and a profiler that is attached to it. -/
def serverAndProfiler : List (List Text) :=
  [["server".toList], ["perf".toList, "-p${CMD1_PID}".toList]]

/-- `Start` that counts the pids up. -/
def startCounting (_ : Nat) (_ : Cmd) (pid : Nat) : Except Nat Nat × Nat := (.ok pid, pid + 1)

theorem start_commands_pid :
    startCommands (fun name => name) startCounting serverAndProfiler 17 =
      .ok ⟨[some ⟨["server".toList], some 17⟩, some ⟨["perf".toList, "-p17".toList], some 18⟩],
        none, 19⟩ ∧
    ∃ pids, StartedAs startCounting (fun name => name) pids 17 serverAndProfiler
      ⟨[some ⟨["server".toList], some 17⟩, some ⟨["perf".toList, "-p17".toList], some 18⟩],
        none, 19⟩ := by
  have hstart : startCommands (fun name => name) startCounting serverAndProfiler 17 =
      .ok ⟨[some ⟨["server".toList], some 17⟩, some ⟨["perf".toList, "-p17".toList], some 18⟩],
        none, 19⟩ := by
    rfl
  have hinput : readInputCommands serverAndProfiler = .ok serverAndProfiler := by
    rfl
  exact ⟨hstart, (start_commands hinput (fun name => name) startCounting 17).2 _ hstart⟩

end ShouldIAsync.EventLoop
