import ShouldIAsync.Lib.System
import Mathlib.Data.List.Nodup
import Mathlib.Data.List.Perm.Basic

/-!
# Registration of shutdown tasks

`ShutdownCoordinator` with any number of calls of `registerShutdownTask` and of the functions it
returns, and with the shutdown hook. Registering and closing are `synchronized`, and so is the
check of an unregister function, but not what it does afterwards: its `remove` may come after
the close, and in the middle of a `put` or of another `remove`. A `HashMap` is not made for the
latter; what the map is after such a race is up to the schedule here (`State.raced`).

`Orderly` rules out the two, and then the map is fixed once the registration is closed, and the
hook runs what is in it (`shutdown_tasks_fixed`).
-/

namespace ShouldIAsync.JavaEcho.Registration

open ShouldIAsync.Lib

variable {τ : Type}

/-- What the hook throws. -/
inductive Thrown
  | concurrentModification
  -- by a task
  | task
  deriving DecidableEq

/-- Where the shutdown hook is. -/
inductive HookPc (τ : Type)
  | closeRegistration
  -- at `gracefulShutdownFuture.complete(null)`
  | complete
  -- at `this.shutdownTasks.values()`
  | values
  -- in the loop, with what the iterator has left
  | tasks (left : List (Nat × τ)) (expectedModCount : Nat)
  -- at `tryLock`
  | tryLock
  | threw (e : Thrown)
  deriving DecidableEq

/-- The coordinator, its map and the hook. -/
structure State (τ : Type) where
  nextShutdownTaskKey : Nat := 0
  shutdownTasks : List (Nat × τ) := []
  -- of the map
  modCount : Nat := 0
  isRegistrationOpen : Bool := true
  /-- what a `registerShutdownTask` that has the monitor is putting into the map -/
  putting : Option (Nat × τ) := none
  /-- the keys of unregister functions past their check -/
  checked : List Nat := []
  /-- the keys of those in `remove` -/
  removing : List Nat := []
  hook : HookPc τ := .closeRegistration
  /-- an access that changes the map has started in the middle of another -/
  raced : Bool := false
  /-- the tasks that have been registered -/
  registered : List (Nat × τ) := []
  /-- the keys that have been removed -/
  unregistered : List Nat := []
  /-- the tasks the hook has run -/
  ran : List (Nat × τ) := []
  deriving DecidableEq

inductive Action (τ : Type)
  -- `registerShutdownTask` takes the monitor
  | register (task : τ)
  -- and ends; after a race it leaves the map as `result`
  | put (result : List (Nat × τ))
  -- an unregister function makes its check
  | unregister (key : Nat)
  -- its `remove` starts
  | remove (key : Nat)
  -- and ends
  | removed (key : Nat) (result : List (Nat × τ))
  | close
  | complete
  -- the iterator is made; the order is that of the hashes
  | values (order : List (Nat × τ))
  -- the loop of the hook goes on
  | next (throws : Bool)

/-- What it does, or `none` where it cannot happen. -/
def act [DecidableEq τ] : Action τ → State τ → Option (State τ)
  | .register task, s =>
    match s.putting with
    | some _ => none
    | none =>
      if s.isRegistrationOpen then
        some { s with
          nextShutdownTaskKey := s.nextShutdownTaskKey + 1
          putting := some (s.nextShutdownTaskKey, task)
          raced := s.raced || !s.removing.isEmpty }
      -- "registration is closed"
      else some s
  | .put result, s =>
    match s.putting with
    | none => none
    | some entry =>
      some { s with
        putting := none
        shutdownTasks := if s.raced then result else s.shutdownTasks ++ [entry]
        modCount := s.modCount + 1
        registered := s.registered ++ [entry] }
  | .unregister key, s =>
    match s.putting with
    | some _ => none
    | none =>
      if key ∈ s.registered.map Prod.fst then
        if s.isRegistrationOpen then some { s with checked := key :: s.checked } else some s
      else none
  | .remove key, s =>
    if key ∈ s.checked then
      some { s with
        checked := s.checked.erase key
        removing := key :: s.removing
        raced := s.raced || s.putting.isSome || !s.removing.isEmpty }
    else none
  | .removed key result, s =>
    if key ∈ s.removing then
      some { s with
        removing := s.removing.erase key
        shutdownTasks :=
          if s.raced then result else s.shutdownTasks.filter fun entry => entry.1 ≠ key
        modCount := if key ∈ s.shutdownTasks.map Prod.fst then s.modCount + 1 else s.modCount
        unregistered := key :: s.unregistered }
    else none
  | .close, s =>
    match s.hook, s.putting with
    | .closeRegistration, none => some { s with isRegistrationOpen := false, hook := .complete }
    | _, _ => none
  | .complete, s =>
    match s.hook with
    | .complete => some { s with hook := .values }
    | _ => none
  | .values order, s =>
    match s.hook with
    | .values =>
      if order.Perm s.shutdownTasks then some { s with hook := .tasks order s.modCount } else none
    | _ => none
  | .next throws, s =>
    match s.hook with
    | .tasks [] _ => some { s with hook := .tryLock }
    | .tasks (entry :: left) expectedModCount =>
      if s.modCount = expectedModCount then
        some { s with
          ran := s.ran ++ [entry]
          hook := if throws then .threw .task else .tasks left expectedModCount }
      else some { s with hook := .threw .concurrentModification }
    | _ => none

variable (τ) in
/-- `ShutdownCoordinator`, its callers and its shutdown hook. -/
def coordinator [DecidableEq τ] : System (State τ) := System.ofActions (fun s => s = {}) act

/-- The `remove` of an unregister function takes its time between no check and the close, and with
no other change of the map. -/
def Orderly : Action τ → State τ → Bool
  | .register _, s => s.removing.isEmpty
  | .remove _, s => s.putting.isNone && s.removing.isEmpty
  | .close, s => s.checked.isEmpty && s.removing.isEmpty
  | _, _ => true

/-- A step that meets the condition. -/
def orderlyAct [DecidableEq τ] (a : Action τ) (s : State τ) : Option (State τ) :=
  if Orderly a s then act a s else none

variable (τ) in
/-- The runs whose steps all do. -/
def orderly [DecidableEq τ] : System (State τ) := System.ofActions (fun s => s = {}) orderlyAct

/-! ## After the close -/

variable {s t : State τ} {a : Action τ}

/-- The registration is closed, and no call is left that could change the map. -/
structure State.Quiet (s : State τ) : Prop where
  closed : s.isRegistrationOpen = false
  putting : s.putting = none
  checked : s.checked = []
  removing : s.removing = []

/-- The state but for the hook. -/
structure State.SameMap (s t : State τ) : Prop where
  shutdownTasks : t.shutdownTasks = s.shutdownTasks
  modCount : t.modCount = s.modCount
  registered : t.registered = s.registered
  unregistered : t.unregistered = s.unregistered

/-- **Nothing changes the map any more**, whatever happens. -/
theorem State.Quiet.act [DecidableEq τ] (hquiet : s.Quiet) (hact : act a s = some t) :
    t.Quiet ∧ s.SameMap t := by
  obtain ⟨hclosed, hputting, hchecked, hremoving⟩ := hquiet
  have hstay : ∀ (hook : HookPc τ) (ran : List (Nat × τ)),
    ({ s with hook := hook, ran := ran } : State τ).Quiet ∧
      s.SameMap { s with hook := hook, ran := ran } :=
    fun _ _ => ⟨⟨hclosed, hputting, hchecked, hremoving⟩, rfl, rfl, rfl, rfl⟩
  cases a with
  | register task =>
    unfold Registration.act at hact
    dsimp only at hact
    rw [hputting] at hact
    dsimp only at hact
    rw [hclosed, if_neg Bool.false_ne_true] at hact
    cases hact
    exact hstay s.hook s.ran
  | put result =>
    unfold Registration.act at hact
    dsimp only at hact
    rw [hputting] at hact
    cases hact
  | unregister key =>
    unfold Registration.act at hact
    dsimp only at hact
    rw [hputting] at hact
    dsimp only at hact
    rw [hclosed, if_neg Bool.false_ne_true] at hact
    split at hact
    next =>
      cases hact
      exact hstay s.hook s.ran
    next => cases hact
  | remove key =>
    unfold Registration.act at hact
    dsimp only at hact
    rw [hchecked, if_neg List.not_mem_nil] at hact
    cases hact
  | removed key result =>
    unfold Registration.act at hact
    dsimp only at hact
    rw [hremoving, if_neg List.not_mem_nil] at hact
    cases hact
  | close =>
    unfold Registration.act at hact
    dsimp only at hact
    split at hact
    next =>
      cases hact
      exact ⟨⟨rfl, hputting, hchecked, hremoving⟩, rfl, rfl, rfl, rfl⟩
    next => cases hact
  | complete =>
    unfold Registration.act at hact
    dsimp only at hact
    split at hact
    next =>
      cases hact
      exact hstay _ s.ran
    next => cases hact
  | values order =>
    unfold Registration.act at hact
    dsimp only at hact
    split at hact
    next =>
      split at hact
      next =>
        cases hact
        exact hstay _ s.ran
      next => cases hact
    next => cases hact
  | next throws =>
    unfold Registration.act at hact
    dsimp only at hact
    split at hact
    next =>
      cases hact
      exact hstay _ s.ran
    next =>
      split at hact
      next =>
        cases hact
        exact hstay _ _
      next =>
        cases hact
        exact hstay _ s.ran
    next => cases hact

/-- Where nobody is at the map it stays as it is. -/
theorem State.Quiet.runActions [DecidableEq τ] {as : List (Action τ)} (hquiet : s.Quiet)
    (hrun : System.runActions Registration.act as s = some t) : s.SameMap t := by
  induction as generalizing s with
  | nil =>
    cases hrun
    exact ⟨rfl, rfl, rfl, rfl⟩
  | cons a as ih =>
    obtain ⟨u, hact, hrun⟩ := Option.bind_eq_some_iff.mp hrun
    obtain ⟨hquiet', hsame⟩ := hquiet.act hact
    have hrest := ih hquiet' hrun
    exact ⟨hrest.shutdownTasks.trans hsame.shutdownTasks, hrest.modCount.trans hsame.modCount,
      hrest.registered.trans hsame.registered, hrest.unregistered.trans hsame.unregistered⟩

/-! ## The invariant -/

/-- What the hook has run and what it has left is the map, and that has not changed since. -/
def State.HookOk (s : State τ) : Prop :=
  match s.hook with
  | .closeRegistration | .complete | .values => s.ran = []
  | .tasks left expectedModCount => s.modCount = expectedModCount ∧
    (s.ran ++ left).Perm s.shutdownTasks
  | .tryLock => s.ran.Perm s.shutdownTasks
  | .threw .concurrentModification => False
  | .threw .task => ∃ left, (s.ran ++ left).Perm s.shutdownTasks

/-- What is registered and not unregistered. -/
def remaining (registered : List (Nat × τ)) (unregistered : List Nat) : List (Nat × τ) :=
  registered.filter fun entry => entry.1 ∉ unregistered

/-- A task that is registered remains. -/
theorem remaining_concat {registered : List (Nat × τ)} {unregistered : List Nat} {entry : Nat × τ}
    (hnew : entry.1 ∉ unregistered) :
    remaining (registered ++ [entry]) unregistered =
      remaining registered unregistered ++ [entry] := by
  unfold remaining
  have hkept : [entry].filter (fun entry => entry.1 ∉ unregistered) = [entry] :=
    List.filter_cons_of_pos (decide_eq_true hnew)
  rw [List.filter_append, hkept]

/-- A task that is unregistered does not. -/
theorem remaining_cons (registered : List (Nat × τ)) (unregistered : List Nat) (key : Nat) :
    remaining registered (key :: unregistered) =
      (remaining registered unregistered).filter fun entry => entry.1 ≠ key := by
  unfold remaining
  rw [List.filter_filter]
  refine List.filter_congr fun entry _ => ?_
  rw [← Bool.decide_and, decide_eq_decide, List.mem_cons, not_or]

/-- The map has what remains. -/
structure Inv (s : State τ) : Prop where
  raced : s.raced = false
  tasks : s.shutdownTasks = remaining s.registered s.unregistered
  keys : (s.registered.map Prod.fst).Nodup
  fresh : ∀ key ∈ s.registered.map Prod.fst, key < s.nextShutdownTaskKey
  putting : ∀ entry, s.putting = some entry →
    entry.1 < s.nextShutdownTaskKey ∧ entry.1 ∉ s.registered.map Prod.fst
  known : ∀ key, key ∈ s.checked ∨ key ∈ s.removing ∨ key ∈ s.unregistered →
    key ∈ s.registered.map Prod.fst
  closed : s.isRegistrationOpen = false → s.Quiet
  atClose : s.isRegistrationOpen = true → s.hook = .closeRegistration ∧ s.ran = []
  hook : s.HookOk

theorem inv_start : Inv ({} : State τ) where
  raced := rfl
  tasks := rfl
  keys := List.nodup_nil
  fresh key h := by cases h
  putting entry h := by cases h
  known key h := by rcases h with h | h | h <;> cases h
  closed h := by cases h
  atClose _ := ⟨rfl, rfl⟩
  hook := rfl

/-- The hook is all right where it begins. -/
theorem hookOk_of_atClose (h : s.hook = .closeRegistration ∧ s.ran = []) : s.HookOk := by
  unfold State.HookOk
  rw [h.1]
  exact h.2

/-- With a call under way the registration is open. -/
theorem Inv.open_of (hinv : Inv s) (hcall : s.putting ≠ none ∨ s.checked ≠ [] ∨ s.removing ≠ []) :
    s.isRegistrationOpen = true := by
  by_contra hclosed
  have hquiet := hinv.closed (Bool.eq_false_of_not_eq_true hclosed)
  rcases hcall with hcall | hcall | hcall
  · exact hcall hquiet.putting
  · exact hcall hquiet.checked
  · exact hcall hquiet.removing

/-- Past its close the hook goes on alone. -/
theorem Inv.hook_goes (hinv : Inv s) (hpc : s.hook ≠ .closeRegistration) {hook : HookPc τ}
    {ran : List (Nat × τ)} (hok : ({ s with hook := hook, ran := ran } : State τ).HookOk) :
    Inv ({ s with hook := hook, ran := ran } : State τ) := by
  have hclosed : s.isRegistrationOpen = false := by
    by_contra hopen
    exact hpc (hinv.atClose (Bool.eq_true_of_not_eq_false hopen)).1
  obtain ⟨-, hputting, hchecked, hremoving⟩ := hinv.closed hclosed
  refine ⟨hinv.raced, hinv.tasks, hinv.keys, hinv.fresh, hinv.putting, hinv.known,
    fun _ => ⟨hclosed, hputting, hchecked, hremoving⟩, fun hopen => ?_, hok⟩
  rw [hclosed] at hopen
  cases hopen

/-- What there is to show while the registration is open. -/
theorem inv_of_open (hopen : s.isRegistrationOpen = true)
    (hpc : s.hook = .closeRegistration ∧ s.ran = [])
    (hraced : s.raced = false) (htasks : s.shutdownTasks = remaining s.registered s.unregistered)
    (hkeys : (s.registered.map Prod.fst).Nodup)
    (hfresh : ∀ key ∈ s.registered.map Prod.fst, key < s.nextShutdownTaskKey)
    (hputting : ∀ entry, s.putting = some entry →
      entry.1 < s.nextShutdownTaskKey ∧ entry.1 ∉ s.registered.map Prod.fst)
    (hknown : ∀ key, key ∈ s.checked ∨ key ∈ s.removing ∨ key ∈ s.unregistered →
      key ∈ s.registered.map Prod.fst) : Inv s where
  raced := hraced
  tasks := htasks
  keys := hkeys
  fresh := hfresh
  putting := hputting
  known := hknown
  closed hclosed := absurd hclosed (ne_false_of_eq_true hopen)
  atClose _ := hpc
  hook := hookOk_of_atClose hpc

section Steps

variable [DecidableEq τ] {task : τ} {key : Nat} {result order : List (Nat × τ)} {throws : Bool}

/-- A `registerShutdownTask` keeps the invariant. -/
theorem Inv.register (hinv : Inv s) (horderly : Orderly (.register task) s = true)
    (hact : Registration.act (.register task) s = some t) : Inv t := by
  unfold Registration.act at hact
  dsimp only at hact
  split at hact
  next => cases hact
  next hputting =>
    split at hact
    next hopen =>
      cases hact
      refine inv_of_open hopen (hinv.atClose hopen) ?_ hinv.tasks hinv.keys ?_ ?_ hinv.known
      · show (s.raced || !s.removing.isEmpty) = false
        rw [hinv.raced, show s.removing.isEmpty = true from horderly]
        rfl
      · intro key hkey
        exact Nat.lt_succ_of_lt (hinv.fresh key hkey)
      · intro entry hentry
        cases hentry
        exact ⟨Nat.lt_succ_self _, fun hmem => Nat.lt_irrefl _ (hinv.fresh _ hmem)⟩
    next =>
      cases hact
      exact hinv

theorem Inv.put (hinv : Inv s) (hact : Registration.act (.put result) s = some t) : Inv t := by
  unfold Registration.act at hact
  dsimp only at hact
  split at hact
  next => cases hact
  next entry hputting =>
    have hopen := hinv.open_of (.inl (by rw [hputting]; exact Option.some_ne_none entry))
    obtain ⟨hlt, hnew⟩ := hinv.putting entry hputting
    cases hact
    refine inv_of_open hopen (hinv.atClose hopen) hinv.raced ?_ ?_ ?_ ?_ ?_
    · show (if s.raced then result else s.shutdownTasks ++ [entry]) =
        remaining (s.registered ++ [entry]) s.unregistered
      rw [hinv.raced, if_neg Bool.false_ne_true, hinv.tasks, remaining_concat]
      exact fun hmem => hnew (hinv.known _ (.inr (.inr hmem)))
    · show ((s.registered ++ [entry]).map Prod.fst).Nodup
      have hconcat := hinv.keys.concat hnew
      rw [List.concat_eq_append] at hconcat
      rw [List.map_append]
      exact hconcat
    · show ∀ key ∈ (s.registered ++ [entry]).map Prod.fst, key < s.nextShutdownTaskKey
      intro key hkey
      rw [List.map_append, List.mem_append] at hkey
      rcases hkey with hkey | hkey
      · exact hinv.fresh key hkey
      · rw [List.mem_singleton.mp hkey]
        exact hlt
    · intro entry hentry
      cases hentry
    · intro key hkey
      show key ∈ (s.registered ++ [entry]).map Prod.fst
      rw [List.map_append]
      exact List.mem_append_left _ (hinv.known key hkey)

theorem Inv.unregister (hinv : Inv s) (hact : Registration.act (.unregister key) s = some t) :
    Inv t := by
  unfold Registration.act at hact
  dsimp only at hact
  split at hact
  next => cases hact
  next =>
    split at hact
    next hkey =>
      split at hact
      next hopen =>
        cases hact
        refine inv_of_open hopen (hinv.atClose hopen) hinv.raced hinv.tasks hinv.keys hinv.fresh
          hinv.putting ?_
        intro key' hkey'
        rcases hkey' with hkey' | hkey'
        · rcases List.mem_cons.mp hkey' with rfl | hkey'
          · exact hkey
          · exact hinv.known key' (.inl hkey')
        · exact hinv.known key' (.inr hkey')
      next =>
        cases hact
        exact hinv
    next => cases hact

theorem Inv.remove (hinv : Inv s) (horderly : Orderly (.remove key) s = true)
    (hact : Registration.act (.remove key) s = some t) : Inv t := by
  unfold Registration.act at hact
  dsimp only at hact
  split at hact
  next hkey =>
    have hopen := hinv.open_of (.inr (.inl (List.ne_nil_of_mem hkey)))
    obtain ⟨hnone, hempty⟩ := Bool.and_eq_true_iff.mp horderly
    cases hact
    refine inv_of_open hopen (hinv.atClose hopen) ?_ hinv.tasks hinv.keys hinv.fresh hinv.putting ?_
    · show (s.raced || s.putting.isSome || !s.removing.isEmpty) = false
      rw [hinv.raced, hempty, Option.isNone_iff_eq_none.mp hnone]
      rfl
    · intro key' hkey'
      rcases hkey' with hkey' | hkey' | hkey'
      · exact hinv.known key' (.inl (List.mem_of_mem_erase hkey'))
      · rcases List.mem_cons.mp hkey' with rfl | hkey'
        · exact hinv.known _ (.inl hkey)
        · exact hinv.known key' (.inr (.inl hkey'))
      · exact hinv.known key' (.inr (.inr hkey'))
  next => cases hact

theorem Inv.removed (hinv : Inv s) (hact : Registration.act (.removed key result) s = some t) :
    Inv t := by
  unfold Registration.act at hact
  dsimp only at hact
  split at hact
  next hkey =>
    have hopen := hinv.open_of (.inr (.inr (List.ne_nil_of_mem hkey)))
    cases hact
    refine inv_of_open hopen (hinv.atClose hopen) hinv.raced ?_ hinv.keys hinv.fresh hinv.putting ?_
    · show (if s.raced then result else s.shutdownTasks.filter fun entry => entry.1 ≠ key) =
        remaining s.registered (key :: s.unregistered)
      rw [hinv.raced, if_neg Bool.false_ne_true, hinv.tasks, remaining_cons]
    · intro key' hkey'
      rcases hkey' with hkey' | hkey' | hkey'
      · exact hinv.known key' (.inl hkey')
      · exact hinv.known key' (.inr (.inl (List.mem_of_mem_erase hkey')))
      · rcases List.mem_cons.mp hkey' with rfl | hkey'
        · exact hinv.known _ (.inr (.inl hkey))
        · exact hinv.known key' (.inr (.inr hkey'))
  next => cases hact

theorem Inv.close (hinv : Inv s) (horderly : Orderly .close s = true)
    (hact : Registration.act .close s = some t) : Inv t := by
  unfold Registration.act at hact
  dsimp only at hact
  split at hact
  next hpc hputting =>
    obtain ⟨hchecked, hremoving⟩ := Bool.and_eq_true_iff.mp horderly
    have hran : s.ran = [] := by
      have hok := hinv.hook
      unfold State.HookOk at hok
      rw [hpc] at hok
      exact hok
    cases hact
    refine ⟨hinv.raced, hinv.tasks, hinv.keys, hinv.fresh, hinv.putting, hinv.known,
      fun _ => ⟨rfl, hputting, List.isEmpty_iff.mp hchecked, List.isEmpty_iff.mp hremoving⟩,
        fun hopen => ?_, hran⟩
    cases hopen
  next => cases hact

theorem Inv.complete (hinv : Inv s) (hact : Registration.act .complete s = some t) : Inv t := by
  have hok := hinv.hook
  unfold Registration.act at hact
  dsimp only at hact
  split at hact
  next hpc =>
    unfold State.HookOk at hok
    rw [hpc] at hok
    cases hact
    exact hinv.hook_goes (fun h => by rw [hpc] at h; cases h) hok
  next => cases hact

theorem Inv.values (hinv : Inv s) (hact : Registration.act (.values order) s = some t) : Inv t := by
  have hok := hinv.hook
  unfold Registration.act at hact
  dsimp only at hact
  split at hact
  next hpc =>
    unfold State.HookOk at hok
    rw [hpc] at hok
    split at hact
    next hperm =>
      cases hact
      refine hinv.hook_goes (fun h => by rw [hpc] at h; cases h) ⟨rfl, ?_⟩
      show (s.ran ++ order).Perm s.shutdownTasks
      rw [show s.ran = [] from hok]
      exact hperm
    next => cases hact
  next => cases hact

/-- The loop: the iterator does not fail, as nothing has changed the map. -/
theorem Inv.next (hinv : Inv s) (hact : Registration.act (.next throws) s = some t) : Inv t := by
  have hok := hinv.hook
  unfold Registration.act at hact
  dsimp only at hact
  split at hact
  next expectedModCount hpc =>
    unfold State.HookOk at hok
    rw [hpc] at hok
    cases hact
    refine hinv.hook_goes (fun h => by rw [hpc] at h; cases h) ?_
    have hperm := hok.2
    rw [List.append_nil] at hperm
    exact hperm
  next entry left expectedModCount hpc =>
    unfold State.HookOk at hok
    rw [hpc] at hok
    have hperm : (s.ran ++ [entry] ++ left).Perm s.shutdownTasks := by
      rw [List.append_assoc]
      exact hok.2
    rw [if_pos hok.1] at hact
    cases hact
    refine hinv.hook_goes (fun h => by rw [hpc] at h; cases h) ?_
    cases throws with
    | true => exact ⟨left, hperm⟩
    | false => exact ⟨hok.1, hperm⟩
  next => cases hact

/-- **One step that meets the condition preserves the invariant.** -/
theorem Inv.act (hinv : Inv s) (horderly : Orderly a s = true)
    (hact : Registration.act a s = some t) : Inv t := by
  cases a with
  | register task => exact hinv.register horderly hact
  | put result => exact hinv.put hact
  | unregister key => exact hinv.unregister hact
  | remove key => exact hinv.remove horderly hact
  | removed key result => exact hinv.removed hact
  | close => exact hinv.close horderly hact
  | complete => exact hinv.complete hact
  | values order => exact hinv.values hact
  | next throws => exact hinv.next hact

end Steps

/-- **The invariant of the runs that meet the condition.** -/
theorem inv_reachable [DecidableEq τ] (h : (orderly τ).Reachable s) : Inv s := by
  refine h.invariant (fun s hs => ?_) (fun s t _ hs hst => ?_)
  · rw [show s = {} from hs]
    exact inv_start
  · obtain ⟨a, hact⟩ := hst
    unfold orderlyAct at hact
    split at hact
    next horderly => exact hs.act horderly hact
    next => cases hact

/-! ## What the hook runs -/

/-- What the hook has run is part of the map. -/
theorem State.HookOk.ran_part (hok : s.HookOk) : ∃ left, (s.ran ++ left).Perm s.shutdownTasks := by
  unfold State.HookOk at hok
  split at hok
  · exact ⟨s.shutdownTasks, by rw [hok, List.nil_append]⟩
  · exact ⟨s.shutdownTasks, by rw [hok, List.nil_append]⟩
  · exact ⟨s.shutdownTasks, by rw [hok, List.nil_append]⟩
  next left _ _ => exact ⟨left, hok.2⟩
  · exact ⟨[], by rwa [List.append_nil]⟩
  · exact hok.elim
  · exact hok

/-- At the end of its loop it is all of it. -/
theorem State.HookOk.ran_all (hok : s.HookOk) (hpc : s.hook = .tryLock) :
    s.ran.Perm s.shutdownTasks := by
  unfold State.HookOk at hok
  rw [hpc] at hok
  exact hok

/-- A hook that is all right has not found the map changed. -/
theorem State.HookOk.not_failed (hok : s.HookOk) : s.hook ≠ .threw .concurrentModification := by
  intro hpc
  unfold State.HookOk at hok
  rw [hpc] at hok
  exact hok

theorem State.HookOk.modCount {left : List (Nat × τ)} {expectedModCount : Nat} (hok : s.HookOk)
    (hpc : s.hook = .tasks left expectedModCount) : s.modCount = expectedModCount := by
  unfold State.HookOk at hok
  rw [hpc] at hok
  exact hok.1

/-- **Once the registration is closed the map stays as it is and the hook runs what is in it**, in
every run in which the registration is closed while no unregister function is between its check
and the end of its `remove`, and no `remove` is in the middle of another change: the map has the
tasks registered and not unregistered, whatever happens after that; the hook's iterator never fails,
the hook runs each task at most once, and all of them when it comes to the end of its loop. -/
theorem shutdown_tasks_fixed [DecidableEq τ] (h : (orderly τ).Reachable s)
    (hclosed : s.isRegistrationOpen = false) :
    s.shutdownTasks = remaining s.registered s.unregistered ∧ (s.shutdownTasks.map Prod.fst).Nodup ∧
    (∀ as t, System.runActions act as s = some t → t.shutdownTasks = s.shutdownTasks) ∧
    s.hook ≠ .threw .concurrentModification ∧
    (∃ left, (s.ran ++ left).Perm s.shutdownTasks) ∧
    (s.hook = .tryLock → s.ran.Perm s.shutdownTasks) ∧
    (∀ entry left expectedModCount, s.hook = .tasks (entry :: left) expectedModCount →
      act (.next false) s =
        some { s with ran := s.ran ++ [entry], hook := .tasks left expectedModCount }) := by
  have hinv := inv_reachable h
  refine ⟨hinv.tasks, ?_, fun as t hrun => ((hinv.closed hclosed).runActions hrun).shutdownTasks,
    hinv.hook.not_failed, hinv.hook.ran_part, hinv.hook.ran_all, ?_⟩
  · rw [hinv.tasks]
    exact hinv.keys.sublist (List.filter_sublist.map Prod.fst)
  · intro entry left expectedModCount hpc
    unfold act
    dsimp only
    rw [hpc]
    dsimp only
    rw [if_pos (hinv.hook.modCount hpc), if_neg Bool.false_ne_true]

/-- Two of three tasks are left when the registration is closed. -/
theorem shutdown_tasks_fixed_two : ∃ s : State Nat, (orderly Nat).Reachable s ∧
    s.isRegistrationOpen = false ∧ s.registered = [(0, 10), (1, 11), (2, 12)] ∧
    s.unregistered = [1] ∧
    s.ran.Perm [(0, 10), (2, 12)] := by
  obtain ⟨s, hrun, hclosed, hhook, hregistered, hunregistered, htasks⟩ : ∃ s : State Nat,
      System.runActions orderlyAct [.register 10, .put [], .register 11, .put [], .unregister 1,
        .register 12, .put [], .remove 1, .removed 1 [], .close, .unregister 0, .complete,
        .values [(2, 12), (0, 10)], .next false, .next false, .next false] {} = some s ∧
      s.isRegistrationOpen = false ∧ s.hook = .tryLock ∧
      s.registered = [(0, 10), (1, 11), (2, 12)] ∧ s.unregistered = [1] ∧
      s.shutdownTasks = [(0, 10), (2, 12)] := ⟨_, rfl, rfl, rfl, rfl, rfl, rfl⟩
  have hreach : (orderly Nat).Reachable s :=
    System.reachable_of_runActions (.start (Eq.refl _)) hrun
  obtain ⟨-, -, -, -, -, hall, -⟩ := shutdown_tasks_fixed hreach hclosed
  have hperm := hall hhook
  rw [htasks] at hperm
  exact ⟨s, hreach, hclosed, hregistered, hunregistered, hperm⟩

/-- An unregister function makes its check before the close and removes its task while the hook is
in its loop: the map is changed, the iterator fails, and the second task is not run. -/
theorem removed_after_close : ∃ s t : State Nat, (coordinator Nat).Reachable s ∧
    s.isRegistrationOpen = false ∧ s.registered = [(0, 10), (1, 11)] ∧ s.unregistered = [] ∧
    System.runActions act [.complete, .values [(0, 10), (1, 11)], .next false, .remove 0,
      .removed 0 [], .next false] s = some t ∧
    t.shutdownTasks ≠ s.shutdownTasks ∧ t.hook = .threw .concurrentModification ∧
      t.ran = [(0, 10)] := by
  obtain ⟨s, hrun, hs⟩ : ∃ s : State Nat, System.runActions act [.register 10, .put [],
    .register 11, .put [],
      .unregister 0, .close] {} = some s ∧ s = {
        nextShutdownTaskKey := 2
        shutdownTasks := [(0, 10), (1, 11)]
        modCount := 2
        isRegistrationOpen := false
        checked := [0]
        hook := .complete
        registered := [(0, 10), (1, 11)] } := ⟨_, rfl, rfl⟩
  have hreach : (coordinator Nat).Reachable s :=
    System.reachable_of_runActions (.start (Eq.refl _)) hrun
  subst hs
  exact ⟨_, _, hreach, rfl, rfl, rfl, rfl, by decide, rfl, rfl⟩

end ShouldIAsync.JavaEcho.Registration
