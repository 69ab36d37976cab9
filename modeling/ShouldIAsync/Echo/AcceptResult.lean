import ShouldIAsync.GoStd.Pipe
import ShouldIAsync.Lib.History
import ShouldIAsync.Lib.System

/-!
# What `Accept` returns

The loop of `Accept` ends with the error of `listener.Accept`, as an `*AcceptErr`. A deferred
function then waits for the errgroup and joins its error to that, if there is one. The group
keeps the error of the first handler that fails: `errOnce` is done when a handler has returned,
and before the group counts it as done.

Handlers are whatever they are here, and so is the listener: each handler returns when it likes
what it likes, and `listener.Accept` fails at any time, for the errors `ε` of both.
-/

namespace ShouldIAsync.Echo.AcceptResult

open ShouldIAsync.GoStd ShouldIAsync.Lib

variable {ε : Type}

/-- What the result of `Accept` is made of. -/
inductive Leaf (ε : Type)
  /-- an `*AcceptErr`, which does not unwrap to its `childErr` -/
  | acceptErr (childErr : ε)
  /-- what `handleConnection` has returned -/
  | handler (err : ε)

/-- `_, ok := err.(*AcceptErr)` -/
def isAcceptErr : Option (Error (Leaf ε)) → Prop
  | some (.leaf (.acceptErr _)) => True
  | _ => False

/-- `errors.As(err, &acceptErr)` -/
def asAcceptErr (err : Option (Error (Leaf ε))) : Prop :=
  ∃ childErr, .acceptErr childErr ∈ Error.leavesOf err

/-- `errors.Is(err, e)` for the error of a handler. -/
def isHandlerErr (err : Option (Error (Leaf ε))) (e : ε) : Prop := .handler e ∈ Error.leavesOf err

/-- A connection that was accepted, and its function in the group. -/
inductive Handler (ε : Type)
  -- in `handleConnection`
  | running
  -- has returned; `errOnce` is done
  | returned (err : Option ε)
  -- the group has counted it as done
  | done (err : Option ε)

/-- What the function of a handler returns to the group. -/
def handlerErr (err : ε) : Error (Leaf ε) :=
  .wrap "first server handle err: " (.leaf (.handler err))

/-- Where `Accept` is. -/
inductive Pc (ε : Type)
  -- in `listener.Accept()`
  | accepting
  -- in `group.Wait()`, with `err` assigned
  | waiting (err : Option (Error (Leaf ε)))
  | returned (err : Option (Error (Leaf ε)))

/-- `Accept` and the group of its handlers. -/
structure State (ε : Type) where
  pc : Pc ε := .accepting
  handlers : List (Handler ε) := []
  -- `err` of the errgroup
  groupErr : Option (Error (Leaf ε)) := none
  -- the errors of the handlers that have failed, in order
  failed : List ε := []

inductive Action (ε : Type)
  -- `listener.Accept` returns a connection
  | accept
  -- or an error
  | fail (childErr : ε)
  -- the handler of connection `i` returns
  | handlerReturn (i : Nat) (err : Option ε)
  | handlerDone (i : Nat)
  -- `group.Wait` returns
  | wait

/-- The handler has returned and the group knows of it. -/
def Handler.isDone : Handler ε → Bool
  | .done _ => true
  | _ => false

/-- The deferred function, once `group.Wait` has returned `err2`. -/
def joined (err err2 : Option (Error (Leaf ε))) : Option (Error (Leaf ε)) :=
  match err2 with
  | none => err
  | some _ =>
    match err with
    | none => err2
    | some _ => Error.joinAll [err, err2]

/-- What it does, or `none` where it cannot happen. -/
def act : Action ε → State ε → Option (State ε)
  | .accept, s =>
    match s.pc with
    | .accepting => some { s with handlers := s.handlers ++ [.running] }
    | _ => none
  | .fail childErr, s =>
    match s.pc with
    | .accepting => some { s with pc := .waiting (some (.leaf (.acceptErr childErr))) }
    | _ => none
  | .handlerReturn i err, s =>
    match s.handlers[i]? with
    | some .running =>
      match err with
      | none => some { s with handlers := s.handlers.set i (.returned none) }
      | some e =>
        some { s with
          handlers := s.handlers.set i (.returned (some e))
          -- `errOnce`
          groupErr := s.groupErr.or (some (handlerErr e))
          failed := s.failed ++ [e] }
    | _ => none
  | .handlerDone i, s =>
    match s.handlers[i]? with
    | some (.returned err) => some { s with handlers := s.handlers.set i (.done err) }
    | _ => none
  | .wait, s =>
    match s.pc with
    | .waiting err =>
      if s.handlers.all Handler.isDone then
        some { s with pc := .returned (joined err s.groupErr) }
      else none
    | _ => none

variable (ε) in
/-- `Accept`. -/
def accept : System (State ε) := System.ofActions (fun s => s = {}) act

/-! ## The invariant -/

/-- The handler has returned an error. -/
def Handler.Failed (h : Handler ε) (e : ε) : Prop := h = .returned (some e) ∨ h = .done (some e)

/-- The group has the error of the first handler that failed, and the loop ended with an
`*AcceptErr`. -/
structure Inv (s : State ε) : Prop where
  group : s.groupErr = s.failed.head?.map handlerErr
  failed : ∀ e, e ∈ s.failed ↔ ∃ h ∈ s.handlers, h.Failed e
  waiting : ∀ err, s.pc = .waiting err → ∃ childErr, err = some (.leaf (.acceptErr childErr))
  returned : ∀ err, s.pc = .returned err → (∀ h ∈ s.handlers, h.isDone = true) ∧
    ∃ childErr, err = joined (some (.leaf (.acceptErr childErr))) s.groupErr

theorem inv_start : Inv ({} : State ε) where
  group := rfl
  failed e := by simp
  waiting err h := by cases h
  returned err h := by cases h

theorem Handler.not_failed_running (e : ε) : ¬(Handler.running : Handler ε).Failed e := by
  rintro (h | h) <;> cases h

/-- What has failed after one handler has moved on. -/
theorem failed_set {hs : List (Handler ε)} {i : Nat} {old new : Handler ε}
    (hold : hs[i]? = some old) {e : ε} (hkeep : old.Failed e → new.Failed e) :
    (∃ h ∈ hs.set i new, h.Failed e) ↔ (∃ h ∈ hs, h.Failed e) ∨ new.Failed e := by
  obtain ⟨hi, -⟩ := List.getElem?_eq_some_iff.mp hold
  have hnew : new ∈ hs.set i new := List.mem_iff_getElem?.mpr ⟨i, List.getElem?_set_self hi⟩
  constructor
  · rintro ⟨h, hmem, hfail⟩
    rcases List.mem_or_eq_of_mem_set hmem with hmem | rfl
    · exact .inl ⟨h, hmem, hfail⟩
    · exact .inr hfail
  · rintro (⟨h, hmem, hfail⟩ | hfail)
    · obtain ⟨j, hj⟩ := List.mem_iff_getElem?.mp hmem
      by_cases hij : i = j
      · subst hij
        obtain rfl := Option.some.inj (hold.symm.trans hj)
        exact ⟨new, hnew, hkeep hfail⟩
      · refine ⟨h, List.mem_iff_getElem?.mpr ⟨j, ?_⟩, hfail⟩
        rw [List.getElem?_set_ne hij]
        exact hj
    · exact ⟨new, hnew, hfail⟩

/-- Nothing moves once the group has waited. -/
theorem Inv.not_returned {s : State ε} (hinv : Inv s) {i : Nat} {h : Handler ε}
    (hi : s.handlers[i]? = some h)
    (hrun : h.isDone = false) (err : Option (Error (Leaf ε))) : s.pc ≠ .returned err := by
  intro hret
  have hdone := (hinv.returned err hret).1 h (List.mem_of_getElem? hi)
  rw [hrun] at hdone
  cases hdone

/-- A connection that is accepted keeps the invariant. -/
theorem Inv.accept {s t : State ε} (hinv : Inv s)
    (hact : AcceptResult.act .accept s = some t) : Inv t := by
  unfold AcceptResult.act at hact
  dsimp only at hact
  split at hact
  next hpc =>
    cases hact
    refine ⟨hinv.group, fun e => ?_, hinv.waiting, fun err herr => ?_⟩
    · rw [hinv.failed e]
      constructor
      · rintro ⟨h, hmem, hfail⟩
        exact ⟨h, List.mem_append_left _ hmem, hfail⟩
      · rintro ⟨h, hmem, hfail⟩
        rcases List.mem_append.mp hmem with hmem | hmem
        · exact ⟨h, hmem, hfail⟩
        · rw [List.mem_singleton.mp hmem] at hfail
          exact absurd hfail (Handler.not_failed_running e)
    · rw [show s.pc = .returned err from herr] at hpc
      cases hpc
  next => cases hact

theorem Inv.fail {s t : State ε} (hinv : Inv s) {childErr : ε}
    (hact : AcceptResult.act (.fail childErr) s = some t) : Inv t := by
  unfold AcceptResult.act at hact
  dsimp only at hact
  split at hact
  next hpc =>
    cases hact
    refine ⟨hinv.group, hinv.failed, fun err herr => ?_, fun err herr => ?_⟩
    · cases herr
      exact ⟨childErr, rfl⟩
    · cases herr
  next => cases hact

theorem Inv.handlerReturn {s t : State ε} (hinv : Inv s) {i : Nat} {err : Option ε}
    (hact : AcceptResult.act (.handlerReturn i err) s = some t) : Inv t := by
  unfold AcceptResult.act at hact
  dsimp only at hact
  split at hact
  next hrunning =>
    have hno := hinv.not_returned hrunning rfl
    cases err with
    | none =>
      cases hact
      refine ⟨hinv.group, fun e => ?_, hinv.waiting, fun err herr => absurd herr (hno err)⟩
      rw [hinv.failed e, failed_set hrunning fun h => absurd h (Handler.not_failed_running e)]
      refine ⟨.inl, fun h => ?_⟩
      rcases h with h | h | h
      · exact h
      · cases h
      · cases h
    | some e =>
      cases hact
      refine ⟨?_, fun e' => ?_, hinv.waiting, fun err herr => absurd herr (hno err)⟩
      · show s.groupErr.or _ = ((s.failed ++ [e]).head?).map handlerErr
        rw [hinv.group]
        cases s.failed with
        | nil => rfl
        | cons e' rest => rfl
      · show e' ∈ s.failed ++ [e] ↔ _
        rw [failed_set hrunning fun h => absurd h (Handler.not_failed_running e'), ← hinv.failed e',
          List.mem_append, List.mem_singleton]
        refine or_congr_right ⟨fun h => ?_, fun h => ?_⟩
        · subst h
          exact .inl rfl
        · rcases h with h | h
          · cases h
            rfl
          · cases h
  next => cases hact

theorem Inv.handlerDone {s t : State ε} (hinv : Inv s) {i : Nat}
    (hact : AcceptResult.act (.handlerDone i) s = some t) : Inv t := by
  unfold AcceptResult.act at hact
  dsimp only at hact
  split at hact
  next err hreturned =>
    have hno := hinv.not_returned hreturned rfl
    cases hact
    refine ⟨hinv.group, fun e => ?_, hinv.waiting, fun err herr => absurd herr (hno err)⟩
    have hsame : ∀ {e : ε}, (Handler.returned err).Failed e ↔ (Handler.done err).Failed e := by
      intro e
      unfold Handler.Failed
      simp
    rw [hinv.failed e, failed_set hreturned hsame.mp, ← hsame]
    refine ⟨.inl, fun h => ?_⟩
    rcases h with h | h
    · exact h
    · exact ⟨_, List.mem_of_getElem? hreturned, h⟩
  next => cases hact

/-- `group.Wait` returns with every handler done. -/
theorem Inv.wait {s t : State ε} (hinv : Inv s)
    (hact : AcceptResult.act .wait s = some t) : Inv t := by
  unfold AcceptResult.act at hact
  dsimp only at hact
  split at hact
  next err hpc =>
    split at hact
    next hall =>
      cases hact
      refine ⟨hinv.group, hinv.failed, fun err herr => ?_, fun err' herr => ?_⟩
      · cases herr
      · cases herr
        obtain ⟨childErr, rfl⟩ := hinv.waiting err hpc
        exact ⟨List.all_eq_true.mp hall, childErr, rfl⟩
    next => cases hact
  next => cases hact

/-- **One action preserves the invariant.** -/
theorem Inv.act {s t : State ε} (hinv : Inv s) {a : Action ε}
    (hact : AcceptResult.act a s = some t) : Inv t := by
  cases a with
  | accept => exact hinv.accept hact
  | fail childErr => exact hinv.fail hact
  | handlerReturn i err => exact hinv.handlerReturn hact
  | handlerDone i => exact hinv.handlerDone hact
  | wait => exact hinv.wait hact

/-- **The invariant of every run.** -/
theorem inv_reachable {s : State ε} (h : (accept ε).Reachable s) : Inv s := by
  refine h.invariant (fun s hs => ?_) (fun s t _ hs hst => ?_)
  · rw [show s = {} from hs]
    exact inv_start
  · obtain ⟨a, hact⟩ := hst
    exact hs.act hact

/-! ## The result -/

/-- Without an error of the group the result is the `*AcceptErr`. -/
theorem isAcceptErr_joined (childErr : ε) (err2 : Option (Error (Leaf ε))) :
    isAcceptErr (joined (some (.leaf (.acceptErr childErr))) err2) ↔ err2 = none := by
  cases err2 with
  | none => exact ⟨fun _ => rfl, fun _ => trivial⟩
  | some e => exact ⟨fun h => h.elim, fun h => by cases h⟩

/-- With one it consists of both. -/
theorem leavesOf_joined (childErr e : ε) :
    Error.leavesOf (joined (some (.leaf (.acceptErr childErr))) (some (handlerErr e))) =
      [.acceptErr childErr, .handler e] := by
  unfold joined
  dsimp only
  rw [Error.leavesOf_joinAll]
  simp [handlerErr, Error.leavesOf, Error.leaves]

/-- A handler that is not done can move on. -/
theorem exists_act_handler {s : State ε} {h : Handler ε} (hmem : h ∈ s.handlers)
    (hnot : h.isDone = false) : ∃ a t, act a s = some t := by
  obtain ⟨i, hi⟩ := List.mem_iff_getElem?.mp hmem
  cases h with
  | running => exact ⟨.handlerReturn i none, _, by unfold act; simp only [hi]; rfl⟩
  | returned err => exact ⟨.handlerDone i, _, by unfold act; simp only [hi]; rfl⟩
  | done err => cases hnot

/-- **A run ends only with `Accept` returned**: the listener can fail, the handlers can return
and the group then stops waiting. -/
theorem returned_of_stuck {s : State ε} (hstuck : (accept ε).Stuck s) :
    ∃ err, s.pc = .returned err := by
  have hno : ∀ a t, act a s ≠ some t := fun a t hact => hstuck t ⟨a, hact⟩
  cases hpc : s.pc with
  | accepting => exact absurd (by unfold act; simp only [hpc]; rfl) (hno .accept _)
  | waiting err =>
    by_cases hall : s.handlers.all Handler.isDone = true
    · exact absurd (by unfold act; simp only [hpc, hall]; rfl) (hno .wait _)
    · obtain ⟨h, hmem, hnot⟩ := List.all_eq_false.mp (Bool.not_eq_true _ ▸ hall)
      obtain ⟨a, t, hact⟩ := exists_act_handler hmem (Bool.not_eq_true _ ▸ hnot)
      exact absurd hact (hno a t)
  | returned err => exact ⟨err, rfl⟩

/-- **`Accept` returns, and after its handlers**: with a bare `*AcceptErr` exactly if none of them
has failed, and otherwise with an error that is not one, but matches one and the error of the
handler that failed first. A run that cannot go on has returned. -/
theorem accept_result {s : State ε} (h : (accept ε).Reachable s) :
    ((accept ε).Stuck s → ∃ err, s.pc = .returned err) ∧
    ∀ err, s.pc = .returned err →
      (∀ h ∈ s.handlers, h.isDone = true) ∧
      (isAcceptErr err ↔ ∀ h ∈ s.handlers, h = .done none) ∧
      ((∃ h ∈ s.handlers, h ≠ .done none) →
        ∃ e, s.failed.head? = some e ∧ ¬isAcceptErr err ∧ asAcceptErr err ∧
          isHandlerErr err e) := by
  refine ⟨returned_of_stuck, fun err hret => ?_⟩
  have hinv := inv_reachable h
  obtain ⟨hdone, childErr, rfl⟩ := hinv.returned err hret
  have hgroup : s.groupErr = none ↔ ∀ h ∈ s.handlers, h = .done none := by
    rw [hinv.group, Option.map_eq_none_iff, List.head?_eq_none_iff, List.eq_nil_iff_forall_not_mem]
    constructor
    · intro hno h hmem
      have hh := hdone h hmem
      cases h with
      | running => cases hh
      | returned res => cases hh
      | done res =>
        cases res with
        | none => rfl
        | some e => exact absurd ((hinv.failed e).mpr ⟨_, hmem, .inr rfl⟩) (hno e)
    · intro hall e he
      obtain ⟨h, hmem, hfail⟩ := (hinv.failed e).mp he
      rw [hall h hmem] at hfail
      rcases hfail with hfail | hfail <;> cases hfail
  refine ⟨hdone, (isAcceptErr_joined childErr s.groupErr).trans hgroup, fun ⟨h, hmem, hne⟩ => ?_⟩
  have hsome : s.groupErr ≠ none := by
    intro hnone
    exact hne (hgroup.mp hnone h hmem)
  have hbare : ¬isAcceptErr (joined (some (.leaf (.acceptErr childErr))) s.groupErr) := by
    rw [isAcceptErr_joined]
    exact hsome
  rw [hinv.group] at hsome hbare ⊢
  cases hfirst : s.failed.head? with
  | none =>
    rw [hfirst] at hsome
    exact absurd rfl hsome
  | some e =>
    rw [hfirst, Option.map_some] at hbare
    rw [Option.map_some]
    refine ⟨e, rfl, hbare, ⟨childErr, ?_⟩, ?_⟩
    · rw [leavesOf_joined]
      exact List.mem_cons_self
    · unfold isHandlerErr
      rw [leavesOf_joined]
      simp

/-- The second connection fails before the first, and the listener in between. -/
theorem accept_result_two :
    ∃ s : State Nat, (accept Nat).Reachable s ∧ ∃ err, s.pc = .returned err ∧
      s.handlers = [.done (some 5), .done (some 7)] ∧
      ¬isAcceptErr err ∧ asAcceptErr err ∧ isHandlerErr err 7 := by
  obtain ⟨s, hrun, hret, hhandlers, hfailed⟩ : ∃ s : State Nat,
      System.runActions act [.accept, .accept, .handlerReturn 1 (some 7), .fail 1,
        .handlerReturn 0 (some 5), .handlerDone 0, .handlerDone 1, .wait] {} = some s ∧
      s.pc = .returned (joined (some (.leaf (.acceptErr 1))) (some (handlerErr 7))) ∧
      s.handlers = [.done (some 5), .done (some 7)] ∧ s.failed = [7, 5] := ⟨_, rfl, rfl, rfl, rfl⟩
  have hreach : (accept Nat).Reachable s := System.reachable_of_runActions (.start (Eq.refl _)) hrun
  have hmem : .done (some 5) ∈ s.handlers := by
    rw [hhandlers]
    exact List.mem_cons_self
  obtain ⟨e, hfirst, hresult⟩ :=
    ((accept_result hreach).2 _ hret).2.2 ⟨_, hmem, fun h => by cases h⟩
  rw [hfailed] at hfirst
  cases hfirst
  exact ⟨s, hreach, _, hret, hhandlers, hresult⟩

end ShouldIAsync.Echo.AcceptResult
