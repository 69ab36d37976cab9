import Mathlib.Logic.Relation
import Mathlib.Order.WellFounded
import Mathlib.Order.Monotone.Basic
import Mathlib.Data.Prod.Lex

/-!
# Transition systems: reachability, run endings, refinement

The concurrent parts of a program are given as a set of start states and a
one-step relation that contains one disjunct per atomic action of each thread;
a run is then any interleaving. This file carries the three arguments every
such model needs, over an arbitrary state type:

- `Reachable.invariant`: what holds at the start and is kept by one step holds
  in every reachable state;
- `EveryRunEnds`: no run is infinite and every state without a step satisfies
  `P` — total correctness over all interleavings. `everyRunEnds_of_measure`
  gets it from a well-founded measure and the end condition of stuck states;
- `eventually_zero`: what a thread that is not starved has left to do comes to zero;
- `ofActions`: a system whose steps are labelled, so that a schedule can be run
  (`runActions`) and a condition be put on each of its steps (`AllSteps`);
- `Refines`: a map between two systems under which each step is a step or a
  stutter, so reachable states map to reachable states.
-/

namespace ShouldIAsync.Lib

variable {σ τ α : Type*}

/-- A transition system: the start states and the one-step relation. -/
structure System (σ : Type*) where
  init : σ → Prop
  step : σ → σ → Prop

namespace System

/-- `S.Reachable s`: some run of `S` from a start state ends in `s`. -/
inductive Reachable (S : System σ) : σ → Prop
  | start {s : σ} : S.init s → Reachable S s
  | next {s t : σ} : Reachable S s → S.step s t → Reachable S t

/-- A state no thread can leave. -/
def Stuck (S : System σ) (s : σ) : Prop := ∀ t, ¬ S.step s t

/-- `EveryRunEnds S P`: no run goes on for ever, and wherever a run cannot go on
`P` holds. -/
structure EveryRunEnds (S : System σ) (P : σ → Prop) : Prop where
  finite : ∀ f : ℕ → σ, S.init (f 0) → ¬ ∀ k, S.step (f k) (f (k + 1))
  ends : ∀ s, S.Reachable s → S.Stuck s → P s

variable {S : System σ}

/-- **The invariant rule.** The step hypothesis may use that the state it starts
from is reachable, so earlier invariants are at hand. -/
theorem Reachable.invariant {P : σ → Prop} (hinit : ∀ s, S.init s → P s)
    (hstep : ∀ s t, S.Reachable s → P s → S.step s t → P t) {s : σ}
    (h : S.Reachable s) : P s := by
  induction h with
  | start h0 => exact hinit _ h0
  | next hr hst ih => exact hstep _ _ hr ih hst

theorem Reachable.trans {s t : σ} (h : S.Reachable s)
    (hrun : Relation.ReflTransGen S.step s t) : S.Reachable t := by
  induction hrun with
  | refl => exact h
  | tail _ hst ih => exact .next ih hst

/-- Dropping steps (a scheduler that never picks some of them) only loses
reachable states. -/
theorem Reachable.mono {S' : System σ} (hinit : ∀ s, S.init s → S'.init s)
    (hstep : ∀ s t, S.step s t → S'.step s t) {s : σ} (h : S.Reachable s) :
    S'.Reachable s := by
  induction h with
  | start h0 => exact .start (hinit _ h0)
  | next _ hst ih => exact .next ih (hstep _ _ hst)

/-- Every state of a run is reachable. -/
theorem reachable_of_run {f : ℕ → σ} (h0 : S.init (f 0))
    (hrun : ∀ k, S.step (f k) (f (k + 1))) : ∀ k, S.Reachable (f k)
  | 0 => .start h0
  | k + 1 => .next (reachable_of_run h0 hrun k) (hrun k)

/-! ## Systems given by labelled actions -/

/-- The system whose steps are the enabled actions of `act`. -/
def ofActions {l : Type*} (init : σ → Prop) (act : l → σ → Option σ) : System σ where
  init := init
  step s t := ∃ a, act a s = some t

/-- The state a schedule leads to, if every action of it is enabled in its turn. -/
def runActions {l : Type*} (act : l → σ → Option σ) : List l → σ → Option σ
  | [], s => some s
  | a :: as, s => (act a s).bind (runActions act as)

/-- A list of actions that can be done is a run. -/
theorem reachable_of_runActions {l : Type*} {init : σ → Prop} {act : l → σ → Option σ} {t : σ} :
    ∀ {as : List l} {s : σ}, (ofActions init act).Reachable s → runActions act as s = some t →
      (ofActions init act).Reachable t
  | [], s, hs, h => by
    obtain rfl := Option.some.inj h
    exact hs
  | a :: as, s, hs, h => by
    obtain ⟨u, hact, hrun⟩ := Option.bind_eq_some_iff.mp h
    exact reachable_of_runActions (.next hs ⟨a, hact⟩) hrun

/-- One list of actions after another. -/
theorem runActions_append {l : Type*} {act : l → σ → Option σ} {as bs : List l} {s t u : σ}
    (hs : runActions act as s = some t) (ht : runActions act bs t = some u) :
    runActions act (as ++ bs) s = some u := by
  induction as generalizing s with
  | nil =>
    obtain rfl := Option.some.inj hs
    exact ht
  | cons a as ih =>
    obtain ⟨v, hact, hrun⟩ := Option.bind_eq_some_iff.mp hs
    exact Option.bind_eq_some_iff.mpr ⟨v, hact, ih hrun⟩

/-- `ok` holds of every step of a schedule. -/
def AllSteps {l : Type*} (act : l → σ → Option σ) (ok : l → σ → Prop) : List l → σ → Prop
  | [], _ => True
  | a :: as, s => ok a s ∧ ∀ t, act a s = some t → AllSteps act ok as t

/-- When `D` stays and comes about exactly at the steps that are not `ok`, it holds at the end of
a run exactly if it did at the start or some step was not. -/
theorem runActions_iff_allSteps {l : Type*} {init : σ → Prop} {act : l → σ → Option σ}
    {ok : l → σ → Prop} {D : σ → Prop}
    (hstep : ∀ a s t, (ofActions init act).Reachable s → act a s = some t → (D t ↔ D s ∨ ¬ ok a s))
    {as : List l} {s t : σ} (hs : (ofActions init act).Reachable s)
    (hrun : runActions act as s = some t) :
    D t ↔ D s ∨ ¬ AllSteps act ok as s := by
  induction as generalizing s with
  | nil =>
    obtain rfl := Option.some.inj hrun
    exact ⟨Or.inl, fun h => h.resolve_right fun hnot => hnot trivial⟩
  | cons a as ih =>
    obtain ⟨u, hact, hrun⟩ := Option.bind_eq_some_iff.mp hrun
    have hrest : (∀ t, act a s = some t → AllSteps act ok as t) ↔ AllSteps act ok as u := by
      constructor
      · exact fun h => h u hact
      · intro h t ht
        obtain rfl := Option.some.inj (hact.symm.trans ht)
        exact h
    rw [ih (.next hs ⟨a, hact⟩) hrun, hstep a s u hs hact, AllSteps, hrest, not_and_or, or_assoc]

section Measure

variable {r : α → α → Prop} (hwf : WellFounded r) (μ : σ → α)
  (hdec : ∀ s t, S.Reachable s → S.step s t → r (μ t) (μ s))
include hwf hdec

/-- A measure that every step lowers leaves no infinite run. -/
theorem no_infinite_run {f : ℕ → σ} (h0 : S.init (f 0)) :
    ¬ ∀ k, S.step (f k) (f (k + 1)) := by
  intro hrun
  have hr := reachable_of_run h0 hrun
  obtain ⟨a, ⟨k, hk⟩, hmin⟩ := hwf.has_min (Set.range fun k => μ (f k)) ⟨_, 0, rfl⟩
  have hlt : r (μ (f (k + 1))) (μ (f k)) := hdec _ _ (hr k) (hrun k)
  exact hmin (μ (f (k + 1))) ⟨k + 1, rfl⟩ (hk ▸ hlt)

/-- From every reachable state a run leads to a stuck state. -/
theorem exists_stuck {s : σ} (h : S.Reachable s) :
    ∃ t, S.Reachable t ∧ S.Stuck t ∧ Relation.ReflTransGen S.step s t := by
  induction hμ : μ s using hwf.induction generalizing s with
  | _ a ih =>
    by_cases hs : S.Stuck s
    · exact ⟨s, h, hs, .refl⟩
    · obtain ⟨t, hst⟩ : ∃ t, S.step s t := by simpa [Stuck] using hs
      obtain ⟨u, hu, hstuck, hrun⟩ :=
        ih (μ t) (hμ ▸ hdec s t h hst) (.next h hst) rfl
      exact ⟨u, hu, hstuck, .head hst hrun⟩

/-- Total correctness from a measure and the end condition. -/
theorem everyRunEnds_of_measure {P : σ → Prop}
    (hends : ∀ s, S.Reachable s → S.Stuck s → P s) : EveryRunEnds S P :=
  ⟨fun _ h0 => no_infinite_run hwf μ hdec h0, hends⟩

/-- When the end condition `P` comes down to `c` in every state a run can end
in, then every run ends in `P` exactly if `c` holds. -/
theorem everyRunEnds_iff {P : σ → Prop} {c : Prop} {s₀ : σ} (h0 : S.init s₀)
    (hends : ∀ s, S.Reachable s → S.Stuck s → (P s ↔ c)) : EveryRunEnds S P ↔ c := by
  constructor
  · intro h
    obtain ⟨t, ht, hstuck, -⟩ := exists_stuck hwf μ hdec (.start h0)
    exact (hends t ht hstuck).mp (h.ends t ht hstuck)
  · intro hc
    exact everyRunEnds_of_measure hwf μ hdec fun s hs hstuck => (hends s hs hstuck).mpr hc

end Measure

/-- **Progress of one thread.** What the thread has left to do never grows along a run, and
as long as it is not zero some later step lowers it: then it comes to zero. -/
theorem eventually_zero {f : ℕ → σ} (left : σ → ℕ) (hle : ∀ k, left (f (k + 1)) ≤ left (f k))
    (hlt : ∀ k, left (f k) ≠ 0 → ∃ j, k ≤ j ∧ left (f (j + 1)) < left (f j)) (k : ℕ) :
    ∃ j, k ≤ j ∧ left (f j) = 0 := by
  have hanti : Antitone fun k => left (f k) := antitone_nat_of_succ_le hle
  induction hn : left (f k) using Nat.strong_induction_on generalizing k with
  | _ n ih =>
    by_cases hzero : left (f k) = 0
    · exact ⟨k, Nat.le_refl k, hzero⟩
    · obtain ⟨j, hkj, hdrop⟩ := hlt k hzero
      have hmono : left (f j) ≤ left (f k) := hanti hkj
      obtain ⟨i, hji, hi⟩ := ih (left (f (j + 1))) (by omega) (j + 1) (Eq.refl _)
      exact ⟨i, by omega, hi⟩

/-- `Refines C A abs`: under `abs` a start state of `C` is one of `A`, and a
step of `C` is a step of `A` or leaves the abstract state alone. -/
structure Refines (C : System σ) (A : System τ) (abs : σ → τ) : Prop where
  init : ∀ s, C.init s → A.init (abs s)
  step : ∀ s t, C.Reachable s → C.step s t → A.step (abs s) (abs t) ∨ abs t = abs s

/-- **A run of the refining system is one of the other.** -/
theorem Refines.reachable {C : System σ} {A : System τ} {abs : σ → τ}
    (h : Refines C A abs) {s : σ} (hs : C.Reachable s) : A.Reachable (abs s) := by
  induction hs with
  | start h0 => exact .start (h.init _ h0)
  | next hr hst ih =>
    rcases h.step _ _ hr hst with hstep | hstut
    · exact .next ih hstep
    · rw [hstut]; exact ih

/-- An invariant of the abstract system holds of the image of every reachable
concrete state. -/
theorem Refines.invariant {C : System σ} {A : System τ} {abs : σ → τ}
    (h : Refines C A abs) {P : τ → Prop} (hP : ∀ a, A.Reachable a → P a) {s : σ}
    (hs : C.Reachable s) : P (abs s) :=
  hP _ (h.reachable hs)

end System

end ShouldIAsync.Lib
