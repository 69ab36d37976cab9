import ShouldIAsync.IntelProcTrace.OnCpuSyscalls
import ShouldIAsync.Lib.AsofJoin

/-!
# `context_switches` of `events_prep`

The kernel prepares a task switch in one call and switches the address space in another, which
comes after it. Each call of `prepare_task_switch` is joined with the next `switch_mm_irqs_off`,
if there is one.

A switch without one of its own, between threads of one process say, gets the one of a later
switch, and that one is listed twice then. `on_cpu_syscalls` takes the times listed for times of
different events: that they are is the case exactly if there is a `switch_mm_irqs_off` between
every two switches prepared (`context_switches_distinct_iff`).
-/

namespace ShouldIAsync.IntelProcTrace

open ShouldIAsync.Lib

/-- A row of `symbols`, with the object it is in. -/
structure DsoSymbol extends Symbol where
  dsoId : Nat

/-- A row of `dsos`. -/
structure Dso where
  id : Nat
  shortName : String

/-- The tables the queries for kernel calls look at. -/
structure KernelTables where
  calls : List Call
  callPaths : List CallPath
  symbols : List DsoSymbol
  dsos : List Dso

namespace KernelTables

/-- The row of `symbols` that the LEFT JOINs give a call. -/
def symbolOf (t : KernelTables) (c : Call) : Option DsoSymbol :=
  (t.callPaths.find? fun path => path.id = c.callPathId).bind fun path =>
    t.symbols.find? fun symbol => symbol.id = path.symbolId

/-- `symbols.name = '{name}' AND dsos.short_name = '[kernel.kallsyms]'`; neither holds of NULL. -/
def isKernelCall (t : KernelTables) (name : String) (c : Call) : Bool :=
  match t.symbolOf c with
  | none => false
  | some symbol =>
    symbol.name = name ∧ (t.dsos.find? fun dso => dso.id = symbol.dsoId).map Dso.shortName =
      some "[kernel.kallsyms]"

def prepareTaskSwitch (t : KernelTables) : List Call :=
  t.calls.filter (t.isKernelCall "prepare_task_switch")

def switchMmIrqsOff (t : KernelTables) : List Call :=
  t.calls.filter (t.isKernelCall "switch_mm_irqs_off")

end KernelTables

/-- A row of `context_switches`; the `smio_` columns are NULL if there is no such call. -/
structure ContextSwitch where
  ptsCallId : Nat
  ptsCallTime : Int
  ptsCallReturnTime : Int
  smioCallId : Option Nat
  smioCallTime : Option Int
  smioCallReturnTime : Option Int
  deriving DecidableEq

/-- The columns of `context_switches`. -/
def ContextSwitch.ofCalls (row : Call × Option Call) : ContextSwitch where
  ptsCallId := row.1.id
  ptsCallTime := row.1.callTime
  ptsCallReturnTime := row.1.returnTime
  smioCallId := row.2.map Call.id
  smioCallTime := row.2.map Call.callTime
  smioCallReturnTime := row.2.map Call.returnTime

/-- `context_switches` -/
def contextSwitches (asof : Asof Call.callTime) (t : KernelTables) : List ContextSwitch :=
  (asof.leftJoin Call.callTime t.prepareTaskSwitch t.switchMmIrqsOff).map ContextSwitch.ofCalls

/-- Between the two switches prepared there is a `switch_mm_irqs_off`, if there is one after both.
-/
def KernelTables.SwitchBetween (t : KernelTables) (pts pts' : Call) : Prop :=
  Separated Call.callTime t.switchMmIrqsOff pts.callTime pts'.callTime

/-- The row of a task switch prepared: the next `switch_mm_irqs_off` after it, or NULL if none is.
-/
inductive KernelTables.IsSwitch (t : KernelTables) (pts : Call) (row : ContextSwitch) : Prop
  | next (smio : Call)
      (hnear : Nearest Call.callTime (fun time => pts.callTime < time) t.switchMmIrqsOff smio)
      (heq : row = ContextSwitch.ofCalls (pts, some smio))
  | null (hnone : ∀ smio ∈ t.switchMmIrqsOff, smio.callTime ≤ pts.callTime)
      (heq : row = ContextSwitch.ofCalls (pts, none))

variable (asof : Asof Call.callTime) (t : KernelTables)

/-- The times that `on_cpu_syscalls` reads are those of the second call. -/
theorem smioCallTime_contextSwitches :
    (contextSwitches asof t).filterMap ContextSwitch.smioCallTime =
    (asof.leftJoin Call.callTime t.prepareTaskSwitch t.switchMmIrqsOff).filterMap
      fun row => row.2.map Call.callTime := by
  rw [contextSwitches, List.filterMap_map]
  rfl

/-- Each task switch prepared has its row. -/
theorem contextSwitches_isSwitch :
    List.Forall₂ t.IsSwitch t.prepareTaskSwitch (contextSwitches asof t) := by
  rw [contextSwitches, Asof.leftJoin, List.map_map, List.forall₂_map_right_iff, List.forall₂_same]
  intro pts hpts
  cases hpick : asof.pick (fun time => pts.callTime < time) t.switchMmIrqsOff with
  | none =>
    exact .null (asof.pick_none hpick) (congrArg (fun smio =>
      ContextSwitch.ofCalls (pts, smio)) hpick)
  | some smio =>
    exact .next smio (asof.nearest hpick) (congrArg (fun smio =>
      ContextSwitch.ofCalls (pts, smio)) hpick)

/-- **The times of the context switches are distinct** exactly if there is a `switch_mm_irqs_off`
between every two task switches prepared (and after both at all), whichever rows the join takes
among rows of the same time. In whatever order the rows come, there is one for each task switch
prepared, with the next `switch_mm_irqs_off` after it, and with NULL exactly if there is none. -/
theorem context_switches_distinct_iff {rows : List ContextSwitch}
    (hrows : rows.Perm (contextSwitches asof t)) :
    (∃ switches, rows.Perm switches ∧ List.Forall₂ t.IsSwitch t.prepareTaskSwitch switches) ∧
    ((rows.filterMap ContextSwitch.smioCallTime).Nodup ↔
      t.prepareTaskSwitch.Pairwise t.SwitchBetween) := by
  refine ⟨⟨_, hrows, contextSwitches_isSwitch asof t⟩, ?_⟩
  rw [(hrows.filterMap ContextSwitch.smioCallTime).nodup_iff, smioCallTime_contextSwitches]
  exact asof.leftJoin_nodup_iff t.prepareTaskSwitch

/-- Two task switches prepared before one `switch_mm_irqs_off`, and one after it: its time is there
twice, and NULL once. -/
theorem context_switches_twice : ∃ t : KernelTables,
    t.prepareTaskSwitch.map Call.callTime = [10, 20, 40] ∧
    t.switchMmIrqsOff.map Call.callTime = [30] ∧
    ∀ rows : List ContextSwitch, rows.Perm (contextSwitches (Asof.first Call.callTime) t) →
      ¬ (rows.filterMap ContextSwitch.smioCallTime).Nodup := by
  refine ⟨⟨[⟨1, 0, 1, 10, 15⟩, ⟨2, 0, 1, 20, 25⟩, ⟨3, 0, 2, 30, 35⟩, ⟨4, 0, 1, 40, 45⟩],
    [⟨1, 1⟩, ⟨2, 2⟩], [⟨⟨1, "prepare_task_switch"⟩, 1⟩, ⟨⟨2, "switch_mm_irqs_off"⟩, 1⟩],
    [⟨1, "[kernel.kallsyms]"⟩]⟩, by decide, by decide, fun rows hrows => ?_⟩
  rw [(context_switches_distinct_iff _ _ hrows).2]
  intro hpairwise
  have hbetween := (List.pairwise_cons.mp hpairwise).1 ⟨2, 0, 1, 20, 25⟩ (by decide)
  obtain ⟨smio, hmem, hlt, hle⟩ := hbetween ⟨⟨3, 0, 2, 30, 35⟩, by decide, by decide⟩
  obtain rfl : smio = ⟨3, 0, 2, 30, 35⟩ := by
    revert smio
    decide
  revert hle
  decide

end ShouldIAsync.IntelProcTrace
