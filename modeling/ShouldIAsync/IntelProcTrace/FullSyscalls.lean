import ShouldIAsync.IntelProcTrace.CallHierarchy
import Mathlib.Data.List.Sort
import Mathlib.Data.List.Dedup

/-!
# `full_syscalls` of `events_prep`

A call is taken for a system call if its symbol comes right below the three a system call is
made through: `x64_sys_call`, `do_syscall_64` and `entry_SYSCALL_64`. The query looks for
them at the positions 2 to 4 of its group, and for the times of the last at depth 3. But the
rows out of view have left the group before: where a call is out of view and its nearest
ancestor in view is a system call, the positions tell of the ancestor, the depth of the
call, and the call is listed as well.

As intervals are nested, what is in view of an ancestry is one stretch of it
(`visible_next`), so this is the only thing that goes wrong.
-/

namespace ShouldIAsync.IntelProcTrace

open ShouldIAsync.Lib

/-- `start_ns` and `end_ns` -/
structure View where
  startNs : Int
  endNs : Int

/-- The call begins or ends in the view. -/
def Call.InView (view : View) (c : Call) : Prop :=
  (view.startNs ≤ c.callTime ∧ c.callTime ≤ view.endNs) ∨
    (view.startNs ≤ c.returnTime ∧ c.returnTime ≤ view.endNs)

instance (view : View) : DecidablePred (Call.InView view) :=
  fun _ => inferInstanceAs (Decidable (_ ∨ _))

/-- A row of `full_syscalls`, with `none` for NULL. -/
structure FullSyscall where
  callTime : Option Int
  returnTime : Option Int
  syscallKernelName : Option String
  callId : Nat

/-- `list_slice(symbol_list, 2, 4)`, which counts from 1 and includes both ends, is that of
the symbols a system call is made through. -/
def IsSyscall (symbolList : List (Option String)) : Prop :=
  (symbolList.drop 1).take 3 = [some "x64_sys_call", some "do_syscall_64", some "entry_SYSCALL_64"]

instance (symbolList : List (Option String)) : Decidable (IsSyscall symbolList) :=
  inferInstanceAs (Decidable (_ = _))

/-- The row of a group, if it has one: `agged`, and the columns selected from it. -/
def Trace.agged (t : Trace) (groupId : Nat) (group : List HierarchyRow) : Option FullSyscall :=
  let symbolList := (group.insertionSort fun row row' => row.depth ≤ row'.depth).map fun row =>
    t.symbol row.call
  let syscallEntry := group.find? fun row => row.depth = 3
  if IsSyscall symbolList then
    some
      { callTime := syscallEntry.map (·.call.callTime)
        returnTime := syscallEntry.map (·.call.returnTime)
        syscallKernelName := symbolList.head?.join
        callId := groupId }
  else none

/-- `full_syscalls` -/
def Trace.fullSyscalls (t : Trace) (view : View) : Option (List FullSyscall) :=
  (callHierarchy t.calls).map fun rows =>
    let filtered := rows.filter fun row => row.call.InView view
    (filtered.map (·.groupId)).dedup.filterMap fun groupId =>
      t.agged groupId (filtered.filter fun row => groupId = row.groupId)

/-! ## What the table is to list -/

/-- The call is made through the three calls. -/
structure Trace.Syscall (t : Trace) (c x64SysCall doSyscall64 entry : Call) : Prop where
  parent : Parent t.calls c x64SysCall
  grandparent : Parent t.calls x64SysCall doSyscall64
  greatGrandparent : Parent t.calls doSyscall64 entry
  symbols : [t.symbol x64SysCall, t.symbol doSyscall64, t.symbol entry] =
    [some "x64_sys_call", some "do_syscall_64", some "entry_SYSCALL_64"]

/-- A system call all of whose frames are in view. -/
structure Trace.SyscallInView (t : Trace) (view : View) (c x64SysCall doSyscall64 entry : Call) :
    Prop
    extends t.Syscall c x64SysCall doSyscall64 entry where
  call_inView : c.InView view
  x64SysCall_inView : x64SysCall.InView view
  doSyscall64_inView : doSyscall64.InView view
  entry_inView : entry.InView view

/-- The row is about a system call, and has the times it was entered and left. -/
def FullSyscall.Right (t : Trace) (row : FullSyscall) : Prop :=
  ∃ c ∈ t.calls, c.id = row.callId ∧ ∃ x64SysCall doSyscall64 entry,
    t.Syscall c x64SysCall doSyscall64 entry ∧
      row.callTime = some entry.callTime ∧ row.returnTime = some entry.returnTime

/-- The rows are the system calls in view. -/
structure Trace.Lists (t : Trace) (view : View) (rows : List FullSyscall) : Prop where
  right : ∀ row ∈ rows, row.Right t
  distinct : (rows.map FullSyscall.callId).Nodup
  complete : ∀ c ∈ t.calls, ∀ x64SysCall doSyscall64 entry,
    t.SyscallInView view c x64SysCall doSyscall64 entry → ∃ row ∈ rows, row.callId = c.id

/-- The calls are a forest rooted at id 0, each within its parent. The call with id 0, which
stands for an unknown caller, need not span its calls if it is not the entry of a system
call. -/
structure Trace.Nested (t : Trace) : Prop extends Forest t.calls where
  ordered : ∀ c ∈ t.calls, c.callTime ≤ c.returnTime
  nested : ∀ c ∈ t.calls, ∀ p, Parent t.calls c p →
    (p.callTime ≤ c.callTime ∧ c.returnTime ≤ p.returnTime) ∨
      (p.id = 0 ∧ t.symbol p ≠ some "entry_SYSCALL_64")

/-- Of the ancestors of a call out of view the nearest one in view. -/
inductive NearestInView (calls : List Call) (view : View) : Call → Call → Prop
  | parent {c a : Call} (hout : ¬ c.InView view) (hp : Parent calls c a) (ha : a.InView view) :
      NearestInView calls view c a
  | up {c p a : Call} (hout : ¬ c.InView view) (hp : Parent calls c p)
      (h : NearestInView calls view p a) : NearestInView calls view c a

/-- No call out of view has a system call in view for its nearest ancestor in view. Excepted
are calls that are system calls themselves, with that ancestor for their entry. -/
def Trace.NoStragglers (t : Trace) (view : View) : Prop :=
  ∀ c ∈ t.calls, ∀ a x64SysCall doSyscall64 entry, NearestInView t.calls view c a →
    t.SyscallInView view a x64SysCall doSyscall64 entry →
      ∃ x64SysCall' doSyscall64', t.Syscall c x64SysCall' doSyscall64' a

/-! ## What is in view of an ancestry -/

variable {t : Trace} {view : View} {c p a : Call} {l rest : List Call}

theorem visible_cons_pos (hin : c.InView view) :
    (c :: l).filter (Call.InView view) = c :: l.filter (Call.InView view) :=
  List.filter_cons_of_pos (decide_eq_true hin)

theorem visible_cons_neg (hout : ¬ c.InView view) :
    (c :: l).filter (Call.InView view) = l.filter (Call.InView view) :=
  List.filter_cons_of_neg (fun hin => hout (of_decide_eq_true hin))

/-- Above the unknown caller there is nothing. -/
theorem root_visible (hroot : c.id = 0) (hl : Ancestry t.calls c l)
    (hvis : l.filter (Call.InView view) = a :: rest) : a = c ∧ rest = [] := by
  rw [ancestry_root hroot hl] at hvis
  by_cases hin : c.InView view
  · rw [visible_cons_pos hin, List.filter_nil] at hvis
    obtain ⟨rfl, rfl⟩ := List.cons.inj hvis
    exact ⟨rfl, rfl⟩
  · rw [visible_cons_neg hin] at hvis
    cases hvis

/-- Above a call that spans the view at most the unknown caller is in view. -/
theorem spanning_visible (h : t.Nested) (hc : c ∈ t.calls) (hl : Ancestry t.calls c l)
    (hcall : c.callTime < view.startNs) (hreturn : view.endNs < c.returnTime)
    (hvis : l.filter (Call.InView view) = a :: rest) :
    rest = [] ∧ t.symbol a ≠ some "entry_SYSCALL_64" := by
  have hout : ∀ {c : Call}, c.callTime < view.startNs → view.endNs < c.returnTime →
      ¬ c.InView view := by
    intro c hcall hreturn hin
    unfold Call.InView at hin
    omega
  induction hl with
  | last =>
    rw [visible_cons_neg (hout hcall hreturn)] at hvis
    cases hvis
  | step hsome hl ih =>
    rw [visible_cons_neg (hout hcall hreturn)] at hvis
    have hp := parent_of_parents hsome
    rcases h.nested _ hc _ hp with ⟨hle, hle'⟩ | ⟨hroot, hsymbol⟩
    · exact ih hp.mem (by omega) (by omega) hvis
    · obtain ⟨rfl, rfl⟩ := root_visible hroot hl hvis
      exact ⟨rfl, hsymbol⟩

/-- **What is in view of the ancestry of a call in view continues with its parent**: a parent
out of view spans the view, and so do all above it. -/
theorem visible_next (h : t.Nested) (hc : c ∈ t.calls) (hin : c.InView view)
    (hl : Ancestry t.calls c (c :: l)) (hvis : l.filter (Call.InView view) = a :: rest)
    (hmore : rest ≠ [] ∨ t.symbol a = some "entry_SYSCALL_64") :
    Parent t.calls c a ∧ a.InView view ∧ ∃ l', l = a :: l' ∧ Ancestry t.calls a (a :: l') ∧
      l'.filter (Call.InView view) = rest := by
  cases hl with
  | last => cases hvis
  | @step _ p _ hsome hl =>
    have hp := parent_of_parents hsome
    by_cases hpin : p.InView view
    · obtain ⟨l', rfl⟩ := hl.eq_cons
      rw [visible_cons_pos hpin] at hvis
      obtain ⟨rfl, hrest⟩ := List.cons.inj hvis
      exact ⟨hp, hpin, l', rfl, hl, hrest⟩
    · exfalso
      have hlast : rest = [] ∧ t.symbol a ≠ some "entry_SYSCALL_64" := by
        rcases h.nested c hc p hp with ⟨hle, hle'⟩ | ⟨hroot, hsymbol⟩
        · have hordered := h.ordered c hc
          have hspans : p.callTime < view.startNs ∧ view.endNs < p.returnTime := by
            unfold Call.InView at hin hpin
            omega
          exact spanning_visible h hp.mem hl hspans.1 hspans.2 hvis
        · obtain ⟨rfl, rfl⟩ := root_visible hroot hl hvis
          exact ⟨rfl, hsymbol⟩
      rcases hmore with hmore | hmore
      · exact hmore hlast.1
      · exact hlast.2 hmore

theorem not_isSyscall_nil : ¬ IsSyscall [] := by decide

/-- The frames of a system call, from the inside. -/
theorem isSyscall_cons {symbol : Option String} {symbolList : List (Option String)} :
    IsSyscall (symbol :: symbolList) ↔ ∃ rest, symbolList =
      some "x64_sys_call" :: some "do_syscall_64" :: some "entry_SYSCALL_64" :: rest := by
  unfold IsSyscall
  rw [List.drop_one, List.tail_cons]
  constructor
  · intro htake
    refine ⟨symbolList.drop 3, ?_⟩
    calc symbolList = symbolList.take 3 ++ symbolList.drop 3 :=
      (List.take_append_drop 3 symbolList).symm
      _ = _ := by rw [htake]; rfl
  · rintro ⟨rest, rfl⟩
    rfl

/-- Three calls in view above a call in view, with the symbols of a system call, are its
parent, its grandparent and its great-grandparent. -/
theorem syscall_of_visible (h : t.Nested) (hc : c ∈ t.calls) (hin : c.InView view)
    (hl : Ancestry t.calls c l)
    (hvis : IsSyscall ((l.filter (Call.InView view)).map t.symbol)) :
    ∃ x64SysCall doSyscall64 entry, t.SyscallInView view c x64SysCall doSyscall64 entry := by
  obtain ⟨l, rfl⟩ := hl.eq_cons
  rw [visible_cons_pos hin, List.map_cons] at hvis
  obtain ⟨symbols, hsymbols⟩ := isSyscall_cons.mp hvis
  obtain ⟨x, _, hx, hxs, hsymbols⟩ := List.map_eq_cons_iff.mp hsymbols
  obtain ⟨d, _, rfl, hds, hsymbols⟩ := List.map_eq_cons_iff.mp hsymbols
  obtain ⟨e, rest, rfl, hes, -⟩ := List.map_eq_cons_iff.mp hsymbols
  obtain ⟨hparent, hxin, l₁, rfl, hl₁, hvis₁⟩ :=
    visible_next h hc hin hl hx (Or.inl (List.cons_ne_nil _ _))
  obtain ⟨hgrand, hdin, l₂, rfl, hl₂, hvis₂⟩ :=
    visible_next h hparent.mem hxin hl₁ hvis₁ (Or.inl (List.cons_ne_nil _ _))
  obtain ⟨hgreat, hein, -⟩ := visible_next h hgrand.mem hdin hl₂ hvis₂ (Or.inr hes)
  exact ⟨x, d, e, ⟨hparent, hgrand, hgreat, by rw [hxs, hds, hes]⟩, hin, hxin, hdin, hein⟩

theorem Trace.Syscall.symbol_eq {x d e : Call} (hs : t.Syscall c x d e) :
    t.symbol x = some "x64_sys_call" ∧ t.symbol d = some "do_syscall_64" ∧
      t.symbol e = some "entry_SYSCALL_64" := by
  have hsymbols := hs.symbols
  rw [List.cons.injEq, List.cons.injEq, List.cons.injEq] at hsymbols
  exact ⟨hsymbols.1, hsymbols.2.1, hsymbols.2.2.1⟩

/-- The ancestry of a system call begins with its frames. -/
theorem Trace.Syscall.ancestry (h : Forest t.calls) {x d e : Call} (hs : t.Syscall c x d e)
    (hl : Ancestry t.calls c l) : ∃ l', l = c :: x :: d :: e :: l' := by
  obtain ⟨_, rfl, hl₁⟩ := hs.parent.ancestry h hl
  obtain ⟨_, rfl, hl₂⟩ := hs.grandparent.ancestry h hl₁
  obtain ⟨_, rfl, hl₃⟩ := hs.greatGrandparent.ancestry h hl₂
  obtain ⟨l', rfl⟩ := hl₃.eq_cons
  exact ⟨l', rfl⟩

/-- A system call in view is found. -/
theorem isSyscall_visible (h : Forest t.calls) {x d e : Call} (hs : t.SyscallInView view c x d e)
    (hl : Ancestry t.calls c l) : IsSyscall ((l.filter (Call.InView view)).map t.symbol) := by
  obtain ⟨l', rfl⟩ := hs.ancestry h hl
  rw [visible_cons_pos hs.call_inView, visible_cons_pos hs.x64SysCall_inView,
    visible_cons_pos hs.doSyscall64_inView, visible_cons_pos hs.entry_inView, List.map_cons,
      isSyscall_cons]
  obtain ⟨hx, hd, he⟩ := hs.symbol_eq
  exact ⟨(l'.filter (Call.InView view)).map t.symbol, by simp only [List.map_cons, hx, hd, he]⟩

/-- Of a call out of view the same is in view as of its nearest ancestor in view. -/
theorem NearestInView.visible (h : Forest t.calls) (hnear : NearestInView t.calls view c a)
    (hl : Ancestry t.calls c l) : ∃ l', Ancestry t.calls a l' ∧
      l.filter (Call.InView view) = l'.filter (Call.InView view) := by
  induction hnear generalizing l with
  | parent hout hp _ =>
    obtain ⟨l', rfl, hl'⟩ := hp.ancestry h hl
    exact ⟨l', hl', visible_cons_neg hout⟩
  | up hout hp _ ih =>
    obtain ⟨l', rfl, hl'⟩ := hp.ancestry h hl
    obtain ⟨l'', hl'', heq⟩ := ih hl'
    exact ⟨l'', hl'', (visible_cons_neg hout).trans heq⟩

/-- It is a call of the table, and in view. -/
theorem NearestInView.mem (hnear : NearestInView t.calls view c a) :
    a ∈ t.calls ∧ a.InView view := by
  induction hnear with
  | parent _ hp ha => exact ⟨hp.mem, ha⟩
  | up _ _ _ ih => exact ih

/-- A call out of view has a nearest ancestor in view, or none at all. -/
theorem exists_nearest (hl : Ancestry t.calls c l) (hout : ¬ c.InView view) :
    l.filter (Call.InView view) = [] ∨ ∃ a, NearestInView t.calls view c a := by
  induction hl with
  | last => exact Or.inl (visible_cons_neg hout)
  | @step _ p l hsome _ ih =>
    have hp := parent_of_parents hsome
    rw [visible_cons_neg hout]
    by_cases hpin : p.InView view
    · exact Or.inr ⟨p, .parent hout hp hpin⟩
    · exact (ih hpin).imp_right fun ⟨a, hnear⟩ => ⟨a, .up hout hp hnear⟩

/-- A call passes for a system call if it is one in view, or if it is out of view with one
for its nearest ancestor in view. -/
theorem isSyscall_visible_iff (h : t.Nested) (hc : c ∈ t.calls) (hl : Ancestry t.calls c l) :
    IsSyscall ((l.filter (Call.InView view)).map t.symbol) ↔
      ∃ a x64SysCall doSyscall64 entry, (a = c ∨ NearestInView t.calls view c a) ∧
        t.SyscallInView view a x64SysCall doSyscall64 entry := by
  constructor
  · intro hvis
    by_cases hin : c.InView view
    · obtain ⟨x, d, e, hs⟩ := syscall_of_visible h hc hin hl hvis
      exact ⟨c, x, d, e, Or.inl rfl, hs⟩
    · rcases exists_nearest hl hin with hnil | ⟨a, hnear⟩
      · rw [hnil] at hvis
        exact absurd hvis not_isSyscall_nil
      · obtain ⟨l', hl', heq⟩ := hnear.visible h.toForest hl
        rw [heq] at hvis
        obtain ⟨ha, hain⟩ := hnear.mem
        obtain ⟨x, d, e, hs⟩ := syscall_of_visible h ha hain hl' hvis
        exact ⟨a, x, d, e, Or.inr hnear, hs⟩
  · rintro ⟨a, x, d, e, rfl | hnear, hs⟩
    · exact isSyscall_visible h.toForest hs hl
    · obtain ⟨l', hl', heq⟩ := hnear.visible h.toForest hl
      rw [heq]
      exact isSyscall_visible h.toForest hs hl'

/-! ## The rows -/

/-- What is left of a group. -/
def visibleRows (view : View) (c : Call) (l : List Call) : List HierarchyRow :=
  (hierarchyRows c.id 0 l).filter fun row => row.call.InView view

/-- The visible rows are those of the visible ancestors. -/
theorem map_call_visibleRows (view : View) (c : Call) (l : List Call) :
    (visibleRows view c l).map HierarchyRow.call = l.filter (Call.InView view) := by
  have hmap := congrArg (List.filter (Call.InView view)) (map_call_hierarchyRows c.id 0 l)
  rw [List.filter_map] at hmap
  exact hmap

/-- The symbols of the group, in the order of depth. -/
theorem symbolList_visibleRows (t : Trace) (view : View) (c : Call) (l : List Call) :
    ((visibleRows view c l).insertionSort fun row row' => row.depth ≤ row'.depth).map
      (fun row => t.symbol row.call) = (l.filter (Call.InView view)).map t.symbol := by
  have hsorted : (visibleRows view c l).Pairwise fun row row' => row.depth ≤ row'.depth :=
    (hierarchyRows_sorted c.id 0 l).sublist List.filter_sublist
  rw [hsorted.insertionSort_eq, ← map_call_visibleRows, List.map_map]
  rfl

/-- The row at depth 3. -/
theorem find_depth (view : View) (c x d e : Call) (l : List Call) :
    (visibleRows view c (c :: x :: d :: e :: l)).find? (fun row => row.depth = 3) =
      if e.InView view then some ⟨c.id, 3, e⟩ else none := by
  unfold visibleRows
  rw [List.find?_filter]
  simp only [hierarchyRows]
  by_cases hin : e.InView view
  · rw [if_pos hin]
    simp [hin]
  · rw [if_neg hin]
    have habove : ∀ row ∈ hierarchyRows c.id 4 l, row.call.InView view → row.depth ≠ 3 := by
      intro row hrow _
      have hle := depth_le_of_mem hrow
      omega
    simpa [hin] using habove

/-- The row of a group. -/
theorem agged_eq_some {row : FullSyscall}
    (hrow : t.agged c.id (visibleRows view c l) = some row) :
    IsSyscall ((l.filter (Call.InView view)).map t.symbol) ∧ row.callId = c.id ∧
      row.callTime = ((visibleRows view c l).find? fun r => r.depth = 3).map (·.call.callTime) ∧
      row.returnTime = ((visibleRows view c l).find? fun r =>
        r.depth = 3).map (·.call.returnTime) := by
  unfold Trace.agged at hrow
  rw [symbolList_visibleRows] at hrow
  dsimp only at hrow
  split at hrow
  next hsyscall =>
    obtain rfl := Option.some.inj hrow
    exact ⟨hsyscall, rfl, rfl, rfl⟩
  next => cases hrow

/-- Of a system call in view the aggregation gives a row. -/
theorem exists_agged (hsyscall : IsSyscall ((l.filter (Call.InView view)).map t.symbol)) :
    ∃ row, t.agged c.id (visibleRows view c l) = some row := by
  unfold Trace.agged
  rw [symbolList_visibleRows, if_pos hsyscall]
  exact ⟨_, rfl⟩

/-- The rows of the table are those of the calls. -/
theorem mem_fullSyscalls (h : Forest t.calls) {out : List FullSyscall}
    (hout : t.fullSyscalls view = some out) {row : FullSyscall} : row ∈ out ↔
      ∃ c ∈ t.calls, ∃ l, Ancestry t.calls c l ∧ t.agged c.id (visibleRows view c l) =
        some row := by
  obtain ⟨rows, hrows, rfl⟩ := Option.map_eq_some_iff.mp hout
  have hgroup : ∀ {c : Call} {l : List Call}, c ∈ t.calls → Ancestry t.calls c l →
      ((rows.filter fun r => r.call.InView view).filter fun r => c.id = r.groupId) =
        visibleRows view c l := by
    intro c l hc hl
    rw [List.filter_comm, callHierarchy_group h hrows hc hl]
    rfl
  rw [List.mem_filterMap]
  constructor
  · rintro ⟨groupId, hid, hrow⟩
    obtain ⟨r, hr, rfl⟩ := List.mem_map.mp (List.mem_dedup.mp hid)
    obtain ⟨c, hc, heq⟩ := callHierarchy_mem hrows (List.mem_of_mem_filter hr)
    obtain ⟨l, hl⟩ := h.exists_ancestry hc
    rw [← heq, hgroup hc hl] at hrow
    exact ⟨c, hc, l, hl, hrow⟩
  · rintro ⟨c, hc, l, hl, hrow⟩
    refine ⟨c.id, ?_, by rw [hgroup hc hl]; exact hrow⟩
    have hne : visibleRows view c l ≠ [] := by
      intro hnil
      have hvis := (agged_eq_some hrow).1
      rw [← map_call_visibleRows, hnil] at hvis
      exact not_isSyscall_nil hvis
    obtain ⟨r, hr⟩ := List.exists_mem_of_ne_nil _ hne
    rw [← hgroup hc hl, List.mem_filter, decide_eq_true_iff] at hr
    rw [List.mem_dedup, hr.2]
    exact List.mem_map_of_mem hr.1

/-- No call is listed twice: it has one group. -/
theorem fullSyscalls_distinct {out : List FullSyscall} (hout : t.fullSyscalls view = some out) :
    (out.map FullSyscall.callId).Nodup := by
  obtain ⟨rows, -, rfl⟩ := Option.map_eq_some_iff.mp hout
  have hcallId : ∀ {groupId : Nat} {group : List HierarchyRow} {row : FullSyscall},
      t.agged groupId group = some row → row.callId = groupId := by
    intro groupId group row hrow
    unfold Trace.agged at hrow
    dsimp only at hrow
    split at hrow
    next => rw [← Option.some.inj hrow]
    next => cases hrow
  rw [List.Nodup, List.pairwise_map, List.pairwise_filterMap]
  refine List.Pairwise.imp ?_ (List.nodup_dedup _)
  intro g g' hne row hrow row' hrow'
  rw [hcallId hrow, hcallId hrow']
  exact hne

/-! ## The table -/

theorem NearestInView.out (hnear : NearestInView t.calls view c a) : ¬ c.InView view := by
  cases hnear with
  | parent hout => exact hout
  | up hout => exact hout

/-- A system call above which a system call comes next in view, and whose entry is in view:
the one next in view is the entry, or its symbols would be those of the wrong depth. -/
theorem NearestInView.eq_entry (h : Forest t.calls) {x d e x' d' e' : Call}
    (hnear : NearestInView t.calls view c a) (hs : t.SyscallInView view a x d e)
    (hs' : t.Syscall c x' d' e') (hin : e'.InView view) : a = e' := by
  obtain ⟨hx, -, -⟩ := hs.symbol_eq
  obtain ⟨-, hd', he'⟩ := hs'.symbol_eq
  rcases hnear with ⟨-, hp, -⟩ | ⟨-, hp, hnear⟩
  · -- the parent: its parent would be `d'`
    obtain rfl := hp.unique h hs'.parent
    obtain rfl := hs.parent.unique h hs'.grandparent
    rw [hd'] at hx
    exact absurd hx (by decide)
  · obtain rfl := hp.unique h hs'.parent
    rcases hnear with ⟨-, hp, -⟩ | ⟨-, hp, hnear⟩
    · -- the grandparent: its parent would be `e'`
      obtain rfl := hp.unique h hs'.grandparent
      obtain rfl := hs.parent.unique h hs'.greatGrandparent
      rw [he'] at hx
      exact absurd hx (by decide)
    · obtain rfl := hp.unique h hs'.grandparent
      rcases hnear with ⟨-, hp, -⟩ | ⟨-, hp, hnear⟩
      · exact hp.unique h hs'.greatGrandparent
      · obtain rfl := hp.unique h hs'.greatGrandparent
        exact absurd hin hnear.out

/-- **`full_syscalls` lists exactly the system calls in view if and only if no call out of
view has a system call in view for its nearest ancestor in view**, but for those that are
system calls with that ancestor for their entry: for all forests of nested calls and all
bounds. -/
theorem full_syscalls_iff (t : Trace) (view : View) (h : t.Nested) :
    ∃ rows, t.fullSyscalls view = some rows ∧ (t.Lists view rows ↔ t.NoStragglers view) := by
  obtain ⟨hierarchy, hhierarchy⟩ := callHierarchy_ends h.toForest
  obtain ⟨rows, hrows⟩ : ∃ rows, t.fullSyscalls view = some rows := by
    unfold Trace.fullSyscalls
    rw [hhierarchy]
    exact ⟨_, rfl⟩
  refine ⟨rows, hrows, ?_, ?_⟩
  · intro hlists c hc a x d e hnear hs
    obtain ⟨l, hl⟩ := h.exists_ancestry hc
    obtain ⟨row, hrow⟩ :=
      exists_agged ((isSyscall_visible_iff h hc hl).mpr ⟨a, x, d, e, Or.inr hnear, hs⟩)
    obtain ⟨-, hid, hcall, -⟩ := agged_eq_some hrow
    obtain ⟨c', hc', hid', x', d', e', hs', hentry, -⟩ :=
      hlists.right row ((mem_fullSyscalls h.toForest hrows).mpr ⟨c, hc, l, hl, hrow⟩)
    obtain rfl := h.eq_of_id hc' hc (hid'.trans hid)
    obtain ⟨l', rfl⟩ := hs'.ancestry h.toForest hl
    rw [find_depth, hentry] at hcall
    by_cases hin : e'.InView view
    · obtain rfl := hnear.eq_entry h.toForest hs hs' hin
      exact ⟨x', d', hs'⟩
    · rw [if_neg hin] at hcall
      cases hcall
  · intro hnone
    refine ⟨?_, fullSyscalls_distinct hrows, ?_⟩
    · intro row hrow
      obtain ⟨c, hc, l, hl, hrow⟩ := (mem_fullSyscalls h.toForest hrows).mp hrow
      obtain ⟨hsyscall, hid, hcall, hreturn⟩ := agged_eq_some hrow
      obtain ⟨a, x, d, e, hcase, hs⟩ := (isSyscall_visible_iff h hc hl).mp hsyscall
      obtain ⟨x', d', e', hs', hin⟩ : ∃ x' d' e', t.Syscall c x' d' e' ∧ e'.InView view := by
        rcases hcase with rfl | hnear
        · exact ⟨x, d, e, hs.toSyscall, hs.entry_inView⟩
        · obtain ⟨x', d', hs'⟩ := hnone c hc a x d e hnear hs
          exact ⟨x', d', a, hs', hs.call_inView⟩
      obtain ⟨l', rfl⟩ := hs'.ancestry h.toForest hl
      rw [find_depth, if_pos hin] at hcall hreturn
      exact ⟨c, hc, hid.symm, x', d', e', hs', hcall, hreturn⟩
    · intro c hc x d e hs
      obtain ⟨l, hl⟩ := h.exists_ancestry hc
      obtain ⟨row, hrow⟩ := exists_agged (isSyscall_visible h.toForest hs hl)
      exact ⟨row, (mem_fullSyscalls h.toForest hrows).mpr ⟨c, hc, l, hl, hrow⟩,
        (agged_eq_some hrow).2.1⟩

/-- A read from 100 to 200, and the call it makes from 140 to 150. -/
def readTrace : Trace where
  calls := [⟨0, 0, 0, 0, 0⟩, ⟨1, 0, 1, 100, 200⟩, ⟨2, 1, 2, 110, 190⟩, ⟨3, 2, 3, 120, 180⟩,
    ⟨4, 3, 4, 130, 170⟩, ⟨5, 4, 5, 140, 150⟩]
  callPaths := [⟨0, 0⟩, ⟨1, 1⟩, ⟨2, 2⟩, ⟨3, 3⟩, ⟨4, 4⟩, ⟨5, 5⟩]
  symbols := [⟨0, "unknown"⟩, ⟨1, "entry_SYSCALL_64"⟩, ⟨2, "do_syscall_64"⟩, ⟨3, "x64_sys_call"⟩,
    ⟨4, "__x64_sys_read"⟩, ⟨5, "ksys_read"⟩]

/-- The calls lie within each other. -/
theorem readTrace_nested : readTrace.Nested where
  ids := by decide
  rooted := by
    have hrooted : ∀ i ≤ 5, Rooted readTrace.calls i := by
      intro i
      induction i with
      | zero => exact fun _ => .root
      | succ i ih =>
        intro hi
        obtain ⟨c, hc, hid, hparent⟩ : ∃ c ∈ readTrace.calls, c.id = i + 1 ∧ c.parentId = i := by
          have hall : ∀ i < 5, ∃ c ∈ readTrace.calls, c.id = i + 1 ∧ c.parentId = i := by decide
          exact hall i hi
        rw [← hid]
        exact .call hc (hparent ▸ ih (Nat.le_of_succ_le hi))
    have hids : ∀ c ∈ readTrace.calls, c.id ≤ 5 := by decide
    exact fun c hc => hrooted c.id (hids c hc)
  ordered := by decide
  nested := by
    have hnested : ∀ c ∈ readTrace.calls, ∀ p ∈ readTrace.calls, c.parentId = p.id →
        (p.callTime ≤ c.callTime ∧ c.returnTime ≤ p.returnTime) ∨
          (p.id = 0 ∧ readTrace.symbol p ≠ some "entry_SYSCALL_64") := by decide
    exact fun c hc p hp => hnested c hc p hp.mem hp.link

/-- All of it in view, the read is listed. -/
theorem full_syscalls_iff_read :
    ∃ rows, readTrace.fullSyscalls ⟨90, 210⟩ = some rows ∧ readTrace.Lists ⟨90, 210⟩ rows := by
  obtain ⟨rows, hrows, hlists⟩ := full_syscalls_iff readTrace ⟨90, 210⟩ readTrace_nested
  refine ⟨rows, hrows, hlists.mpr ?_⟩
  intro c hc a x d e hnear
  have hroot : ∀ c ∈ readTrace.calls, ¬ c.InView ⟨90, 210⟩ → c.id = 0 := by decide
  rcases hnear with ⟨hout, hp, -⟩ | ⟨hout, hp, -⟩
  · exact absurd (hroot c hc hout) hp.ne_root
  · exact absurd (hroot c hc hout) hp.ne_root

/-- A view that starts between the return of the inner call and that of the read: the inner
call is listed as well, by its own id, with the times of `do_syscall_64`. -/
theorem straggler_listed :
    readTrace.Nested ∧ ∃ rows, readTrace.fullSyscalls ⟨160, 210⟩ = some rows ∧
    ⟨some 110, some 190, some "__x64_sys_read", 5⟩ ∈ rows ∧ ¬ readTrace.Lists ⟨160, 210⟩ rows := by
  refine ⟨readTrace_nested, [⟨some 100, some 200, some "__x64_sys_read", 4⟩,
    ⟨some 110, some 190, some "__x64_sys_read", 5⟩], by rfl,
      List.mem_cons_of_mem _ List.mem_cons_self, ?_⟩
  intro hlists
  obtain ⟨c, hc, hid, x, d, e, hs, -⟩ :=
    hlists.right ⟨some 110, some 190, some "__x64_sys_read", 5⟩
      (List.mem_cons_of_mem _ List.mem_cons_self)
  have hparent : ∀ c ∈ readTrace.calls, c.id = 5 → ∀ x ∈ readTrace.calls, c.parentId = x.id →
      readTrace.symbol x ≠ some "x64_sys_call" := by decide
  exact hparent c hc hid x hs.parent.mem hs.parent.link hs.symbol_eq.1

end ShouldIAsync.IntelProcTrace
