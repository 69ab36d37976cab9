import ShouldIAsync.IntelProcTrace.FullSyscalls
import ShouldIAsync.Lib.Asof
import Mathlib.Data.List.Pairwise

/-!
# `on_cpu_syscalls` of `events_prep`

The start of each range is a system call that is entered or a context switch in view, its end
the next return of a system call or context switch in view. Two starts in a row have one end,
and so overlap; the check afterwards looks at the ranges one by one, for a range from switch
to switch and for one from a call to the return of another.

That leaves two ways for ranges to overlap: the process is switched to outside of a system call
and then makes one, and a system call is made within another before the process is switched
away from. In both each range is one the check lets pass.
-/

namespace ShouldIAsync.IntelProcTrace

open ShouldIAsync.Lib

/-- `time BETWEEN {start_ns} AND {end_ns}` -/
def View.Between (view : View) (time : Int) : Prop := view.startNs ≤ time ∧ time ≤ view.endNs

instance (view : View) : DecidablePred view.Between := fun _ => inferInstanceAs (Decidable (_ ∧ _))

/-- A row of `range_starts` or `range_ends`. Rows whose time is NULL are left out: no comparison
holds of them, so the join does not match them. -/
structure Bound where
  time : Int
  name : Option String
  callId : Option Nat
  deriving DecidableEq

/-- `in_view_context_switches`, from the column `smio_call_time` of `context_switches` -/
def inViewContextSwitches (view : View) (switches : List (Option Int)) : List Bound :=
  ((switches.filterMap id).filter view.Between).map fun time => ⟨time, none, none⟩

/-- The rows of `range_starts` and `range_ends`, for the one column that they differ in. -/
def rangeBounds (view : View) (syscalls : List FullSyscall) (switches : List (Option Int))
    (time : FullSyscall → Option Int) : List Bound :=
  inViewContextSwitches view switches ++
    syscalls.filterMap fun row => (time row).map fun time =>
      ⟨time, row.syscallKernelName, some row.callId⟩

/-- `range_starts` -/
def rangeStarts (view : View) (syscalls : List FullSyscall) (switches : List (Option Int)) :
    List Bound :=
  rangeBounds view syscalls switches FullSyscall.callTime

/-- `range_ends` -/
def rangeEnds (view : View) (syscalls : List FullSyscall) (switches : List (Option Int)) :
    List Bound :=
  rangeBounds view syscalls switches FullSyscall.returnTime

/-- A row of `on_cpu_syscalls` -/
structure OnCpuSyscall where
  starts : Bound
  ends : Bound
  deriving DecidableEq

/-- `on_cpu_syscalls` -/
def onCpuSyscalls (asof : Asof Bound.time) (view : View) (syscalls : List FullSyscall)
    (switches : List (Option Int)) : List OnCpuSyscall :=
  (rangeStarts view syscalls switches).filterMap fun starts =>
    (asof.pick (fun time => starts.time < time) (rangeEnds view syscalls switches)).map fun ends =>
      ⟨starts, ends⟩

/-- The range touches the view. -/
def OnCpuSyscall.Touches (view : View) (row : OnCpuSyscall) : Prop :=
  view.Between row.starts.time ∨ view.Between row.ends.time

instance (view : View) : DecidablePred (OnCpuSyscall.Touches view) :=
  fun _ => inferInstanceAs (Decidable (_ ∨ _))

/-- The second half of the condition of the check. -/
def OnCpuSyscall.inconsistent (row : OnCpuSyscall) : Bool :=
  match row.starts.callId, row.ends.callId with
  | none, none => true
  | some startsCallId, some endsCallId => startsCallId != endsCallId
  | _, _ => false

/-- `assert_df` -/
def assertDf (asof : Asof Bound.time) (view : View) (syscalls : List FullSyscall)
    (switches : List (Option Int)) : List OnCpuSyscall :=
  ((onCpuSyscalls asof view syscalls switches).filter fun row =>
    decide (row.Touches view) && row.inconsistent).insertionSort fun row row' =>
      row.starts.time ≤ row'.starts.time

/-! ## When ranges overlap -/

/-- One of the ranges ends before the other starts. -/
def OnCpuSyscall.Disjoint (row row' : OnCpuSyscall) : Prop :=
  row.ends.time ≤ row'.starts.time ∨ row'.ends.time ≤ row.starts.time

instance : DecidableRel OnCpuSyscall.Disjoint := fun _ _ => inferInstanceAs (Decidable (_ ∨ _))

/-- System calls with an id each, that are entered before they return, and all times are
distinct. -/
structure Intervals (syscalls : List FullSyscall) (switches : List (Option Int)) : Prop where
  ids : (syscalls.map FullSyscall.callId).Nodup
  ordered : ∀ row ∈ syscalls, ∃ callTime returnTime, row.callTime = some callTime ∧
    row.returnTime = some returnTime ∧ callTime < returnTime
  distinct : (syscalls.filterMap FullSyscall.callTime ++
    syscalls.filterMap FullSyscall.returnTime ++ switches.filterMap id).Nodup

/-- Between the times there is no context switch in view, and no return. -/
structure Uninterrupted (view : View) (syscalls : List FullSyscall) (switches : List (Option Int))
    (start stop : Int) : Prop where
  switches : ∀ time, some time ∈ switches → view.Between time → ¬ (start < time ∧ time < stop)
  returns : ∀ row ∈ syscalls, ∀ time, row.returnTime = some time → ¬ (start < time ∧ time < stop)

/-- After a context switch in view a system call is entered and returns, with nothing but calls
in between: the process was not in a system call. -/
def SwitchedToOutside (view : View) (syscalls : List FullSyscall) (switches : List (Option Int)) :
    Prop :=
  ∃ time, some time ∈ switches ∧ view.Between time ∧ ∃ row ∈ syscalls, ∃ callTime returnTime,
    row.callTime = some callTime ∧ row.returnTime = some returnTime ∧ time < callTime ∧
    (view.Between callTime ∨ view.Between returnTime) ∧
    Uninterrupted view syscalls switches time returnTime

/-- After a system call another one is entered and then there is a context switch in view, with
nothing but calls in between: the process was in both. -/
def SwitchedFromNested (view : View) (syscalls : List FullSyscall) (switches : List (Option Int)) :
    Prop :=
  ∃ outer ∈ syscalls, ∃ inner ∈ syscalls, ∃ outerTime innerTime, outer.callTime = some outerTime ∧
    inner.callTime = some innerTime ∧ outerTime < innerTime ∧ ∃ time, some time ∈ switches ∧
    view.Between time ∧ innerTime < time ∧ Uninterrupted view syscalls switches outerTime time

/-! ## The bounds -/

section

variable {asof : Asof Bound.time} {view : View} {syscalls : List FullSyscall}
    {switches : List (Option Int)}
  {time : FullSyscall → Option Int} {b e : Bound} {r r' : OnCpuSyscall}

theorem mem_inViewContextSwitches : b ∈ inViewContextSwitches view switches ↔
    ∃ time, some time ∈ switches ∧ view.Between time ∧ b = ⟨time, none, none⟩ := by
  unfold inViewContextSwitches
  simp only [List.mem_map, List.mem_filter, List.mem_filterMap, id, exists_eq_right,
    decide_eq_true_eq, and_assoc, eq_comm (a := b)]

/-- The starts, or ends: a switch in view or a time of a call. -/
theorem mem_rangeBounds : b ∈ rangeBounds view syscalls switches time ↔
    (∃ t, some t ∈ switches ∧ view.Between t ∧ b = ⟨t, none, none⟩) ∨
    ∃ row ∈ syscalls, ∃ t, time row = some t ∧ b = ⟨t, row.syscallKernelName, some row.callId⟩ := by
  unfold rangeBounds
  rw [List.mem_append, mem_inViewContextSwitches, List.mem_filterMap]
  simp only [Option.map_eq_some_iff, eq_comm (a := b)]

theorem mem_rangeBounds_switch {t : Int} (ht : some t ∈ switches) (hview : view.Between t) :
    ⟨t, none, none⟩ ∈ rangeBounds view syscalls switches time :=
  mem_rangeBounds.mpr (.inl ⟨t, ht, hview, rfl⟩)

theorem mem_rangeBounds_call {row : FullSyscall} (hrow : row ∈ syscalls) {t : Int}
    (ht : time row = some t) :
    ⟨t, row.syscallKernelName, some row.callId⟩ ∈ rangeBounds view syscalls switches time :=
  mem_rangeBounds.mpr (.inr ⟨row, hrow, t, ht, rfl⟩)

/-- Nothing between two times is an end. -/
theorem uninterrupted_iff {start stop : Int} : Uninterrupted view syscalls switches start stop ↔
    ∀ e ∈ rangeEnds view syscalls switches, ¬ (start < e.time ∧ e.time < stop) := by
  constructor
  · intro h e he
    rcases mem_rangeBounds.mp he with ⟨t, ht, hview, rfl⟩ | ⟨row, hrow, t, ht, rfl⟩
    · exact h.switches t ht hview
    · exact h.returns row hrow t ht
  · intro h
    exact ⟨fun t ht hview => h _ (mem_rangeBounds_switch ht hview),
      fun row hrow t ht => h _ (mem_rangeBounds_call hrow ht)⟩

theorem map_time_rangeBounds : (rangeBounds view syscalls switches time).map Bound.time =
    (switches.filterMap id).filter view.Between ++ syscalls.filterMap time := by
  unfold rangeBounds inViewContextSwitches
  rw [List.map_append, List.map_map, List.map_filterMap]
  congr 1
  · exact List.map_id _
  · refine List.filterMap_congr fun row _ => ?_
    cases time row <;> rfl

/-- The bounds have distinct times if the times of their calls are and no switch is among them. -/
theorem nodup_rangeBounds (hdistinct : (syscalls.filterMap time ++ switches.filterMap id).Nodup) :
    ((rangeBounds view syscalls switches time).map Bound.time).Nodup := by
  rw [map_time_rangeBounds]
  have hswap := (List.perm_append_comm.nodup_iff).mp hdistinct
  exact hswap.sublist (List.filter_sublist.append (List.Sublist.refl _))

/-- No two starts are at the same time. -/
theorem Intervals.nodup_starts (h : Intervals syscalls switches) :
    ((rangeStarts view syscalls switches).map Bound.time).Nodup := by
  refine nodup_rangeBounds (h.distinct.sublist ?_)
  exact (List.sublist_append_left _ _).append (List.Sublist.refl _)

theorem Intervals.nodup_ends (h : Intervals syscalls switches) :
    ((rangeEnds view syscalls switches).map Bound.time).Nodup := by
  refine nodup_rangeBounds (h.distinct.sublist ?_)
  exact (List.sublist_append_right _ _).append (List.Sublist.refl _)

/-! ## The ranges -/

/-- The end of a range is the next one. -/
theorem nearest_of_mem (hr : r ∈ onCpuSyscalls asof view syscalls switches) :
    r.starts ∈ rangeStarts view syscalls switches ∧
      Nearest Bound.time (fun t =>
        r.starts.time < t) (rangeEnds view syscalls switches) r.ends := by
  obtain ⟨starts, hstarts, hrow⟩ := List.mem_filterMap.mp hr
  obtain ⟨ends, hpick, rfl⟩ := Option.map_eq_some_iff.mp hrow
  exact ⟨hstarts, asof.nearest hpick⟩

/-- A start with a next end has a range. -/
theorem mem_of_nearest (h : Intervals syscalls switches)
    (hb : b ∈ rangeStarts view syscalls switches)
    (he : Nearest Bound.time (fun t => b.time < t) (rangeEnds view syscalls switches) e) :
    ⟨b, e⟩ ∈ onCpuSyscalls asof view syscalls switches := by
  obtain ⟨e', hpick⟩ := asof.matched he.mem he.fits
  obtain rfl := (asof.nearest hpick).unique h.nodup_ends he
  exact List.mem_filterMap.mpr ⟨b, hb, by rw [hpick]; rfl⟩

/-- The ranges are disjoint if and only if each ends before the next one starts. -/
theorem pairwise_disjoint_iff (h : Intervals syscalls switches) :
    ((onCpuSyscalls asof view syscalls switches).filter fun row => row.Touches view).Pairwise
      OnCpuSyscall.Disjoint ↔
    ∀ r ∈ onCpuSyscalls asof view syscalls switches,
      ∀ r' ∈ onCpuSyscalls asof view syscalls switches,
      r.Touches view → r'.Touches view → r.starts.time < r'.starts.time →
        r.ends.time ≤ r'.starts.time := by
  constructor
  · intro hpair r hr r' hr' htouch htouch' hlt
    have hsymm : Std.Symm OnCpuSyscall.Disjoint := ⟨fun _ _ => Or.symm⟩
    have hne : r ≠ r' := by
      rintro rfl
      exact lt_irrefl _ hlt
    have hdisjoint := hpair.forall (List.mem_filter.mpr ⟨hr, decide_eq_true htouch⟩)
      (List.mem_filter.mpr ⟨hr', decide_eq_true htouch'⟩) hne
    have hends' := (nearest_of_mem hr').2.fits
    unfold OnCpuSyscall.Disjoint at hdisjoint
    omega
  · intro hall
    have hnodup : (onCpuSyscalls asof view syscalls switches).Nodup := by
      refine h.nodup_starts.of_map.filterMap ?_
      intro b b' r hr hr'
      obtain ⟨e, -, rfl⟩ := Option.map_eq_some_iff.mp hr
      obtain ⟨e', -, heq⟩ := Option.map_eq_some_iff.mp hr'
      cases heq
      rfl
    refine (hnodup.filter _).pairwise_of_forall_ne ?_
    intro r hr r' hr' hne
    rw [List.mem_filter, decide_eq_true_eq] at hr hr'
    obtain ⟨hstarts, hnear⟩ := nearest_of_mem hr.1
    obtain ⟨hstarts', hnear'⟩ := nearest_of_mem hr'.1
    rcases lt_trichotomy r.starts.time r'.starts.time with hlt | heq | hlt
    · exact .inl (hall r hr.1 r' hr'.1 hr.2 hr'.2 hlt)
    · -- with one start they would have one end
      have hsame : r.starts = r'.starts :=
        List.inj_on_of_nodup_map h.nodup_starts hstarts hstarts' heq
      rw [hsame] at hnear
      refine absurd ?_ hne
      cases r
      cases r'
      rw [OnCpuSyscall.mk.injEq]
      exact ⟨hsame, hnear.unique h.nodup_ends hnear'⟩
    · exact .inr (hall r' hr'.1 r hr.1 hr'.2 hr.2 hlt)

/-- What the check says. -/
theorem assertDf_eq_nil : assertDf asof view syscalls switches = [] ↔
    ∀ r ∈ onCpuSyscalls asof view syscalls switches, r.Touches view → r.inconsistent = false := by
  unfold assertDf
  rw [← List.length_eq_zero_iff, (List.perm_insertionSort _ _).length_eq, List.length_eq_zero_iff,
    List.filter_eq_nil_iff]
  simp only [Bool.and_eq_true, decide_eq_true_eq, not_and, Bool.not_eq_true]

/-- Two ranges with one end: the later start is not a switch, as that would be an end. -/
theorem overlap_of_lt (h : Intervals syscalls switches)
    (hr : r ∈ onCpuSyscalls asof view syscalls switches)
    (hr' : r' ∈ onCpuSyscalls asof view syscalls switches) (hlt : r.starts.time < r'.starts.time)
    (hover : r'.starts.time < r.ends.time) :
    r'.ends = r.ends ∧ Uninterrupted view syscalls switches r.starts.time r.ends.time ∧
      ∃ row ∈ syscalls, ∃ t, row.callTime = some t ∧
        r'.starts = ⟨t, row.syscallKernelName, some row.callId⟩ := by
  obtain ⟨-, hnear⟩ := nearest_of_mem hr
  obtain ⟨hstarts', hnear'⟩ := nearest_of_mem hr'
  have hnone : ∀ e ∈ rangeEnds view syscalls switches, ¬ (r.starts.time < e.time ∧
      e.time < r.ends.time) := by
    intro e he hbetween
    have hle := hnear.least e he hbetween.1
    omega
  refine ⟨hnear'.unique h.nodup_ends (hnear.later hlt.le hover), uninterrupted_iff.mpr hnone, ?_⟩
  rcases mem_rangeBounds.mp hstarts' with ⟨t, ht, hview, heq⟩ | hcall
  · have hend : r'.starts ∈ rangeEnds view syscalls switches := by
      rw [heq]
      exact mem_rangeBounds_switch ht hview
    exact absurd ⟨hlt, hover⟩ (hnone _ hend)
  · exact hcall

/-! ## What the check misses -/

/-- A range that passes the check and ends at a context switch starts at a call, and one that
ends at a return starts at a switch or at its own call. -/
theorem consistent_cases (h : Intervals syscalls switches)
    (hr : r ∈ onCpuSyscalls asof view syscalls switches) (hpass : r.inconsistent = false) :
    (∃ row ∈ syscalls, ∃ t, row.callTime = some t ∧
      r.starts = ⟨t, row.syscallKernelName, some row.callId⟩ ∧
      ∃ t', some t' ∈ switches ∧ view.Between t' ∧ r.ends = ⟨t', none, none⟩) ∨
    (∃ row ∈ syscalls, ∃ t', row.returnTime = some t' ∧
      r.ends = ⟨t', row.syscallKernelName, some row.callId⟩ ∧
      ((∃ t, some t ∈ switches ∧ view.Between t ∧ r.starts = ⟨t, none, none⟩) ∨
        ∃ t, row.callTime = some t ∧ r.starts = ⟨t, row.syscallKernelName, some row.callId⟩)) := by
  obtain ⟨hstarts, hnear⟩ := nearest_of_mem hr
  unfold OnCpuSyscall.inconsistent at hpass
  rcases mem_rangeBounds.mp hstarts with ⟨t, ht, hview, hs⟩ | ⟨row, hrow, t, ht, hs⟩ <;>
    rcases mem_rangeBounds.mp hnear.mem with ⟨t', ht', hview', he⟩ | ⟨row', hrow', t', ht', he⟩ <;>
    rw [hs, he] at hpass
  · cases hpass
  · exact .inr ⟨row', hrow', t', ht', he, .inl ⟨t, ht, hview, hs⟩⟩
  · exact .inl ⟨row, hrow, t, ht, hs, t', ht', hview', he⟩
  · obtain rfl : row = row' := List.inj_on_of_nodup_map h.ids hrow hrow' (by simpa using hpass)
    exact .inr ⟨row, hrow, t', ht', he, .inr ⟨t, ht, hs⟩⟩

/-- **Ranges that pass the check and overlap come about in one of the two ways.** -/
theorem missed_of_overlap (h : Intervals syscalls switches)
    (hcheck : ∀ r ∈ onCpuSyscalls asof view syscalls switches, r.Touches view →
      r.inconsistent = false)
    (hr : r ∈ onCpuSyscalls asof view syscalls switches)
      (hr' : r' ∈ onCpuSyscalls asof view syscalls switches)
    (htouch : r.Touches view) (htouch' : r'.Touches view) (hlt : r.starts.time < r'.starts.time)
    (hover : r'.starts.time < r.ends.time) :
    SwitchedToOutside view syscalls switches ∨ SwitchedFromNested view syscalls switches := by
  obtain ⟨hends, hquiet, inner, hinner, innerTime, hcall, hstarts'⟩ :=
    overlap_of_lt h hr hr' hlt hover
  rw [hstarts'] at hlt hover
  rcases consistent_cases h hr (hcheck r hr htouch) with
    ⟨outer, houter, t, ht, hstarts, t', ht', hview', hswitch⟩ | ⟨row, hrow, t', ht', hreturn, hfrom⟩
  · -- both end at a switch
    rw [hstarts, hswitch] at hquiet
    rw [hstarts] at hlt
    rw [hswitch] at hover
    exact .inr ⟨outer, houter, inner, hinner, t, innerTime, ht, hcall, hlt, t', ht', hview',
      hover, hquiet⟩
  · -- both end at a return, that of the later start
    have hsame : inner = row := by
      have hpass := hcheck r' hr' htouch'
      unfold OnCpuSyscall.inconsistent at hpass
      rw [hstarts', hends, hreturn] at hpass
      exact List.inj_on_of_nodup_map h.ids hinner hrow (by simpa using hpass)
    subst hsame
    rcases hfrom with ⟨t, ht, hview, hstarts⟩ | ⟨t, ht, hstarts⟩
    · rw [hstarts, hreturn] at hquiet
      rw [hstarts] at hlt
      unfold OnCpuSyscall.Touches at htouch'
      rw [hstarts', hends, hreturn] at htouch'
      exact .inl ⟨t, ht, hview, inner, hinner, innerTime, t', hcall, ht', hlt, htouch', hquiet⟩
    · rw [hcall] at ht
      obtain rfl := Option.some.inj ht
      rw [hstarts] at hlt
      exact absurd hlt (lt_irrefl _)

/-- Two starts before one end have overlapping ranges. -/
theorem overlap_of_starts (h : Intervals syscalls switches) {b' : Bound}
    (hb : b ∈ rangeStarts view syscalls switches) (hb' : b' ∈ rangeStarts view syscalls switches)
    (he : e ∈ rangeEnds view syscalls switches) (hlt : b.time < b'.time) (hlt' : b'.time < e.time)
    (hquiet : Uninterrupted view syscalls switches b.time e.time)
    (htouch : (⟨b, e⟩ : OnCpuSyscall).Touches view)
      (htouch' : (⟨b', e⟩ : OnCpuSyscall).Touches view) :
    ¬ ∀ r ∈ onCpuSyscalls asof view syscalls switches,
      ∀ r' ∈ onCpuSyscalls asof view syscalls switches,
      r.Touches view → r'.Touches view → r.starts.time < r'.starts.time →
        r.ends.time ≤ r'.starts.time := by
  intro hall
  have hnear : Nearest Bound.time (fun t => b.time < t) (rangeEnds view syscalls switches) e := by
    refine ⟨he, hlt.trans hlt', fun e' he' hafter => ?_⟩
    exact le_of_not_gt fun hbefore => uninterrupted_iff.mp hquiet e' he' ⟨hafter, hbefore⟩
  have hle := hall _ (mem_of_nearest h hb hnear) _ (mem_of_nearest h hb' (hnear.later hlt.le hlt'))
    htouch htouch' hlt
  exact absurd hlt' (not_lt_of_ge hle)

/-- **Where the check passes the ranges that touch the view do not overlap if and only if the
process is neither switched to outside of a system call that it makes next, nor switched away
from within two of them**: for all system calls, context switches and bounds. -/
theorem on_cpu_syscalls_iff (asof : Asof Bound.time) (view : View) (syscalls : List FullSyscall)
    (switches : List (Option Int)) (h : Intervals syscalls switches)
    (hcheck : assertDf asof view syscalls switches = []) :
    ((onCpuSyscalls asof view syscalls switches).filter fun row => row.Touches view).Pairwise
      OnCpuSyscall.Disjoint ↔
    ¬ SwitchedToOutside view syscalls switches ∧ ¬ SwitchedFromNested view syscalls switches := by
  rw [pairwise_disjoint_iff h]
  constructor
  · intro hall
    refine ⟨?_, ?_⟩
    · rintro ⟨t, ht, hview, row, hrow, callTime, returnTime, hcall, hreturn, hlt, htouch, hquiet⟩
      obtain ⟨c, r, hc, hr, hordered⟩ := h.ordered row hrow
      rw [hcall] at hc
      rw [hreturn] at hr
      cases hc
      cases hr
      exact overlap_of_starts h (mem_rangeBounds_switch ht hview) (mem_rangeBounds_call hrow hcall)
        (mem_rangeBounds_call hrow hreturn) hlt hordered hquiet (.inl hview) htouch hall
    · rintro ⟨outer, houter, inner, hinner, outerTime, innerTime, hcall, hcall', hlt,
        t, ht, hview, hlt', hquiet⟩
      exact overlap_of_starts h (mem_rangeBounds_call houter hcall)
        (mem_rangeBounds_call hinner hcall')
        (mem_rangeBounds_switch ht hview) hlt hlt' hquiet (.inr hview) (.inr hview) hall
  · rintro ⟨houtside, hnested⟩ r hr r' hr' htouch htouch' hlt
    refine le_of_not_gt fun hover => ?_
    rcases missed_of_overlap h (assertDf_eq_nil.mp hcheck) hr hr' htouch htouch' hlt hover
      with hmissed | hmissed
    · exact houtside hmissed
    · exact hnested hmissed

end

/-- A read from 10 to 40 with a context switch in it, at 20. -/
theorem on_cpu_syscalls_iff_read :
    ¬ SwitchedToOutside ⟨0, 100⟩ [⟨some 10, some 40, some "__x64_sys_read", 1⟩] [some 20] ∧
      ¬ SwitchedFromNested ⟨0, 100⟩ [⟨some 10, some 40, some "__x64_sys_read", 1⟩] [some 20] :=
  (on_cpu_syscalls_iff (Asof.first Bound.time)
    ⟨0, 100⟩ [⟨some 10, some 40, some "__x64_sys_read", 1⟩] [some 20]
    ⟨by decide, by simp, by decide⟩ (by decide)).mp (by decide)

/-- A process that is switched to and then makes a call: the ranges from 10 to 30 and from 20 to
30 both pass. -/
theorem switched_then_called :
    Intervals [⟨some 20, some 30, some "__x64_sys_read", 1⟩] [some 10] ∧
      assertDf (Asof.first Bound.time) ⟨0, 100⟩ [⟨some 20, some 30, some "__x64_sys_read", 1⟩]
        [some 10] = [] ∧
      ¬ ((onCpuSyscalls (Asof.first Bound.time) ⟨0, 100⟩ [⟨some 20, some 30,
        some "__x64_sys_read", 1⟩]
        [some 10]).filter fun row => row.Touches ⟨0, 100⟩).Pairwise OnCpuSyscall.Disjoint :=
  ⟨⟨by decide, by simp, by decide⟩, by decide, by decide⟩

end ShouldIAsync.IntelProcTrace
