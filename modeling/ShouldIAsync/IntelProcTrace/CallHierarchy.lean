import ShouldIAsync.Lib.Recursive
import Mathlib.Data.List.Perm.Subperm

/-!
# `call_hierarchy` of `events_prep`

A trace's calls with the ids of their callers, and the recursive query that puts each call
with all its ancestors into a group: the call itself at depth 0, its parent at depth 1, and
so on up to the call with id 0, which stands for an unknown caller.

In a forest the query ends after as many rounds as there are calls
(`callHierarchy_ends`), and a group is a call and its ancestors, nearest first
(`callHierarchy_group`).
-/

namespace ShouldIAsync.IntelProcTrace

open ShouldIAsync.Lib

/-- A row of `calls`. -/
structure Call where
  id : Nat
  parentId : Nat
  callPathId : Nat
  callTime : Int
  returnTime : Int
  deriving DecidableEq, Repr

/-- A row of `call_paths`. -/
structure CallPath where
  id : Nat
  symbolId : Nat

/-- A row of `symbols`. -/
structure Symbol where
  id : Nat
  name : String

/-- The tables of an export that the query reads. -/
structure Trace where
  calls : List Call
  callPaths : List CallPath
  symbols : List Symbol

/-- The symbol of a call, `none` for NULL: what the LEFT JOINs with `call_paths` and with
`symbols`, both on the primary key, give its row. -/
def Trace.symbol (t : Trace) (c : Call) : Option String :=
  ((t.callPaths.find? fun path => path.id = c.callPathId).bind fun path =>
    t.symbols.find? fun symbol => symbol.id = path.symbolId).map (·.name)

/-- A row of `call_hierarchy`; the columns of the call are the call. -/
structure HierarchyRow where
  groupId : Nat
  depth : Nat
  call : Call

/-- The join of the recursive step, for one call. -/
def Call.parents (calls : List Call) (child : Call) : List Call :=
  -- 0 has parent_id 0, so filter this out so that it terminates
  if child.id ≠ 0 then calls.filter fun parent => child.parentId = parent.id else []

/-- The recursive part of the query. -/
def HierarchyRow.parents (calls : List Call) (child : HierarchyRow) : List HierarchyRow :=
  (child.call.parents calls).map fun parent =>
    { groupId := child.groupId, depth := child.depth + 1, call := parent }

/-- Its first part. -/
def HierarchyRow.base (c : Call) : HierarchyRow where
  groupId := c.id
  depth := 0
  call := c

/-- `call_hierarchy` -/
def callHierarchy (calls : List Call) : Option (List HierarchyRow) :=
  withRecursive (HierarchyRow.parents calls) calls.length (calls.map HierarchyRow.base)

/-! ## Forests -/

/-- Following parent links from the call with this id leads to the id 0. -/
inductive Rooted (calls : List Call) : Nat → Prop
  | root : Rooted calls 0
  | call {c : Call} (hc : c ∈ calls) (h : Rooted calls c.parentId) : Rooted calls c.id

/-- `p` is the parent of `c`; the call with id 0 has none. -/
structure Parent (calls : List Call) (c p : Call) : Prop where
  ne_root : c.id ≠ 0
  mem : p ∈ calls
  link : c.parentId = p.id

/-- The parent links form a forest rooted at id 0. -/
structure Forest (calls : List Call) : Prop where
  ids : (calls.map Call.id).Nodup
  rooted : ∀ c ∈ calls, Rooted calls c.id

/-- `l` is the call and its ancestors. -/
abbrev Ancestry (calls : List Call) (c : Call) (l : List Call) : Prop :=
  Path (Call.parents calls) c l

variable {calls : List Call} {c p : Call} {l : List Call}

/-- The parents of a call are the calls with its parent id, but for the root. -/
theorem mem_parents : p ∈ c.parents calls ↔ Parent calls c p := by
  unfold Call.parents
  split
  next hid =>
    rw [List.mem_filter, decide_eq_true_iff]
    exact ⟨fun h => ⟨hid, h.1, h.2⟩, fun h => ⟨h.mem, h.link⟩⟩
  next hid => exact ⟨fun h => absurd h List.not_mem_nil, fun h => absurd h.ne_root hid⟩

theorem parent_of_parents (h : c.parents calls = [p]) : Parent calls c p :=
  mem_parents.mp (h ▸ List.mem_singleton_self p)

/-- An id is that of one call. -/
theorem Forest.eq_of_id (h : Forest calls) {a b : Call} (ha : a ∈ calls) (hb : b ∈ calls)
    (hid : a.id = b.id) : a = b :=
  List.inj_on_of_nodup_map h.ids ha hb hid

/-- There is one parent at most. -/
theorem Parent.unique (h : Forest calls) {p' : Call} (hp : Parent calls c p)
    (hp' : Parent calls c p') :
    p = p' :=
  h.eq_of_id hp.mem hp'.mem (hp.link.symm.trans hp'.link)

/-- Of the calls, those with the id of one of them are that one. -/
theorem Forest.filter_id (h : Forest calls) (hc : c ∈ calls) :
    (calls.filter fun a => c.id = a.id) = [c] := by
  have hnodup : (calls.filter fun a => c.id = a.id).Nodup := (List.Nodup.of_map _ h.ids).filter _
  rw [← List.perm_singleton, List.perm_ext_iff_of_nodup hnodup (List.nodup_singleton c)]
  intro a
  rw [List.mem_filter, decide_eq_true_iff, List.mem_singleton]
  constructor
  · rintro ⟨ha, hid⟩
    exact h.eq_of_id ha hc hid.symm
  · rintro rfl
    exact ⟨hc, rfl⟩

/-- The join with a parent gives this one row. -/
theorem Parent.parents_eq (h : Forest calls) (hp : Parent calls c p) : c.parents calls = [p] := by
  unfold Call.parents
  rw [if_pos hp.ne_root, hp.link]
  exact h.filter_id hp.mem

/-- The ancestry goes on with that of the parent. -/
theorem Parent.ancestry (h : Forest calls) (hp : Parent calls c p) (hl : Ancestry calls c l) :
    ∃ l', l = c :: l' ∧ Ancestry calls p l' := by
  cases hl with
  | last hnone => simp [hp.parents_eq h] at hnone
  | step hsome hl' =>
    obtain rfl := List.singleton_inj.mp ((hp.parents_eq h).symm.trans hsome)
    exact ⟨_, rfl, hl'⟩

/-- The root has no ancestors. -/
theorem ancestry_root (hroot : c.id = 0) (hl : Ancestry calls c l) : l = [c] := by
  have hnone : c.parents calls = [] := if_neg (not_not_intro hroot)
  exact hl.unique (.last hnone)

/-- All calls have ancestries: the induction follows the links to the root. -/
theorem Forest.exists_ancestry (h : Forest calls) (hc : c ∈ calls) : ∃ l, Ancestry calls c l := by
  have hrooted : ∀ {id : Nat}, Rooted calls id → ∀ c ∈ calls, c.id = id →
      ∃ l, Ancestry calls c l := by
    intro id hid
    induction hid with
    | root =>
      intro c _ hroot
      exact ⟨[c], .last (if_neg (not_not_intro hroot))⟩
    | call ha _ ih =>
      intro c hc hid
      obtain rfl := h.eq_of_id hc ha hid
      by_cases hp : ∃ p, Parent calls c p
      · obtain ⟨p, hp⟩ := hp
        obtain ⟨l, hl⟩ := ih p hp.mem hp.link.symm
        exact ⟨c :: l, .step (hp.parents_eq h) hl⟩
      · refine ⟨[c], .last (List.eq_nil_iff_forall_not_mem.mpr ?_)⟩
        intro p hmem
        exact hp ⟨p, mem_parents.mp hmem⟩
  exact hrooted (h.rooted c hc) c hc rfl

/-- All ancestors are calls of the table. -/
theorem ancestry_mem (hc : c ∈ calls) (hl : Ancestry calls c l) {a : Call} (ha : a ∈ l) :
    a ∈ calls := by
  induction hl with
  | last =>
    obtain rfl := List.mem_singleton.mp ha
    exact hc
  | step hsome _ ih =>
    rcases List.mem_cons.mp ha with rfl | ha
    · exact hc
    · exact ih (parent_of_parents hsome).mem ha

/-- There are no more of them than calls. -/
theorem ancestry_length (hc : c ∈ calls) (hl : Ancestry calls c l) : l.length ≤ calls.length :=
  (List.subperm_of_subset hl.nodup fun _ ha => ancestry_mem hc hl ha).length_le

/-! ## Groups -/

/-- The rows of a group for consecutive ancestors. -/
def hierarchyRows (groupId : Nat) : Nat → List Call → List HierarchyRow
  | _, [] => []
  | depth, c :: l => ⟨groupId, depth, c⟩ :: hierarchyRows groupId (depth + 1) l

theorem length_hierarchyRows (g d : Nat) (l : List Call) :
    (hierarchyRows g d l).length = l.length := by
  induction l generalizing d with
  | nil => rfl
  | cons c l ih => rw [hierarchyRows, List.length_cons, ih, List.length_cons]

theorem map_call_hierarchyRows (g d : Nat) (l : List Call) :
    (hierarchyRows g d l).map HierarchyRow.call = l := by
  induction l generalizing d with
  | nil => rfl
  | cons c l ih => rw [hierarchyRows, List.map_cons, ih]

theorem depth_le_of_mem {g d : Nat} {r : HierarchyRow} (h : r ∈ hierarchyRows g d l) :
    d ≤ r.depth := by
  induction l generalizing d with
  | nil => cases h
  | cons c l ih =>
    rcases List.mem_cons.mp h with rfl | h
    · exact Nat.le_refl _
    · exact Nat.le_of_succ_le (ih h)

/-- The rows are in the order of their depth. -/
theorem hierarchyRows_sorted (g d : Nat) (l : List Call) :
    (hierarchyRows g d l).Pairwise fun r r' => r.depth ≤ r'.depth := by
  induction l generalizing d with
  | nil => exact List.Pairwise.nil
  | cons c l ih =>
    rw [hierarchyRows, List.pairwise_cons]
    exact ⟨fun r hr => Nat.le_of_succ_le (depth_le_of_mem hr), ih (d + 1)⟩

/-- The rows that come from one row are those of the ancestry. -/
theorem path_hierarchyRows (hl : Ancestry calls c l) (g d : Nat) :
    Path (HierarchyRow.parents calls) ⟨g, d, c⟩ (hierarchyRows g d l) := by
  induction hl generalizing d with
  | last hnone =>
    refine .last ?_
    unfold HierarchyRow.parents
    rw [hnone, List.map_nil]
  | step hsome _ ih =>
    refine .step ?_ (ih (d + 1))
    unfold HierarchyRow.parents
    rw [hsome, List.map_singleton]

/-- No more rows than calls. -/
theorem hierarchyRows_length (hc : c ∈ calls) (hl : Ancestry calls c l) :
    (hierarchyRows c.id 0 l).length ≤ calls.length := by
  rw [length_hierarchyRows]
  exact ancestry_length hc hl

/-- **The query ends.** -/
theorem callHierarchy_ends (h : Forest calls) : ∃ rows, callHierarchy calls = some rows := by
  refine withRecursive_ends fun r hr => ?_
  obtain ⟨c, hc, rfl⟩ := List.mem_map.mp hr
  obtain ⟨l, hl⟩ := h.exists_ancestry hc
  exact ⟨_, path_hierarchyRows hl c.id 0, hierarchyRows_length hc hl⟩

/-- The group stays that of the call it began with. -/
theorem groupId_of_mem_parents {r r' : HierarchyRow} (h : r' ∈ r.parents calls) :
    r'.groupId = r.groupId := by
  obtain ⟨p, -, rfl⟩ := List.mem_map.mp h
  rfl

/-- **A group is a call and its ancestors.** -/
theorem callHierarchy_group (h : Forest calls) {rows : List HierarchyRow}
    (hrows : callHierarchy calls = some rows) (hc : c ∈ calls) (hl : Ancestry calls c l) :
    (rows.filter fun r => c.id = r.groupId) = hierarchyRows c.id 0 l := by
  have hgroup := withRecursive_filter (fun r : HierarchyRow => decide (c.id = r.groupId))
    (fun r r' hr' => by rw [groupId_of_mem_parents hr']) hrows
  have hbase : (calls.map HierarchyRow.base).filter (fun r => decide (c.id = r.groupId)) =
      [HierarchyRow.base c] := by
    rw [List.filter_map]
    exact congrArg (List.map HierarchyRow.base) (h.filter_id hc)
  rw [hbase] at hgroup
  have hpath := withRecursive_path (path_hierarchyRows hl c.id 0) (hierarchyRows_length hc hl)
  exact Option.some.inj (hgroup.symm.trans hpath)

/-- The groups are those of the calls. -/
theorem callHierarchy_mem {rows : List HierarchyRow} (hrows : callHierarchy calls = some rows)
    {r : HierarchyRow} (hr : r ∈ rows) : ∃ c ∈ calls, c.id = r.groupId := by
  have hkept := withRecursive_filter (fun r : HierarchyRow =>
    decide (r.groupId ∈ calls.map Call.id))
    (fun r r' hr' => by rw [groupId_of_mem_parents hr']) hrows
  have hbase : (calls.map HierarchyRow.base).filter (fun r =>
    decide (r.groupId ∈ calls.map Call.id)) =
      calls.map HierarchyRow.base := by
    rw [List.filter_eq_self]
    intro r hr
    obtain ⟨c, hc, rfl⟩ := List.mem_map.mp hr
    exact decide_eq_true (List.mem_map_of_mem hc)
  rw [hbase] at hkept
  have hself := Option.some.inj (hrows.symm.trans hkept)
  have hmem := of_decide_eq_true (List.filter_eq_self.mp hself.symm r hr)
  exact List.mem_map.mp hmem

end ShouldIAsync.IntelProcTrace
