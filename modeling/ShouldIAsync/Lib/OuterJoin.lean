import Mathlib.Data.List.Basic

/-!
# LEFT OUTER JOIN

`leftOuterJoin` gives each row of the left table every row of the right one it matches, and none
if there is no such row. The rows it leaves alone are those without a match, each once
(`filter_leftOuterJoin`).
-/

namespace ShouldIAsync.Lib

variable {α β : Type*} {on : α → β → Bool}

/-- A `LEFT OUTER JOIN`. -/
def leftOuterJoin (on : α → β → Bool) (left : List α) (right : List β) : List (α × Option β) :=
  left.flatMap fun a =>
    match right.filter (on a) with
    | [] => [(a, none)]
    | matched => matched.map fun b => (a, some b)

/-- The rows of the left table without a match. -/
def unmatched (on : α → β → Bool) (left : List α) (right : List β) : List α :=
  left.filter fun a => !right.any (on a)

/-- The rows of one row of the left table. -/
theorem filter_matched {a : α} {right matched : List β} (h : right.filter (on a) = matched) :
    (match matched with
      | [] => [(a, none)]
      | matched => matched.map fun b => (a, some b)).filter (fun row => row.2.isNone) =
    (if !right.any (on a) then [(a, none)] else []) := by
  cases matched with
  | nil =>
    rw [List.filter_eq_nil_iff] at h
    rw [if_pos]
    · rfl
    · rw [Bool.not_eq_true', List.any_eq_false]
      exact h
  | cons b matched =>
    have hb : b ∈ right.filter (on a) := h ▸ List.mem_cons_self
    obtain ⟨hmem, hon⟩ := List.mem_filter.mp hb
    rw [if_neg]
    · refine List.filter_eq_nil_iff.mpr fun row hrow => ?_
      obtain ⟨b', -, rfl⟩ := List.mem_map.mp hrow
      exact Bool.false_ne_true
    · rw [Bool.not_eq_true', Bool.not_eq_false, List.any_eq_true]
      exact ⟨b, hmem, hon⟩

/-- The rows without a match. -/
theorem filter_leftOuterJoin (left : List α) (right : List β) :
    (leftOuterJoin on left right).filter (fun row => row.2.isNone) =
      (unmatched on left right).map fun a => (a, none) := by
  induction left with
  | nil => rfl
  | cons a left ih =>
    unfold leftOuterJoin unmatched at *
    rw [List.flatMap_cons, List.filter_append, ih, filter_matched rfl, List.filter_cons]
    split
    · rfl
    · rfl

/-- Every row of the left table has a match. -/
theorem unmatched_eq_nil {left : List α} {right : List β} :
    unmatched on left right = [] ↔ ∀ a ∈ left, ∃ b ∈ right, on a b = true := by
  unfold unmatched
  rw [List.filter_eq_nil_iff]
  refine forall₂_congr fun a _ => ?_
  rw [Bool.not_eq_true', Bool.not_eq_false, List.any_eq_true]

end ShouldIAsync.Lib
