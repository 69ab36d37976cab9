import ShouldIAsync.Lib.Asof
import Mathlib.Order.MinMax

/-!
# ASOF LEFT JOIN

`leftJoin` gives each row of the left table the next row of the right one, by their times, and
none if there is none after it. Two rows get the same time exactly if no row of the right table
lies between the two (`matched_ne_iff`), so the times of the rows matched are distinct exactly if
there always is one (`leftJoin_nodup_iff`).
-/

namespace ShouldIAsync.Lib

variable {α β : Type*} {key : α → ℤ}

/-- An `ASOF LEFT JOIN`: each row of the left with the one that is picked for it, or none. -/
def Asof.leftJoin (asof : Asof key) (time : β → ℤ) (left : List β) (right : List α) :
    List (β × Option α) :=
  left.map fun b => (b, asof.pick (fun t => time b < t) right)

/-- The rows of the right table after `s` are those after `s'`, if these are later. -/
theorem Nearest.key_eq_iff {s s' : ℤ} {l : List α} {a a' : α} (h : Nearest key (fun t => s < t) l a)
    (h' : Nearest key (fun t => s' < t) l a') (hle : s ≤ s') :
    key a = key a' ↔ ∀ b ∈ l, s < key b → s' < key b := by
  constructor
  · intro heq b hb hlt
    exact lt_of_lt_of_le (heq ▸ h'.fits) (h.least b hb hlt)
  · intro hall
    have hle' : key a' ≤ key a := h'.least a h.mem (hall a h.mem h.fits)
    have hge' : key a ≤ key a' := h.least a' h'.mem (lt_of_le_of_lt hle h'.fits)
    exact le_antisymm hge' hle'

/-- Some row of the right table lies between the two times, if there is one after both. -/
def Separated (key : α → ℤ) (l : List α) (s s' : ℤ) : Prop :=
  (∃ a ∈ l, max s s' < key a) → ∃ a ∈ l, min s s' < key a ∧ key a ≤ max s s'

/-- It does not matter which of the two is named first. -/
theorem Separated.symm {l : List α} {s s' : ℤ} (h : Separated key l s s') :
    Separated key l s' s := by
  unfold Separated at *
  rw [max_comm s' s, min_comm s' s]
  exact h

namespace Asof

variable (asof : Asof key) {time : β → ℤ} {left : List β} {right : List α}

/-- Nothing is picked after the last key. -/
theorem pick_none {s : ℤ} (h : asof.pick (fun t => s < t) right = none) (a : α) (ha : a ∈ right) :
    key a ≤ s := by
  by_contra hlt
  obtain ⟨b, hb⟩ : ∃ b, asof.pick (fun t => s < t) right = some b := asof.matched ha (not_le.mp hlt)
  rw [h] at hb
  cases hb

/-- Two rows in order have different matches exactly if a key separates them. -/
theorem matched_ne_of_le {s s' : ℤ} (hle : s ≤ s') :
    (∀ a, asof.pick (fun t => s < t) right = some a →
      ∀ a', asof.pick (fun t => s' < t) right = some a' →
      key a ≠ key a') ↔ Separated key right s s' := by
  unfold Separated
  rw [max_eq_right hle, min_eq_left hle]
  constructor
  · rintro hne ⟨a₀, ha₀, hlt₀⟩
    obtain ⟨a', ha'⟩ : ∃ a', asof.pick (fun t => s' < t) right = some a' := asof.matched ha₀ hlt₀
    obtain ⟨a, ha⟩ : ∃ a, asof.pick (fun t => s < t) right = some a :=
      asof.matched ha₀ (lt_of_le_of_lt hle hlt₀)
    have hkeys := hne a ha a' ha'
    rw [ne_eq, (asof.nearest ha).key_eq_iff (asof.nearest ha') hle] at hkeys
    push Not at hkeys
    obtain ⟨b, hb, hlt, hle'⟩ := hkeys
    exact ⟨b, hb, hlt, hle'⟩
  · intro hsep a ha a' ha' heq
    have hnear := asof.nearest ha'
    obtain ⟨b, hb, hlt, hle'⟩ := hsep ⟨a', hnear.mem, hnear.fits⟩
    have hafter := ((asof.nearest ha).key_eq_iff hnear hle).mp heq b hb hlt
    exact absurd hafter (not_lt.mpr hle')

/-- **Two rows have different matches exactly if a key separates them.** -/
theorem matched_ne_iff (s s' : ℤ) :
    (∀ a, asof.pick (fun t => s < t) right = some a →
      ∀ a', asof.pick (fun t => s' < t) right = some a' →
      key a ≠ key a') ↔ Separated key right s s' := by
  rcases le_total s s' with hle | hle
  · exact asof.matched_ne_of_le hle
  · constructor
    · intro hne
      exact ((asof.matched_ne_of_le hle).mp fun a ha a' ha' => (hne a' ha' a ha).symm).symm
    · intro hsep a ha a' ha'
      exact ((asof.matched_ne_of_le hle).mpr hsep.symm a' ha' a ha).symm

/-- **The matched times are distinct** exactly if every two rows of the left table are separated. -/
theorem leftJoin_nodup_iff (left : List β) :
    ((asof.leftJoin time left right).filterMap fun row => row.2.map key).Nodup ↔
      left.Pairwise fun b b' => Separated key right (time b) (time b') := by
  unfold leftJoin List.Nodup
  rw [List.filterMap_map, List.pairwise_filterMap]
  refine List.Pairwise.iff fun {b b'} => ?_
  rw [← asof.matched_ne_iff]
  simp only [Function.comp_apply, Option.map_eq_some_iff]
  constructor
  · intro h a ha a' ha'
    exact h (key a) ⟨a, ha, rfl⟩ (key a') ⟨a', ha', rfl⟩
  · rintro h k ⟨a, ha, rfl⟩ k' ⟨a', ha', rfl⟩
    exact h a ha a' ha'

/-- A row of the join, with what it is matched with. -/
theorem mem_leftJoin {row : β × Option α} (h : row ∈ asof.leftJoin time left right) :
    row.1 ∈ left ∧ (∀ a, row.2 = some a → Nearest key (fun t => time row.1 < t) right a) ∧
      (row.2 = none → ∀ a ∈ right, key a ≤ time row.1) := by
  obtain ⟨b, hb, rfl⟩ := List.mem_map.mp h
  exact ⟨hb, fun a ha => asof.nearest ha, fun hnone => asof.pick_none hnone⟩

end Asof

end ShouldIAsync.Lib
