import Mathlib.Data.List.Basic
import Mathlib.Data.Int.Order.Basic

/-!
# Intervals end to end

`Tiles start stop p l`: the intervals `[start, stop)` of the list lie end to end from the point
`p` on. They may be empty. Every point from `p` up to the last end is in exactly one of them, and
all others are in none (`Tiles.length_filter`).
-/

namespace ShouldIAsync.Lib

variable {α : Type*} {start stop : α → ℤ}

/-- From `p` on, each element starts where the one before stops. -/
def Tiles (start stop : α → ℤ) : ℤ → List α → Prop
  | _, [] => True
  | p, a :: l => start a = p ∧ p ≤ stop a ∧ Tiles start stop (stop a) l

/-- Where the intervals end. -/
def tilesEnd (stop : α → ℤ) : ℤ → List α → ℤ
  | p, [] => p
  | _, a :: l => tilesEnd stop (stop a) l

/-- The interval has the point. -/
def inTile (start stop : α → ℤ) (x : ℤ) (a : α) : Bool := decide (start a ≤ x ∧ x < stop a)

/-- An element has what lies between its start and its stop. -/
theorem inTile_iff {x : ℤ} {a : α} : inTile start stop x a = true ↔ start a ≤ x ∧ x < stop a :=
  decide_eq_true_iff

namespace Tiles

variable {p x : ℤ} {l : List α}

/-- The end is not before the start. -/
theorem le_end (h : Tiles start stop p l) : p ≤ tilesEnd stop p l := by
  induction l generalizing p with
  | nil => exact le_refl p
  | cons a l ih =>
    obtain ⟨-, hle, hl⟩ := h
    exact le_trans hle (ih hl)

/-- An interval lies between the first point and the last. -/
theorem between (h : Tiles start stop p l) {a : α} (ha : a ∈ l) :
    p ≤ start a ∧ start a ≤ stop a ∧ stop a ≤ tilesEnd stop p l := by
  induction l generalizing p with
  | nil => cases ha
  | cons b l ih =>
    obtain ⟨hstart, hle, hl⟩ := h
    rcases List.mem_cons.mp ha with rfl | ha
    · exact ⟨le_of_eq hstart.symm, hstart ▸ hle, hl.le_end⟩
    · obtain ⟨hp, hab, hend⟩ := ih hl ha
      exact ⟨le_trans hle hp, hab, hend⟩

/-- Outside of them there is no element. -/
theorem filter_eq_nil (h : Tiles start stop p l) (hx : x < p ∨ tilesEnd stop p l ≤ x) :
    l.filter (inTile start stop x) = [] := by
  refine List.filter_eq_nil_iff.mpr fun a ha hin => ?_
  obtain ⟨hp, -, hend⟩ := h.between ha
  obtain ⟨hlo, hhi⟩ := inTile_iff.mp hin
  omega

/-- **The intervals tile**: exactly one of them has the point. -/
theorem length_filter (h : Tiles start stop p l) (hlo : p ≤ x) (hhi : x < tilesEnd stop p l) :
    (l.filter (inTile start stop x)).length = 1 := by
  induction l generalizing p with
  | nil => exact absurd hhi (not_lt.mpr hlo)
  | cons a l ih =>
    obtain ⟨hstart, hle, hl⟩ := h
    by_cases hx : x < stop a
    · have hin : inTile start stop x a = true := inTile_iff.mpr ⟨hstart ▸ hlo, hx⟩
      rw [List.filter_cons_of_pos hin, hl.filter_eq_nil (Or.inl hx)]
      rfl
    · have hout : ¬ inTile start stop x a = true := fun hin => hx (inTile_iff.mp hin).2
      rw [List.filter_cons_of_neg hout]
      exact ih hl (not_lt.mp hx) hhi

/-- An interval that ends after a point without having it starts after one that does. -/
theorem stop_le (h : Tiles start stop p l) {a b : α} (ha : a ∈ l) (hb : b ∈ l)
    (hin : start a ≤ x ∧ x < stop a) (hafter : x < stop b) : stop a ≤ stop b := by
  induction l generalizing p with
  | nil => cases ha
  | cons c l ih =>
    obtain ⟨hstart, hle, hl⟩ := h
    rcases List.mem_cons.mp ha with rfl | ha'
    · rcases List.mem_cons.mp hb with rfl | hb
      · exact le_refl _
      · obtain ⟨hp, hbb, -⟩ := hl.between hb
        exact le_trans hp hbb
    · rcases List.mem_cons.mp hb with rfl | hb
      · have hp := (hl.between ha').1
        omega
      · exact ih hl ha' hb

/-- An interval starts at the first point, or where another one ends. -/
theorem exists_stop_eq (h : Tiles start stop p l) {a : α} (ha : a ∈ l) (hlt : p < start a) :
    ∃ b ∈ l, stop b = start a := by
  induction l generalizing p with
  | nil => cases ha
  | cons c l ih =>
    obtain ⟨hstart, -, hl⟩ := h
    rcases List.mem_cons.mp ha with rfl | ha
    · exact absurd hlt (not_lt.mpr (le_of_eq hstart))
    · rcases lt_or_eq_of_le (hl.between ha).1 with hlt' | heq
      · obtain ⟨b, hb, hstop⟩ := ih hl ha hlt'
        exact ⟨b, List.mem_cons_of_mem _ hb, hstop⟩
      · exact ⟨c, List.mem_cons_self, heq⟩

/-- No interval starts inside another one. -/
theorem apart (h : Tiles start stop p l) {a b : α} (ha : a ∈ l) (hb : b ∈ l) :
    start b ≤ start a ∨ stop a ≤ start b := by
  induction l generalizing p with
  | nil => cases ha
  | cons c l ih =>
    obtain ⟨hstart, hle, hl⟩ := h
    rcases List.mem_cons.mp ha with rfl | ha'
    · rcases List.mem_cons.mp hb with rfl | hb
      · exact Or.inl (le_refl _)
      · exact Or.inr (hl.between hb).1
    · rcases List.mem_cons.mp hb with rfl | hb
      · exact Or.inl (hstart ▸ le_trans hle (hl.between ha').1)
      · exact ih hl ha' hb

end Tiles

/-! ## Rows up to the next one -/

/-- `lead` of the rows in their order -/
def withLead : List α → List (α × Option α)
  | [] => []
  | a :: l => (a, l.head?) :: withLead l

/-- A row ends where the next one starts, and the last one where it starts itself. -/
def leadEnd (key : α → ℤ) (row : α × Option α) : ℤ := (row.2.map key).getD (key row.1)

variable {key : α → ℤ} {l : List α} {a : α}

theorem exists_mem_withLead (h : a ∈ l) : ∃ next, (a, next) ∈ withLead l := by
  induction l with
  | nil => cases h
  | cons b l ih =>
    rcases List.mem_cons.mp h with rfl | h
    · exact ⟨_, List.mem_cons_self⟩
    · obtain ⟨next, hnext⟩ := ih h
      exact ⟨next, List.mem_cons_of_mem _ hnext⟩

/-- In order, the elements tile with their successors. -/
theorem tiles_withLead (h : (a :: l).Pairwise fun b b' => key b ≤ key b') :
    Tiles (fun row => key row.1) (leadEnd key) (key a) (withLead (a :: l)) := by
  induction l generalizing a with
  | nil => exact ⟨rfl, le_refl _, trivial⟩
  | cons b l ih =>
    obtain ⟨hle, hl⟩ := List.pairwise_cons.mp h
    exact ⟨rfl, hle b List.mem_cons_self, ih hl⟩

end ShouldIAsync.Lib
