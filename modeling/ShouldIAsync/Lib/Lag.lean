import Mathlib.Data.List.Sort
import Mathlib.Data.Int.Order.Basic

/-!
# Differences to the row before

`withLag` gives each row of a list the difference of its key to that of the row before it,
and 0 to the first: SQL's `COALESCE(key - LAG(key) OVER (ORDER BY key), 0)` on rows in the
order of the key. On strictly increasing keys the intervals `(key - width, key]` tile what
lies between the first key and the last: no key lies inside one (`withLag_gap`), two of
them share no point (`withLag_disjoint`), and every point is in one (`withLag_cover`).
-/

namespace ShouldIAsync.Lib

variable {α : Type*} {key : α → ℤ} {prev : Option ℤ} {l : List α}

/-- Each row with the distance from the one before it, 0 for the first. -/
def withLag (key : α → ℤ) : Option ℤ → List α → List (α × ℤ)
  | _, [] => []
  | prev, a :: l => (a, (prev.map fun p => key a - p).getD 0) :: withLag key (some (key a)) l

/-- The point is in the interval of the row. -/
def InLag (key : α → ℤ) (row : α × ℤ) (c : ℤ) : Prop := key row.1 - row.2 < c ∧ c ≤ key row.1

theorem map_fst_withLag (prev : Option ℤ) (l : List α) : (withLag key prev l).map Prod.fst = l := by
  induction l generalizing prev with
  | nil => exact Eq.refl _
  | cons a l ih => rw [withLag, List.map_cons, ih]

theorem fst_mem_of_mem_withLag {row : α × ℤ} (h : row ∈ withLag key prev l) : row.1 ∈ l := by
  have hmap := List.mem_map_of_mem (f := Prod.fst) h
  rwa [map_fst_withLag] at hmap

/-- No key lies strictly inside the interval of a row; nor does the key before the list. -/
theorem withLag_gap (hsorted : (l.map key).Pairwise (· < ·)) {row : α × ℤ}
    (h : row ∈ withLag key prev l) :
    (∀ a ∈ l, key a < key row.1 → key a ≤ key row.1 - row.2) ∧
      (∀ p, prev = some p → (∀ a ∈ l, p < key a) → p ≤ key row.1 - row.2) := by
  induction l generalizing prev with
  | nil => cases h
  | cons b l ih =>
    rw [List.map_cons, List.pairwise_cons] at hsorted
    have hafter : ∀ a ∈ l, key b < key a := fun a ha => hsorted.1 (key a) (List.mem_map_of_mem ha)
    rw [withLag, List.mem_cons] at h
    rcases h with rfl | h
    · constructor
      · intro a ha hlt
        rcases List.mem_cons.mp ha with rfl | ha
        · exact absurd hlt (lt_irrefl _)
        · have hba := hafter a ha
          simp only at hlt
          omega
      · intro p hp _
        subst hp
        simp only [Option.map_some, Option.getD_some]
        omega
    · obtain ⟨hin, hprev⟩ := ih hsorted.2 h
      have hb := hprev (key b) (Eq.refl _) hafter
      constructor
      · intro a ha hlt
        rcases List.mem_cons.mp ha with rfl | ha
        · exact hb
        · exact hin a ha hlt
      · intro p _ hp
        have hpb := hp b List.mem_cons_self
        omega

/-- Two intervals that share a point end at the same key. -/
theorem withLag_disjoint (hsorted : (l.map key).Pairwise (· < ·)) {row row' : α × ℤ} {c : ℤ}
    (h : row ∈ withLag key prev l) (h' : row' ∈ withLag key prev l) (hc : InLag key row c)
    (hc' : InLag key row' c) : key row.1 = key row'.1 := by
  have hgap := (withLag_gap hsorted h).1 row'.1 (fst_mem_of_mem_withLag h')
  have hgap' := (withLag_gap hsorted h').1 row.1 (fst_mem_of_mem_withLag h)
  obtain ⟨hlo, hhi⟩ := hc
  obtain ⟨hlo', hhi'⟩ := hc'
  rcases lt_trichotomy (key row.1) (key row'.1) with hlt | heq | hlt
  · have hle := hgap' hlt
    omega
  · exact heq
  · have hle := hgap hlt
    omega

/-- A point after some key, or after the key before the list, and not after all of them is
in an interval. -/
theorem withLag_cover (prev : Option ℤ) (hsorted : (l.map key).Pairwise (· < ·)) {c : ℤ}
    (hlo : (∃ p, prev = some p ∧ p < c) ∨ ∃ a ∈ l, key a < c) (hhi : ∃ a ∈ l, c ≤ key a) :
    ∃ row ∈ withLag key prev l, InLag key row c := by
  induction l generalizing prev with
  | nil =>
    obtain ⟨a, ha, -⟩ := hhi
    cases ha
  | cons b l ih =>
    rw [List.map_cons, List.pairwise_cons] at hsorted
    have hafter : ∀ a ∈ l, key b < key a := fun a ha => hsorted.1 (key a) (List.mem_map_of_mem ha)
    rw [withLag]
    by_cases hb : key b < c
    · -- the row is further on
      obtain ⟨a, ha, hca⟩ := hhi
      have hmem : a ∈ l := by
        rcases List.mem_cons.mp ha with rfl | ha
        · omega
        · exact ha
      obtain ⟨row, hrow, hin⟩ := ih _ hsorted.2 (Or.inl ⟨key b, Eq.refl _, hb⟩) ⟨a, hmem, hca⟩
      exact ⟨row, List.mem_cons_of_mem _ hrow, hin⟩
    · rcases hlo with ⟨p, rfl, hp⟩ | ⟨a, ha, hac⟩
      · refine ⟨_, List.mem_cons_self, ?_, ?_⟩
        · simp only [Option.map_some, Option.getD_some]
          omega
        · exact Int.not_lt.mp hb
      · exfalso
        rcases List.mem_cons.mp ha with rfl | ha
        · exact hb hac
        · have hba := hafter a ha
          omega

/-- What is in an interval lies after the first key. -/
theorem withLag_after (hsorted : (l.map key).Pairwise (· < ·)) {row : α × ℤ} {c : ℤ}
    (h : row ∈ withLag key none l) (hc : InLag key row c) : ∃ a ∈ l, key a < c := by
  obtain ⟨hlo, hhi⟩ := hc
  cases l with
  | nil => cases h
  | cons b l =>
    rw [List.map_cons, List.pairwise_cons] at hsorted
    have hafter : ∀ a ∈ l, key b < key a := fun a ha => hsorted.1 (key a) (List.mem_map_of_mem ha)
    rw [withLag, List.mem_cons] at h
    rcases h with rfl | h
    · -- the first row has no width
      simp only [Option.map_none, Option.getD_none] at hlo hhi
      omega
    · have hb := (withLag_gap hsorted.2 h).2 (key b) (Eq.refl _) hafter
      exact ⟨b, List.mem_cons_self, by omega⟩

end ShouldIAsync.Lib
