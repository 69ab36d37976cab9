import Mathlib.Data.List.Basic
import Mathlib.Data.List.Nodup

/-!
# Recursive queries

`WITH RECURSIVE .. UNION ALL` starts from some rows and joins the rows of each round with a
table to get those of the next round, until a round has none (`withRecursive`). Where every
row has at most one partner, the rows that come from one of the first round are a path
(`Path`): a query whose rows all have a path ends (`withRecursive_ends`), and what it gives
for one of them is the path (`withRecursive_path`). The rows of a group, if partners stay in
it, are those the query gives for the group alone (`withRecursive_filter`).
-/

namespace ShouldIAsync.Lib

variable {α : Type*} {next : α → List α}

/-- The rows of all rounds; `next` are the partners of a row. There is no result if the
rounds given do not suffice. -/
def withRecursive (next : α → List α) : Nat → List α → Option (List α)
  | 0, [] => some []
  | 0, _ :: _ => none
  | n + 1, rows => (withRecursive next n (rows.flatMap next)).map (rows ++ ·)

/-- A row, its only partner, the only partner of that, and so on to a row without one. -/
inductive Path (next : α → List α) : α → List α → Prop
  | last {a : α} (h : next a = []) : Path next a [a]
  | step {a b : α} {l : List α} (h : next a = [b]) (hl : Path next b l) : Path next a (a :: l)

/-! ## Paths -/

/-- A path begins where it says. -/
theorem Path.eq_cons {a : α} {l : List α} (h : Path next a l) : ∃ l', l = a :: l' := by
  cases h with
  | last => exact ⟨[], rfl⟩
  | step => exact ⟨_, rfl⟩

/-- There is one path at most. -/
theorem Path.unique {a : α} {l l' : List α} (h : Path next a l) (h' : Path next a l') : l = l' := by
  induction h generalizing l' with
  | last hnone =>
    cases h' with
    | last => rfl
    | step hsome => simp [hnone] at hsome
  | step hsome _ ih =>
    cases h' with
    | last hnone => simp [hsome] at hnone
    | step hsome' hl' =>
      obtain rfl := List.singleton_inj.mp (hsome.symm.trans hsome')
      rw [ih hl']

/-- Each row of a path has a path, the rest of it. -/
theorem Path.of_mem {a b : α} {l : List α} (h : Path next a l) (hb : b ∈ l) :
    ∃ l', Path next b l' ∧ l'.length ≤ l.length := by
  induction h with
  | last hnone =>
    obtain rfl := List.mem_singleton.mp hb
    exact ⟨_, .last hnone, Nat.le_refl _⟩
  | step hsome hl ih =>
    rcases List.mem_cons.mp hb with rfl | hb
    · exact ⟨_, .step hsome hl, Nat.le_refl _⟩
    · obtain ⟨l', hl', hle⟩ := ih hb
      exact ⟨l', hl', Nat.le_succ_of_le hle⟩

/-- No row comes twice: its path would be a part of itself. -/
theorem Path.nodup {a : α} {l : List α} (h : Path next a l) : l.Nodup := by
  induction h with
  | last => exact List.nodup_singleton _
  | step hsome hl ih =>
    rw [List.nodup_cons]
    refine ⟨?_, ih⟩
    intro hmem
    obtain ⟨l', hl', hle⟩ := hl.of_mem hmem
    have hlen := congrArg List.length (hl'.unique (.step hsome hl))
    rw [List.length_cons] at hlen
    omega

/-! ## Queries -/

theorem withRecursive_nil (n : Nat) : withRecursive next n [] = some [] := by
  induction n with
  | zero => rfl
  | succ n ih => rw [withRecursive, List.flatMap_nil, ih, Option.map_some, List.nil_append]

/-- The query ends when there are as many rounds as the longest path has rows. -/
theorem withRecursive_ends {n : Nat} {rows : List α}
    (h : ∀ a ∈ rows, ∃ l, Path next a l ∧ l.length ≤ n) :
    ∃ out, withRecursive next n rows = some out := by
  induction n generalizing rows with
  | zero =>
    have hnil : rows = [] := by
      rw [List.eq_nil_iff_forall_not_mem]
      intro a ha
      obtain ⟨l, hl, hle⟩ := h a ha
      obtain ⟨l', rfl⟩ := hl.eq_cons
      simp at hle
    rw [hnil]
    exact ⟨[], rfl⟩
  | succ n ih =>
    have hround : ∀ b ∈ rows.flatMap next, ∃ l, Path next b l ∧ l.length ≤ n := by
      intro b hb
      obtain ⟨a, ha, hba⟩ := List.mem_flatMap.mp hb
      obtain ⟨l, hl, hle⟩ := h a ha
      cases hl with
      | last hnone =>
        rw [hnone] at hba
        exact absurd hba List.not_mem_nil
      | step hsome hl =>
        rw [hsome] at hba
        obtain rfl := List.mem_singleton.mp hba
        exact ⟨_, hl, Nat.le_of_succ_le_succ hle⟩
    obtain ⟨out, hout⟩ := ih hround
    exact ⟨rows ++ out, by rw [withRecursive, hout, Option.map_some]⟩

/-- The query for a single row gives its path. -/
theorem withRecursive_path {a : α} {l : List α} (h : Path next a l) {n : Nat} (hn : l.length ≤ n) :
    withRecursive next n [a] = some l := by
  induction h generalizing n with
  | last hnone =>
    obtain ⟨m, rfl⟩ : ∃ m, n = m + 1 := ⟨n - 1, by simp at hn; omega⟩
    rw [withRecursive, List.flatMap_singleton, hnone, withRecursive_nil, Option.map_some,
      List.append_nil]
  | step hsome hl ih =>
    obtain ⟨m, rfl⟩ : ∃ m, n = m + 1 := ⟨n - 1, by simp at hn; omega⟩
    rw [withRecursive, List.flatMap_singleton, hsome, ih (Nat.le_of_succ_le_succ hn),
      Option.map_some, List.singleton_append]

/-- What is kept of the result comes from what is kept of the rows, if a partner is kept
exactly if the row is. -/
theorem withRecursive_filter (keep : α → Bool) (hkeep : ∀ a, ∀ b ∈ next a, keep b = keep a)
    {n : Nat} {rows out : List α} (h : withRecursive next n rows = some out) :
    withRecursive next n (rows.filter keep) = some (out.filter keep) := by
  have hround : ∀ rows : List α, (rows.filter keep).flatMap next =
      (rows.flatMap next).filter keep := by
    intro rows
    induction rows with
    | nil => rfl
    | cons a rows ih =>
      rw [List.flatMap_cons, List.filter_append, ← ih]
      by_cases ha : keep a = true
      · have hall : (next a).filter keep = next a :=
          List.filter_eq_self.mpr fun b hb => (hkeep a b hb).trans ha
        rw [List.filter_cons_of_pos ha, List.flatMap_cons, hall]
      · have hnone : (next a).filter keep = [] :=
          List.filter_eq_nil_iff.mpr fun b hb => by rw [hkeep a b hb]; exact ha
        rw [List.filter_cons_of_neg ha, hnone, List.nil_append]
  induction n generalizing rows out with
  | zero =>
    cases rows with
    | nil =>
      obtain rfl := Option.some.inj h
      rfl
    | cons a rows => cases h
  | succ n ih =>
    obtain ⟨rest, hrest, rfl⟩ := Option.map_eq_some_iff.mp h
    rw [withRecursive, hround, ih hrest, Option.map_some, List.filter_append]

end ShouldIAsync.Lib
