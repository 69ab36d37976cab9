import Mathlib.Algebra.BigOperators.Fin
import Mathlib.Algebra.BigOperators.Group.Finset.Piecewise
import Mathlib.Algebra.Order.BigOperators.Group.Finset
import Mathlib.Algebra.Order.Ring.Nat
import Mathlib.Tactic.Abel

/-!
# Families of threads

The state of many threads of one kind is a family of theirs, and a step of one of them exchanges its
member. What is said of the others stays: a sum over the family changes by what the member does
(`sum_update_add`, and a measure falls with it, `sum_update_lt`), and what some member satisfies is
still so if the one exchanged does not lose it (`exists_update_iff`). `Function.forall_update_iff`
is the same for what all of them satisfy. Where the threads come in pairs, a sum over the list of
all of them is one over the pairs (`sum_map_pairs`).
-/

namespace ShouldIAsync.Lib.Family

variable {ι α : Type*} [DecidableEq ι] {f : ι → α} {i : ι} {x : α}

/-- A sum over a family after an update. -/
theorem sum_update_add [Fintype ι] {M : Type*} [AddCommMonoid M] (w : ι → α → M) :
    ∑ j, w j (Function.update f i x j) + w i (f i) = ∑ j, w j (f j) + w i x := by
  have hothers : ∑ j ∈ Finset.univ.erase i, w j (Function.update f i x j) =
      ∑ j ∈ Finset.univ.erase i, w j (f j) :=
    Finset.sum_congr rfl fun j hj => by rw [Function.update_of_ne (Finset.ne_of_mem_erase hj)]
  have hi := Finset.mem_univ i
  rw [← Finset.add_sum_erase _ _ hi, ← Finset.add_sum_erase _ (fun j => w j (f j)) hi, hothers,
    Function.update_self]
  abel

/-- It gets smaller with the one that is updated. -/
theorem sum_update_lt [Fintype ι] {w : ι → α → ℕ} (hlt : w i x < w i (f i)) :
    ∑ j, w j (Function.update f i x j) < ∑ j, w j (f j) := by
  have hsum := sum_update_add (f := f) (i := i) (x := x) w
  omega

/-- Some member has a property that an update does not take away. -/
theorem exists_update_iff {p : α → Prop} (hkeep : p (f i) → p x) :
    (∃ j, p (Function.update f i x j)) ↔ p x ∨ ∃ j, p (f j) := by
  rw [Function.exists_update_iff f fun _ => p]
  constructor
  · exact Or.imp_right fun ⟨j, _, hj⟩ => ⟨j, hj⟩
  · rintro (hx | ⟨j, hj⟩)
    · exact Or.inl hx
    · by_cases hji : j = i
      · rw [hji] at hj
        exact Or.inl (hkeep hj)
      · exact Or.inr ⟨j, hji, hj⟩

/-- The members of a family of pairs, one pair after the other. -/
theorem sum_map_pairs {n : ℕ} {β M : Type*} [AddCommMonoid M] (a b : β) (f : Fin n × β → M) :
    (((List.finRange n).flatMap fun k => [(k, a), (k, b)]).map f).sum =
      ∑ k, (f (k, a) + f (k, b)) := by
  rw [Fin.sum_univ_def]
  induction List.finRange n with
  | nil => rfl
  | cons k ks ih =>
    rw [List.flatMap_cons, List.map_append, List.sum_append, ih, List.map_cons, List.sum_cons]
    simp only [List.map_cons, List.map_nil, List.sum_cons, List.sum_nil, add_zero]

end ShouldIAsync.Lib.Family
