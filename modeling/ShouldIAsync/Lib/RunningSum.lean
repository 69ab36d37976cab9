import Mathlib.Algebra.BigOperators.Group.List.Lemmas
import Mathlib.Algebra.GroupWithZero.Nat
import Mathlib.Data.List.Dedup

/-!
# Running sums and groups of a table

`sum(w) OVER (ORDER BY k)` sums up, for each row, the rows from the first one to the last of its
peers, the rows with its `k`: that is a sum over the rows with a `k` up to its own, in whatever
order the rows are. `GROUP BY k` followed by sums comes to the same as sums without it
(`sum_groups`).
-/

namespace ShouldIAsync.Lib

variable {α κ : Type*} {p q : α → Prop} [DecidablePred p] [DecidablePred q] {w : α → ℕ} {l : List α}

/-- The sum of `w` over the rows that satisfy `p`. -/
def sumWhere (p : α → Prop) [DecidablePred p] (w : α → ℕ) (l : List α) : ℕ :=
  ((l.filter fun a => p a).map w).sum

theorem sumWhere_cons (a : α) :
    sumWhere p w (a :: l) = (if p a then w a else 0) + sumWhere p w l := by
  unfold sumWhere
  rw [List.filter_cons]
  by_cases ha : p a
  · rw [if_pos (decide_eq_true ha), List.map_cons, List.sum_cons, if_pos ha]
  · rw [if_neg (by rwa [decide_eq_true_eq]), if_neg ha, Nat.zero_add]

/-- A weaker condition, a larger sum. -/
theorem sumWhere_mono (h : ∀ a ∈ l, p a → q a) : sumWhere p w l ≤ sumWhere q w l := by
  induction l with
  | nil => exact Nat.le_refl _
  | cons a l ih =>
    rw [sumWhere_cons, sumWhere_cons]
    refine Nat.add_le_add ?_ (ih fun b hb => h b (List.mem_cons_of_mem _ hb))
    by_cases ha : p a
    · rw [if_pos ha, if_pos (h a List.mem_cons_self ha)]
    · rw [if_neg ha]
      exact Nat.zero_le _

/-- The sum depends on the condition among the elements alone. -/
theorem sumWhere_congr (h : ∀ a ∈ l, p a ↔ q a) : sumWhere p w l = sumWhere q w l :=
  Nat.le_antisymm (sumWhere_mono fun a ha => (h a ha).mp) (sumWhere_mono fun a ha => (h a ha).mpr)

theorem sumWhere_all (h : ∀ a ∈ l, p a) : sumWhere p w l = (l.map w).sum := by
  unfold sumWhere
  rw [List.filter_eq_self.mpr fun a ha => decide_eq_true (h a ha)]

theorem sumWhere_none (h : ∀ a ∈ l, ¬ p a) : sumWhere p w l = 0 := by
  unfold sumWhere
  rw [List.filter_eq_nil_iff.mpr fun a ha => by rw [decide_eq_true_eq]; exact h a ha]
  rfl

/-- The sum is at most that of all elements. -/
theorem sumWhere_le (p : α → Prop) [DecidablePred p] (w : α → ℕ) (l : List α) :
    sumWhere p w l ≤ (l.map w).sum := by
  rw [← sumWhere_all (p := fun _ => True) fun _ _ => trivial]
  exact sumWhere_mono fun _ _ _ => trivial

theorem sumWhere_map {β : Type*} (f : β → α) (l : List β) :
    sumWhere p w (l.map f) = sumWhere (fun b => p (f b)) (fun b => w (f b)) l := by
  induction l with
  | nil => rfl
  | cons b l ih => rw [List.map_cons, sumWhere_cons, sumWhere_cons, ih]

/-- The sum depends on the weights of the elements alone. -/
theorem sumWhere_congr_weight {w' : α → ℕ} (h : ∀ a ∈ l, w a = w' a) :
    sumWhere p w l = sumWhere p w' l := by
  unfold sumWhere
  rw [List.map_congr_left fun a ha => h a (List.mem_of_mem_filter ha)]

/-- Rows of two kinds are summed up apart. -/
theorem sumWhere_or (h : ∀ a ∈ l, p a → ¬ q a) :
    sumWhere (fun a => p a ∨ q a) w l = sumWhere p w l + sumWhere q w l := by
  induction l with
  | nil => rfl
  | cons a l ih =>
    rw [sumWhere_cons, sumWhere_cons, sumWhere_cons, ih fun b hb => h b (List.mem_cons_of_mem _ hb)]
    by_cases ha : p a
    · rw [if_pos (Or.inl ha), if_pos ha, if_neg (h a List.mem_cons_self ha)]
      omega
    · rw [if_neg ha]
      by_cases hq : q a
      · rw [if_pos (Or.inr hq), if_pos hq]
        omega
      · rw [if_neg (not_or.mpr ⟨ha, hq⟩), if_neg hq]
        omega

/-- What satisfies `p` and what does not make up everything. -/
theorem sumWhere_add_not (p : α → Prop) [DecidablePred p] (w : α → ℕ) (l : List α) :
    sumWhere p w l + sumWhere (fun a => ¬ p a) w l = (l.map w).sum := by
  rw [← sumWhere_or fun _ _ => not_not_intro]
  exact sumWhere_all fun a _ => em (p a)

/-- With weights of one it is a count. -/
theorem sumWhere_one (p : α → Prop) [DecidablePred p] (l : List α) :
    sumWhere p (fun _ => 1) l = (l.filter fun a => p a).length := by
  unfold sumWhere
  rw [List.map_const', List.sum_replicate_nat, Nat.mul_one]

theorem length_filter_mono (h : ∀ a ∈ l, p a → q a) :
    (l.filter fun a => p a).length ≤ (l.filter fun a => q a).length := by
  rw [← sumWhere_one, ← sumWhere_one]
  exact sumWhere_mono h

/-! ## Groups -/

section Groups

variable [DecidableEq κ] (key : α → κ) (w : α → ℕ) (l : List α)

/-- A row is in one of the groups. -/
theorem sum_map_sumWhere {groups : List κ} (hdistinct : groups.Nodup) :
    (groups.map fun g => sumWhere (fun a => key a = g) w l).sum =
      sumWhere (fun a => key a ∈ groups) w l := by
  induction groups with
  | nil => exact (sumWhere_none fun _ _ => List.not_mem_nil).symm
  | cons g groups ih =>
    obtain ⟨hg, hdistinct⟩ := List.nodup_cons.mp hdistinct
    rw [List.map_cons, List.sum_cons, ih hdistinct, ← sumWhere_or]
    · exact sumWhere_congr fun a _ => List.mem_cons.symm
    · rintro a - rfl
      exact hg

/-- **Sums of the groups sum up as the rows do.** -/
theorem sum_groups (ok : κ → Prop) [DecidablePred ok] :
    sumWhere ok (fun g => sumWhere (fun a => key a = g) w l) (l.map key).dedup =
      sumWhere (fun a => ok (key a)) w l := by
  have hdistinct : ((l.map key).dedup.filter fun g => ok g).Nodup := (List.nodup_dedup _).filter _
  calc sumWhere ok (fun g => sumWhere (fun a => key a = g) w l) (l.map key).dedup
      = sumWhere (fun a => key a ∈ (l.map key).dedup.filter fun g => ok g) w l :=
        sum_map_sumWhere key w l hdistinct
    _ = sumWhere (fun a => ok (key a)) w l := by
        refine sumWhere_congr fun a ha => ?_
        rw [List.mem_filter, List.mem_dedup, decide_eq_true_eq]
        exact and_iff_right (List.mem_map_of_mem ha)

/-- A group counts its key as often as it has rows. -/
theorem sumWhere_key (key : α → ℕ) (g : ℕ) :
    sumWhere (fun a => key a = g) key l = sumWhere (fun a => key a = g) (fun _ => 1) l * g := by
  induction l with
  | nil => exact (Nat.zero_mul g).symm
  | cons a l ih =>
    rw [sumWhere_cons, sumWhere_cons, ih, Nat.add_mul]
    by_cases ha : key a = g
    · rw [if_pos ha, if_pos ha, ha, Nat.one_mul]
    · rw [if_neg ha, if_neg ha, Nat.zero_mul]

end Groups

/-- The greatest running sum is the sum of all. -/
theorem max_running (key : α → ℕ) (w : α → ℕ) (l : List α) :
    ((l.map key).dedup.map fun k => sumWhere (fun a => key a ≤ k) w l).max?.getD 0 =
      (l.map w).sum := by
  cases hmax : (l.map key).max? with
  | none =>
    rw [List.max?_eq_none_iff, List.map_eq_nil_iff] at hmax
    rw [hmax]
    rfl
  | some m =>
    obtain ⟨hm, hle⟩ := List.max?_eq_some_iff.mp hmax
    have htotal : sumWhere (fun a => key a ≤ m) w l = (l.map w).sum :=
      sumWhere_all fun a ha => hle _ (List.mem_map_of_mem ha)
    have hsome : ((l.map key).dedup.map fun k => sumWhere (fun a => key a ≤ k) w l).max? =
        some (l.map w).sum := by
      rw [List.max?_eq_some_iff]
      refine ⟨List.mem_map.mpr ⟨m, List.mem_dedup.mpr hm, htotal⟩, fun b hb => ?_⟩
      obtain ⟨k, -, rfl⟩ := List.mem_map.mp hb
      exact sumWhere_le _ _ _
    rw [hsome]
    rfl

end ShouldIAsync.Lib
