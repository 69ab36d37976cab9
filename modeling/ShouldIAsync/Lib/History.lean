import Mathlib.Data.List.Basic
import Mathlib.Data.List.Induction
import Mathlib.Data.List.Nodup

/-!
# Histories

A history is the list of events of a run, oldest first. `Ordered ok` says that
each event was justified by the ones before it, `ok pre e`; a run extends a
history at its end, so one lemma (`ordered_snoc`) carries it along. What a
history says about a thing happening once, and after another, follows from the
justification of each event alone.
-/

namespace ShouldIAsync.Lib

variable {ε α : Type*} {ok : List ε → ε → Prop}

/-- Every event is justified by the events before it. -/
def Ordered (ok : List ε → ε → Prop) (tr : List ε) : Prop :=
  ∀ pre e post, tr = pre ++ e :: post → ok pre e

theorem ordered_nil : Ordered ok [] := by
  intro pre e post h
  simp at h

/-- One event more, which could happen then. -/
theorem ordered_snoc {tr : List ε} {e : ε} (htr : Ordered ok tr) (he : ok tr e) :
    Ordered ok (tr ++ [e]) := by
  intro pre e' post h
  rcases List.eq_nil_or_concat post with rfl | ⟨post', last, rfl⟩
  · obtain ⟨rfl, hlast⟩ := List.append_inj' h rfl
    obtain rfl := List.singleton_inj.mp hlast
    exact he
  · rw [List.concat_eq_append, ← List.cons_append, ← List.append_assoc] at h
    exact htr pre e' post' (List.append_inj' h rfl).1

/-- An event that occurs was justified where it occurred. -/
theorem Ordered.of_mem {tr : List ε} (h : Ordered ok tr) {e : ε} (he : e ∈ tr) :
    ∃ pre, pre <+: tr ∧ ok pre e := by
  obtain ⟨pre, post, htr⟩ := List.append_of_mem he
  exact ⟨pre, ⟨e :: post, htr.symm⟩, h pre e post htr⟩

/-- What had happened before is in order too. -/
theorem Ordered.isPrefix {tr pre : List ε} (h : Ordered ok tr) (hpre : pre <+: tr) :
    Ordered ok pre := by
  obtain ⟨rest, rfl⟩ := hpre
  intro a e post ha
  exact h a e (post ++ rest) (by simp [ha])

/-- Two events neither of which may follow the other are the same event. -/
theorem Ordered.eq_of_mem {tr : List ε} (h : Ordered ok tr) {e e' : ε} (he : e ∈ tr)
    (he' : e' ∈ tr) (hee' : ∀ pre, ok pre e → e' ∉ pre) (he'e : ∀ pre, ok pre e' → e ∉ pre) :
    e = e' := by
  induction tr using List.reverseRecOn with
  | nil => cases he
  | append_singleton tr a ih =>
    have hlast := h tr a [] rfl
    rcases List.mem_append.mp he with hm | hm <;> rcases List.mem_append.mp he' with hm' | hm'
    · exact ih (h.isPrefix (List.prefix_append _ _)) hm hm'
    · obtain rfl := List.mem_singleton.mp hm'
      exact absurd hm (he'e tr hlast)
    · obtain rfl := List.mem_singleton.mp hm
      exact absurd hm' (hee' tr hlast)
    · rw [List.mem_singleton.mp hm, List.mem_singleton.mp hm']

/-- If no event repeats the key of an earlier one, the keys are distinct. -/
theorem Ordered.nodup_flatMap {key : ε → List α} (hone : ∀ e, (key e).Nodup) {tr : List ε}
    (h : Ordered (fun pre e => ∀ k ∈ key e, k ∉ pre.flatMap key) tr) : (tr.flatMap key).Nodup := by
  induction tr using List.reverseRecOn with
  | nil => simp
  | append_singleton tr e ih =>
    rw [List.flatMap_append, List.flatMap_singleton, List.nodup_append]
    refine ⟨ih fun pre e' post htr => h pre e' (post ++ [e]) (by simp [htr]), hone e, ?_⟩
    intro k hk k' hk' heq
    subst heq
    exact h tr e [] rfl k hk' hk

end ShouldIAsync.Lib
