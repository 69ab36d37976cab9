import Mathlib.Data.List.Nodup
import Mathlib.Data.Int.Order.Basic

/-!
# ASOF joins

`ASOF JOIN .. ON` an inequality on the key of the other table gives each row the nearest
row of that table that satisfies it. For inequalities that bound the key from below that is
a row with the smallest key that does (`Nearest`). Rows with equal keys are equally near,
and which of them is taken is left open: an `Asof` is any way to choose.
-/

namespace ShouldIAsync.Lib

variable {α : Type*} {key : α → ℤ}

/-- `a` is a row of `l` with the smallest key that satisfies `ok`. -/
structure Nearest (key : α → ℤ) (ok : ℤ → Prop) (l : List α) (a : α) : Prop where
  mem : a ∈ l
  fits : ok (key a)
  least : ∀ b ∈ l, ok (key b) → key a ≤ key b

/-- The same rows are nearest when no key tells the two conditions apart. -/
theorem Nearest.congr {ok ok' : ℤ → Prop} {l : List α} {a : α} (h : Nearest key ok l a)
    (hok : ∀ b ∈ l, ok (key b) ↔ ok' (key b)) : Nearest key ok' l a where
  mem := h.mem
  fits := (hok a h.mem).mp h.fits
  least b hb hb' := h.least b hb ((hok b hb).mpr hb')

/-- Of distinct keys one row is nearest. -/
theorem Nearest.unique {ok : ℤ → Prop} {l : List α} (hdistinct : (l.map key).Nodup) {a b : α}
    (ha : Nearest key ok l a) (hb : Nearest key ok l b) : a = b :=
  List.inj_on_of_nodup_map hdistinct ha.mem hb.mem
    (le_antisymm (ha.least b hb.mem hb.fits) (hb.least a ha.mem ha.fits))

/-- The next row after `s` is the next one after all that lies between. -/
theorem Nearest.later {s s' : ℤ} {l : List α} {a : α} (h : Nearest key (fun t => s < t) l a)
    (hle : s ≤ s') (hlt : s' < key a) : Nearest key (fun t => s' < t) l a where
  mem := h.mem
  fits := hlt
  least b hb hb' := h.least b hb (lt_of_le_of_lt hle hb')

/-- A way to choose a nearest row, where there is one. -/
structure Asof (key : α → ℤ) where
  pick : (ok : ℤ → Prop) → [DecidablePred ok] → List α → Option α
  nearest : ∀ {ok : ℤ → Prop} [DecidablePred ok] {l : List α} {a : α},
    pick ok l = some a → Nearest key ok l a
  matched : ∀ {ok : ℤ → Prop} [DecidablePred ok] {l : List α} {a : α},
    a ∈ l → ok (key a) → ∃ b, pick ok l = some b

/-- The first of the nearest rows. -/
def pickFirst (key : α → ℤ) (ok : ℤ → Prop) [DecidablePred ok] : List α → Option α
  | [] => none
  | a :: l =>
    match pickFirst key ok l with
    | none => if ok (key a) then some a else none
    | some b => if ok (key a) ∧ key a ≤ key b then some a else some b

/-- Nothing is picked where no key is in range. -/
theorem pickFirst_eq_none {ok : ℤ → Prop} [DecidablePred ok] {l : List α}
    (h : pickFirst key ok l = none) {a : α} (ha : a ∈ l) : ¬ ok (key a) := by
  induction l with
  | nil => exact absurd ha List.not_mem_nil
  | cons b l ih =>
    rw [pickFirst] at h
    split at h
    next hnone =>
      split at h
      next => cases h
      next hb =>
        rcases List.mem_cons.mp ha with rfl | ha
        · exact hb
        · exact ih hnone ha
    next =>
      split at h
      next => cases h
      next => cases h

/-- What is picked is nearest. -/
theorem nearest_of_pickFirst {ok : ℤ → Prop} [DecidablePred ok] {l : List α} {a : α}
    (h : pickFirst key ok l = some a) : Nearest key ok l a := by
  induction l generalizing a with
  | nil => cases h
  | cons b l ih =>
    rw [pickFirst] at h
    split at h
    next hnone =>
      split at h
      next hb =>
        obtain rfl := Option.some.inj h
        refine ⟨List.mem_cons_self, hb, fun c hc hok => ?_⟩
        rcases List.mem_cons.mp hc with rfl | hc
        · exact le_refl _
        · exact absurd hok (pickFirst_eq_none hnone hc)
      next => cases h
    next b' hb' =>
      have hnear := ih hb'
      split at h
      next hb =>
        obtain rfl := Option.some.inj h
        refine ⟨List.mem_cons_self, hb.1, fun c hc hok => ?_⟩
        rcases List.mem_cons.mp hc with rfl | hc
        · exact le_refl _
        · exact le_trans hb.2 (hnear.least c hc hok)
      next hb =>
        obtain rfl := Option.some.inj h
        refine ⟨List.mem_cons_of_mem _ hnear.mem, hnear.fits, fun c hc hok => ?_⟩
        rcases List.mem_cons.mp hc with rfl | hc
        · exact le_of_not_ge fun hle => hb ⟨hok, hle⟩
        · exact hnear.least c hc hok

/-- The choice of the first one in the table. -/
def Asof.first (key : α → ℤ) : Asof key where
  pick ok _ l := pickFirst key ok l
  nearest := nearest_of_pickFirst
  matched ha hok := Option.ne_none_iff_exists'.mp fun hnone => pickFirst_eq_none hnone ha hok

end ShouldIAsync.Lib
