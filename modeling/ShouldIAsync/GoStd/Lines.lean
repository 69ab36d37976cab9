import Mathlib.Data.List.DropRight
import ShouldIAsync.GoStd.Bufio

/-!
# Lines of a byte stream

The lines of a stream are what stands between its newlines, and after the last
newline whatever is left, if anything is. `splitLines` is that reading of a
stream, the one every writer of this package is measured by; `trimRight` is
`bytes.TrimRight(p, "\n\r")` and `dropCR` the helper of `bufio.ScanLines`.
-/

namespace ShouldIAsync.GoStd

/-- The lines of a stream, without their newlines. -/
def splitLines : Bytes → List Bytes
  | [] => []
  | b :: bs =>
    if b = newline then [] :: splitLines bs
    else
      match splitLines bs with
      | [] => [[b]]
      | l :: ls => (b :: l) :: ls

/-- The lines of a stream with their newlines. -/
def terminatedLines : Bytes → List Bytes
  | [] => []
  | b :: bs =>
    if b = newline then [b] :: terminatedLines bs
    else
      match terminatedLines bs with
      | [] => [[b]]
      | l :: ls => (b :: l) :: ls

/-- The cutset `"\n\r"`. -/
def inCutset (b : UInt8) : Bool := b = newline || b = carriageReturn

/-- `bytes.TrimRight(p, "\n\r")` -/
def trimRight (p : Bytes) : Bytes := p.rdropWhile inCutset

/-- `dropCR` drops a terminal `\r`. -/
def dropCR (data : Bytes) : Bytes :=
  if data.getLast? = some carriageReturn then data.dropLast else data

theorem length_dropCR_le (data : Bytes) : (dropCR data).length ≤ data.length := by
  unfold dropCR
  split
  · rw [List.length_dropLast]
    exact Nat.sub_le _ _
  · exact Nat.le_refl _

/-- The first line ends at the first newline. -/
theorem splitLines_newline {l : Bytes} (hl : newline ∉ l) (rest : Bytes) :
    splitLines (l ++ newline :: rest) = l :: splitLines rest := by
  induction l with
  | nil => simp [splitLines]
  | cons b bs ih =>
    rw [List.mem_cons, not_or] at hl
    rw [List.cons_append, splitLines, if_neg (Ne.symm hl.1), ih hl.2]

/-- What is left after the last newline is a line of its own. -/
theorem splitLines_of_not_mem {l : Bytes} (hl : newline ∉ l) (hne : l ≠ []) :
    splitLines l = [l] := by
  induction l with
  | nil => exact absurd rfl hne
  | cons b bs ih =>
    rw [List.mem_cons, not_or] at hl
    rw [splitLines, if_neg (Ne.symm hl.1)]
    by_cases hbs : bs = []
    · rw [hbs, splitLines]
    · rw [ih hl.2 hbs]

/-- A stream ends at its end, or it has a first line with a newline. -/
theorem splitLines_cases (s : Bytes) :
    newline ∉ s ∨ ∃ l rest, newline ∉ l ∧ s = l ++ newline :: rest := by
  cases hcut : cut newline s with
  | none => exact Or.inl (cut_eq_none.mp hcut)
  | some p =>
    obtain ⟨line, rest⟩ := p
    obtain ⟨rfl, pre, rfl, hpre⟩ := cut_eq_some hcut
    exact Or.inr ⟨pre, rest, hpre, by simp⟩

/-- There is no newline in a line. -/
theorem not_mem_of_mem_splitLines : ∀ {s l : Bytes}, l ∈ splitLines s → newline ∉ l
  | [], l, h => by simp [splitLines] at h
  | b :: bs, l, h => by
    unfold splitLines at h
    split at h
    next hb =>
      rcases List.mem_cons.mp h with rfl | h
      · simp
      · exact not_mem_of_mem_splitLines h
    next hb =>
      split at h
      next =>
        obtain rfl := List.mem_singleton.mp h
        simpa using Ne.symm hb
      next l' ls hls =>
        rcases List.mem_cons.mp h with rfl | h
        · rw [List.mem_cons, not_or]
          exact ⟨Ne.symm hb, not_mem_of_mem_splitLines (hls ▸ List.mem_cons_self ..)⟩
        · exact not_mem_of_mem_splitLines (hls ▸ List.mem_cons_of_mem _ h)

/-- The lines with their newlines are the text. -/
theorem flatten_terminatedLines (s : Bytes) : (terminatedLines s).flatten = s := by
  induction s with
  | nil => rfl
  | cons b bs ih =>
    unfold terminatedLines
    split
    next => rw [List.flatten_cons, ih, List.singleton_append]
    next =>
      split
      next h =>
        rw [h, List.flatten_nil] at ih
        rw [← ih, List.flatten_singleton]
      next l ls h =>
        rw [h, List.flatten_cons] at ih
        rw [List.flatten_cons, List.cons_append, ih]

/-- The first byte is trimmed if all that follows is. -/
theorem trimRight_cons (b : UInt8) (p : Bytes) :
    trimRight (b :: p) = if trimRight p = [] then trimRight [b] else b :: trimRight p := by
  induction p using List.reverseRecOn with
  | nil => simp [trimRight]
  | append_singleton p c ih =>
    rw [← List.cons_append]
    by_cases hc : inCutset c = true
    · rw [trimRight, trimRight, List.rdropWhile_concat_pos _ _ _ hc,
        List.rdropWhile_concat_pos _ _ _ hc]
      exact ih
    · rw [trimRight, trimRight, List.rdropWhile_concat_neg _ _ _ hc,
        List.rdropWhile_concat_neg _ _ _ hc, if_neg (by simp)]
      rfl

/-- A newline at the end makes no difference after trimming. -/
theorem trimRight_terminatedLines (s : Bytes) :
    (terminatedLines s).map trimRight = (splitLines s).map trimRight := by
  induction s with
  | nil => rfl
  | cons b bs ih =>
    unfold terminatedLines splitLines
    by_cases hb : b = newline
    · rw [if_pos hb, if_pos hb, List.map_cons, List.map_cons, ih, hb]
      congr 1
    · rw [if_neg hb, if_neg hb]
      cases ht : terminatedLines bs with
      | nil =>
        rw [ht, List.map_nil] at ih
        rw [List.map_eq_nil_iff.mp ih.symm]
      | cons l ls =>
        rw [ht, List.map_cons] at ih
        cases hs : splitLines bs with
        | nil =>
          rw [hs] at ih
          cases ih
        | cons l' ls' =>
          rw [hs, List.map_cons] at ih
          obtain ⟨hl, hls⟩ := List.cons.inj ih
          rw [List.map_cons, List.map_cons, trimRight_cons b l, trimRight_cons b l', hl, hls]

end ShouldIAsync.GoStd
