import Mathlib.Algebra.BigOperators.Group.List.Basic
import Mathlib.Data.List.DropRight

/-!
# Stretches of a list and their text

A `Span` is a stretch of a list, `slice` what stands there, and `text` that
without its trailing blanks (`blank : α → Bool` says which elements are). A
sequence of spans can be read off against the non-blank elements alone: it is
`Tight` if each span starts when exactly the non-blanks of the spans before it
have gone by. Two tight sequences over one list have the same texts if and only
if they `Match`, span by span, in position as well (`texts_of_match`,
`match_of_texts`): the last element of a text is a certain one of the non-blank
elements of the list.
-/

namespace ShouldIAsync.Lib

variable {α : Type*}

/-- A part of a list. -/
structure Span where
  start : Nat
  len : Nat
  deriving DecidableEq, Repr

/-- What stands in `s` at a span. -/
def slice (s : List α) (r : Span) : List α := (s.drop r.start).take r.len

theorem slice_append (a b c : List α) : slice (a ++ b ++ c) ⟨a.length, b.length⟩ = b := by
  rw [slice, List.append_assoc, List.drop_left, List.take_left]

/-- The spans of consecutive pieces, the first of which starts at `off`. -/
def consecutive : Nat → List (List α) → List Span
  | _, [] => []
  | off, p :: ps => ⟨off, p.length⟩ :: consecutive (off + p.length) ps

theorem slice_consecutive (pre post : List α) (ps : List (List α)) :
    (consecutive pre.length ps).map (slice (pre ++ ps.flatten ++ post)) = ps := by
  induction ps generalizing pre with
  | nil => rfl
  | cons p ps ih =>
    have hlen : pre.length + p.length = (pre ++ p).length := by rw [List.length_append]
    have hsplit : pre ++ (p :: ps).flatten ++ post = pre ++ p ++ ps.flatten ++ post := by simp
    have hhead : slice (pre ++ p ++ ps.flatten ++ post) ⟨pre.length, p.length⟩ = p := by
      rw [List.append_assoc (pre ++ p)]
      exact slice_append pre p _
    rw [consecutive, List.map_cons, hsplit, hhead, hlen, ih]

section Text

variable (blank : α → Bool)

/-- How many elements are not blank. -/
def inked (p : List α) : Nat := p.countP fun a => !blank a

/-- A span's slice without its trailing blanks. -/
def text (s : List α) (r : Span) : List α := (slice s r).rdropWhile blank

/-- The marks of two parts together. -/
@[simp] theorem inked_append (p q : List α) :
    inked blank (p ++ q) = inked blank p + inked blank q :=
  List.countP_append ..

/-- Blanks at the end carry no mark. -/
theorem inked_rdropWhile (p : List α) : inked blank (p.rdropWhile blank) = inked blank p := by
  induction p using List.reverseRecOn with
  | nil => simp
  | append_singleton p a ih =>
    by_cases ha : blank a = true
    · rw [List.rdropWhile_concat_pos _ _ _ ha, ih, inked_append]
      simp [inked, ha]
    · rw [List.rdropWhile_concat_neg _ _ _ ha]

/-- An element that is not blank is a mark. -/
theorem inked_pos {p : List α} {a : α} (ha : a ∈ p) (hb : blank a = false) : 0 < inked blank p :=
  List.countP_pos_iff.mpr ⟨a, ha, by simp [hb]⟩

/-- Each span starts after the non-blanks of the spans before it, counted from `c`. -/
def Tight (s : List α) : Nat → List Span → Prop
  | _, [] => True
  | c, r :: rs => inked blank (s.take r.start) = c ∧ Tight s (c + inked blank (slice s r)) rs

/-- Parts one after the other are tight if both are. -/
theorem tight_append (s : List α) (rs rs' : List Span) (c : Nat) :
    Tight blank s c (rs ++ rs') ↔
      Tight blank s c rs ∧ Tight blank s (c + inked blank (rs.map (slice s)).flatten) rs' := by
  induction rs generalizing c with
  | nil => simp [Tight, inked]
  | cons r rs ih =>
    rw [List.cons_append, Tight, Tight, ih, List.map_cons, List.flatten_cons, inked_append,
      and_assoc, Nat.add_assoc]

/-- Consecutive pieces are tight. -/
theorem tight_consecutive (pre post : List α) (ps : List (List α)) :
    Tight blank (pre ++ ps.flatten ++ post) (inked blank pre) (consecutive pre.length ps) := by
  induction ps generalizing pre with
  | nil => trivial
  | cons p ps ih =>
    have hlen : pre.length + p.length = (pre ++ p).length := by rw [List.length_append]
    have hsplit : pre ++ (p :: ps).flatten ++ post = pre ++ p ++ ps.flatten ++ post := by simp
    have hhead : slice (pre ++ p ++ ps.flatten ++ post) ⟨pre.length, p.length⟩ = p := by
      rw [List.append_assoc (pre ++ p)]
      exact slice_append pre p _
    rw [consecutive, hsplit]
    refine ⟨?_, ?_⟩
    · rw [List.append_assoc, List.append_assoc, List.take_left]
    · rw [hhead, ← inked_append, hlen]
      exact ih (pre ++ p)

/-- Both spans are blank, or they start together and their texts end together. -/
def Match (s : List α) (r r' : Span) : Prop :=
  (text blank s r = [] ∧ text blank s r' = []) ∨
    (r.start = r'.start ∧ (text blank s r).length = (text blank s r').length)

variable {blank}

/-- A text as a part of the list it is taken from. -/
theorem text_split {s : List α} {r : Span} (hne : text blank s r ≠ []) :
    ∃ post, s = s.take r.start ++ text blank s r ++ post ∧ (s.take r.start).length = r.start := by
  have hlt : r.start < s.length := by
    by_contra hge
    apply hne
    rw [text, slice, List.drop_eq_nil_of_le (Nat.le_of_not_lt hge)]
    simp
  obtain ⟨t₁, ht₁⟩ := List.rdropWhile_prefix blank (slice s r)
  have hslice : s.drop r.start = slice s r ++ (s.drop r.start).drop r.len :=
    (List.take_append_drop r.len (s.drop r.start)).symm
  refine ⟨t₁ ++ (s.drop r.start).drop r.len, ?_, List.length_take_of_le (Nat.le_of_lt hlt)⟩
  calc s = s.take r.start ++ s.drop r.start := (List.take_append_drop r.start s).symm
    _ = s.take r.start ++ (text blank s r ++ t₁ ++ (s.drop r.start).drop r.len) := by
      rw [text, ht₁, ← hslice]
    _ = _ := by simp

/-- Two occurrences of one text after equally many non-blanks are one occurrence. -/
theorem start_unique {s a b a' b' t : List α} (h : s = a ++ t ++ b) (h' : s = a' ++ t ++ b')
    (hcount : inked blank a = inked blank a') (hne : t ≠ [])
    (hlast : blank (t.getLast hne) = false) (hle : a.length ≤ a'.length) :
    a.length = a'.length := by
  by_contra hneq
  have hlt : a.length < a'.length := by omega
  -- the stretch between the ends of the two occurrences ends in the last of `t`
  obtain ⟨m, hm⟩ : a ++ t <+: a' ++ t := by
    have hleft : a ++ t <+: s := ⟨b, h.symm⟩
    refine List.prefix_of_prefix_length_le hleft ⟨b', h'.symm⟩ ?_
    simp only [List.length_append]
    omega
  have hmne : m ≠ [] := by
    rintro rfl
    have := congrArg List.length hm
    simp only [List.length_append, List.length_nil] at this
    omega
  have hmlast : m.getLast hmne = t.getLast hne := by
    have hget := congrArg List.getLast? hm
    rw [List.getLast?_append_of_ne_nil _ hmne, List.getLast?_append_of_ne_nil _ hne,
      List.getLast?_eq_some_getLast hmne, List.getLast?_eq_some_getLast hne] at hget
    exact Option.some.inj hget
  have hink := congrArg (inked blank) hm
  have hpos := inked_pos blank (List.getLast_mem hmne) (by rw [hmlast]; exact hlast)
  simp only [inked_append] at hink
  omega

/-- The text of a span is determined by where it starts and how long it is. -/
theorem text_eq_take (s : List α) (r : Span) :
    text blank s r = (s.drop r.start).take (text blank s r).length := by
  have hpre : text blank s r <+: s.drop r.start :=
    (List.rdropWhile_prefix blank (slice s r)).trans (List.take_prefix _ _)
  exact List.prefix_iff_eq_take.mp hpre

/-- Spans that match have the same text. -/
theorem Match.text_eq {s : List α} {r r' : Span} (h : Match blank s r r') :
    text blank s r = text blank s r' := by
  rcases h with ⟨h, h'⟩ | ⟨hstart, hlen⟩
  · rw [h, h']
  · rw [text_eq_take s r, text_eq_take s r', hstart, hlen]

/-- Equal texts after equally many non-blanks match. -/
theorem match_of_text_eq {s : List α} {r r' : Span}
    (hcount : inked blank (s.take r.start) = inked blank (s.take r'.start))
    (h : text blank s r = text blank s r') : Match blank s r r' := by
  by_cases hne : text blank s r = []
  · exact Or.inl ⟨hne, h ▸ hne⟩
  · right
    obtain ⟨post, hs, hlen⟩ := text_split hne
    obtain ⟨post', hs', hlen'⟩ := text_split (h ▸ hne : text blank s r' ≠ [])
    rw [← h] at hs'
    have hlast : blank ((text blank s r).getLast hne) = false := by
      have := List.rdropWhile_last_not blank (slice s r) hne
      simpa [text] using this
    have hstart : (s.take r.start).length = (s.take r'.start).length := by
      rcases Nat.le_total (s.take r.start).length (s.take r'.start).length with hle | hle
      · exact start_unique hs hs' hcount hne hlast hle
      · exact (start_unique hs' hs hcount.symm hne hlast hle).symm
    exact ⟨by omega, by rw [h]⟩

theorem texts_of_match {s : List α} {rs rs' : List Span} (h : List.Forall₂ (Match blank s) rs rs') :
    rs.map (text blank s) = rs'.map (text blank s) := by
  induction h with
  | nil => rfl
  | cons hm _ ih => rw [List.map_cons, List.map_cons, hm.text_eq, ih]

/-- **Tight sequences with equal texts match in position.** -/
theorem match_of_texts {s : List α} {rs rs' : List Span} {c : Nat} (hrs : Tight blank s c rs)
    (hrs' : Tight blank s c rs') (h : rs.map (text blank s) = rs'.map (text blank s)) :
    List.Forall₂ (Match blank s) rs rs' := by
  induction rs generalizing rs' c with
  | nil =>
    obtain rfl : rs' = [] := by simpa using h.symm
    exact List.Forall₂.nil
  | cons r rs ih =>
    cases rs' with
    | nil => cases h
    | cons r' rs' =>
      obtain ⟨hc, htail⟩ := hrs
      obtain ⟨hc', htail'⟩ := hrs'
      obtain ⟨hhead, hmaps⟩ := List.cons.inj h
      have hink : inked blank (slice s r) = inked blank (slice s r') := by
        rw [← inked_rdropWhile blank (slice s r), ← inked_rdropWhile blank (slice s r')]
        exact congrArg (inked blank) hhead
      rw [← hink] at htail'
      exact List.Forall₂.cons (match_of_text_eq (hc.trans hc'.symm) hhead) (ih htail htail' hmaps)

/-- Equal texts have equally many non-blanks in all. -/
theorem inked_of_texts {s : List α} {rs rs' : List Span}
    (h : rs.map (text blank s) = rs'.map (text blank s)) :
    inked blank (rs.map (slice s)).flatten = inked blank (rs'.map (slice s)).flatten := by
  have hsum : ∀ rs : List Span, inked blank (rs.map (slice s)).flatten =
      ((rs.map (text blank s)).map (inked blank)).sum := by
    intro rs
    induction rs with
    | nil => rfl
    | cons r rs ih =>
      rw [List.map_cons, List.flatten_cons, inked_append, ih, List.map_cons, List.map_cons,
        List.sum_cons, text, inked_rdropWhile]
  rw [hsum, hsum, h]

end Text

end ShouldIAsync.Lib
