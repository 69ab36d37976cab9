import ShouldIAsync.GoStd.Tokens

/-!
# `bufio.ScanWords` and `bufio.ScanBytes`

`spaceWidth` is how many bytes of UTF-8 the space at the front of some data takes, 0 if there
is none; the spaces are those of `bufio`'s `isSpace`. A space starts with a byte that no other
rune goes on with, so the bytes of a word can be passed one at a time.

Data that ends within the encoding of a space does not look like a space, and does once more
of it is there (`Truncated`). A word that has been found is not changed by that: its end is a
whole space (`wordEnd_append`).
-/

namespace ShouldIAsync.GoStd

/-! ## Spaces -/

/-- `'\t'`, `'\n'`, `'\v'`, `'\f'`, `'\r'`, `' '` -/
def isSpace1 (b : UInt8) : Prop := (0x09 ≤ b ∧ b ≤ 0x0D) ∨ b = 0x20

/-- U+0085, U+00A0 -/
def isSpace2 (b c : UInt8) : Prop := b = 0xC2 ∧ (c = 0x85 ∨ c = 0xA0)

/-- U+1680, U+2000 to U+200A, U+2028, U+2029, U+202F, U+205F, U+3000 -/
def isSpace3 (b c d : UInt8) : Prop :=
  (b = 0xE1 ∧ c = 0x9A ∧ d = 0x80) ∨
  (b = 0xE2 ∧ c = 0x80 ∧ ((0x80 ≤ d ∧ d ≤ 0x8A) ∨ d = 0xA8 ∨ d = 0xA9 ∨ d = 0xAF)) ∨
  (b = 0xE2 ∧ c = 0x81 ∧ d = 0x9F) ∨
  (b = 0xE3 ∧ c = 0x80 ∧ d = 0x80)

instance (b : UInt8) : Decidable (isSpace1 b) := inferInstanceAs (Decidable (_ ∨ _))

instance (b c : UInt8) : Decidable (isSpace2 b c) := inferInstanceAs (Decidable (_ ∧ _))

instance (b c d : UInt8) : Decidable (isSpace3 b c d) := inferInstanceAs (Decidable (_ ∨ _))

/-- The width of the space at the front of `data`. -/
def spaceWidth : Bytes → Nat
  | [] => 0
  | [b] => if isSpace1 b then 1 else 0
  | [b, c] => if isSpace1 b then 1 else if isSpace2 b c then 2 else 0
  | b :: c :: d :: _ =>
    if isSpace1 b then 1 else if isSpace2 b c then 2 else if isSpace3 b c d then 3 else 0

/-- A space lies in the data. -/
theorem spaceWidth_le (data : Bytes) : spaceWidth data ≤ data.length := by
  unfold spaceWidth
  split
  · exact Nat.zero_le _
  · split <;> simp
  · split
    · simp
    · split <;> simp
  · simp only [List.length_cons]
    split
    · omega
    · split
      · omega
      · split <;> omega

/-- A space at hand stays one. -/
theorem spaceWidth_append {data : Bytes} (h : 0 < spaceWidth data) (e : Bytes) :
    spaceWidth (data ++ e) = spaceWidth data := by
  match data, h with
  | [b], h =>
    have hb : isSpace1 b := by
      by_contra hb
      simp [spaceWidth, hb] at h
    rcases e with _ | ⟨c, _ | ⟨d, e⟩⟩ <;> simp [spaceWidth, hb]
  | [b, c], h =>
    rcases e with _ | ⟨d, e⟩
    · rfl
    · by_cases hb : isSpace1 b
      · simp [spaceWidth, hb]
      · by_cases hc : isSpace2 b c
        · simp [spaceWidth, hb, hc]
        · simp [spaceWidth, hb, hc] at h
  | b :: c :: d :: rest, h => rfl

/-- A byte that is no ASCII space, alone or before bytes that do not complete a space. -/
def Truncated (data : Bytes) : Prop :=
  ∃ b rest, data = b :: rest ∧ rest.length ≤ 1 ∧ ∀ c ∈ rest, 0x80 ≤ c

/-- Data that is seen to start with a space only once there is more of it. -/
theorem truncated_of_append {data e : Bytes} (hne : data ≠ []) (h : spaceWidth data = 0)
    (h' : 0 < spaceWidth (data ++ e)) : Truncated data := by
  match data, hne with
  | [b], _ => exact ⟨b, [], rfl, by simp, by simp⟩
  | [b, c], _ =>
    refine ⟨b, [c], rfl, Nat.le_refl _, fun c' hc' => ?_⟩
    obtain rfl := List.mem_singleton.mp hc'
    rcases e with _ | ⟨d, e⟩
    · rw [List.append_nil] at h'
      omega
    · by_cases hb : isSpace1 b
      · simp [spaceWidth, hb] at h
      · by_cases hc : isSpace2 b c'
        · simp [spaceWidth, hb, hc] at h
        · by_cases hd : isSpace3 b c' d
          · rcases hd with ⟨-, rfl, -⟩ | ⟨-, rfl, -⟩ | ⟨-, rfl, -⟩ | ⟨-, rfl, -⟩ <;> decide
          · simp [spaceWidth, hb, hc, hd] at h'
  | b :: c :: d :: rest, _ =>
    have heq : spaceWidth (b :: c :: d :: rest ++ e) = spaceWidth (b :: c :: d :: rest) := rfl
    exact absurd h' (by rw [heq]; omega)

/-- The first space of `data`: where it is and its width. -/
def wordEnd : Bytes → Option (Nat × Nat)
  | [] => none
  | b :: rest =>
    if 0 < spaceWidth (b :: rest) then some (0, spaceWidth (b :: rest))
    else (wordEnd rest).map fun (i, width) => (i + 1, width)

theorem wordEnd_le : ∀ {data : Bytes} {i width : Nat}, wordEnd data = some (i, width) →
    0 < width ∧ i + width ≤ data.length
  | [], i, width, h => by cases h
  | b :: rest, i, width, h => by
    unfold wordEnd at h
    split at h
    next hpos =>
      cases h
      exact ⟨hpos, by rw [Nat.zero_add]; exact spaceWidth_le _⟩
    next =>
      obtain ⟨⟨j, w⟩, hj, heq⟩ := Option.map_eq_some_iff.mp h
      cases heq
      obtain ⟨hpos, hle⟩ := wordEnd_le hj
      exact ⟨hpos, by rw [List.length_cons]; omega⟩

/-- A rune that is not whole yet ends no word. -/
theorem wordEnd_truncated {data : Bytes} (h : Truncated data) (hzero : spaceWidth data = 0) :
    wordEnd data = none := by
  obtain ⟨b, rest, rfl, hlen, hhigh⟩ := h
  unfold wordEnd
  rw [if_neg (by omega)]
  rcases rest with _ | ⟨c, _ | ⟨d, rest⟩⟩
  · rfl
  · have hc := hhigh c (List.mem_singleton_self c)
    have hc' : ¬isSpace1 c := by
      unfold isSpace1
      rw [UInt8.le_iff_toNat_le] at hc
      simp only [UInt8.le_iff_toNat_le, ← UInt8.toNat_inj] at hc ⊢
      simp at hc ⊢
      omega
    simp [wordEnd, spaceWidth, hc']
  · simp at hlen

/-- **The end of a word at hand stays where it is.** -/
theorem wordEnd_append {data : Bytes} {i width : Nat} (h : wordEnd data = some (i, width))
    (e : Bytes) :
    wordEnd (data ++ e) = some (i, width) := by
  induction data generalizing i width with
  | nil => cases h
  | cons b rest ih =>
    by_cases hpos : 0 < spaceWidth (b :: rest)
    · have happ := spaceWidth_append hpos e
      unfold wordEnd at h
      rw [if_pos hpos] at h
      rw [List.cons_append] at happ ⊢
      unfold wordEnd
      rw [happ, if_pos hpos]
      exact h
    · have hzero : spaceWidth (b :: rest ++ e) = 0 := by
        by_contra hne
        have htrunc :=
          truncated_of_append (List.cons_ne_nil b rest) (by omega) (Nat.pos_of_ne_zero hne)
        rw [wordEnd_truncated htrunc (by omega)] at h
        cases h
      unfold wordEnd at h
      rw [if_neg hpos] at h
      obtain ⟨⟨j, w⟩, hj, heq⟩ := Option.map_eq_some_iff.mp h
      rw [List.cons_append] at hzero ⊢
      unfold wordEnd
      rw [if_neg (by omega), ih hj, Option.map_some]
      exact congrArg some heq

theorem length_drop_spaceWidth {data : Bytes} (h : ¬spaceWidth data = 0) :
    (data.drop (spaceWidth data)).length < data.length := by
  have := spaceWidth_le data
  rw [List.length_drop]
  omega

/-- The bytes of the spaces at the front of `data`. -/
def leadingSpaces (data : Bytes) : Nat :=
  if _h : spaceWidth data = 0 then 0
    else spaceWidth data + leadingSpaces (data.drop (spaceWidth data))
termination_by data.length
decreasing_by exact length_drop_spaceWidth _h

theorem leadingSpaces_eq_zero {data : Bytes} (h : spaceWidth data = 0) :
    leadingSpaces data = 0 := by
  rw [leadingSpaces, dif_pos h]

/-- The spaces lie in the data. -/
theorem leadingSpaces_le (data : Bytes) : leadingSpaces data ≤ data.length := by
  induction hn : data.length using Nat.strong_induction_on generalizing data with
  | _ n ih =>
    rw [leadingSpaces]
    have hle := spaceWidth_le data
    split
    · exact Nat.zero_le _
    next hne =>
      have := ih (data.drop (spaceWidth data)).length (hn ▸ length_drop_spaceWidth hne) _ rfl
      rw [List.length_drop] at this
      omega

/-- Where the leading spaces end there is no space. -/
theorem spaceWidth_drop_leadingSpaces (data : Bytes) :
    spaceWidth (data.drop (leadingSpaces data)) = 0 := by
  induction hn : data.length using Nat.strong_induction_on generalizing data with
  | _ n ih =>
    rw [leadingSpaces]
    have hle := spaceWidth_le data
    split
    next hzero => exact hzero
    next hne =>
      rw [← List.drop_drop]
      exact ih (data.drop (spaceWidth data)).length (hn ▸ length_drop_spaceWidth hne) _ rfl

/-- More data may have more of the leading spaces. -/
theorem leadingSpaces_append (data e : Bytes) :
    leadingSpaces (data ++ e) =
      leadingSpaces data + leadingSpaces (data.drop (leadingSpaces data) ++ e) := by
  induction hn : data.length using Nat.strong_induction_on generalizing data with
  | _ n ih =>
    have hle := spaceWidth_le data
    by_cases hzero : spaceWidth data = 0
    · rw [leadingSpaces_eq_zero hzero, List.drop_zero, Nat.zero_add]
    · have happ := spaceWidth_append (Nat.pos_of_ne_zero hzero) e
      have hrec := ih (data.drop (spaceWidth data)).length (hn ▸ length_drop_spaceWidth hzero) _ rfl
      rw [leadingSpaces, happ, dif_neg hzero, List.drop_append_of_le_length hle, hrec]
      conv_rhs => rw [leadingSpaces, dif_neg hzero]
      rw [← List.drop_drop]
      omega

/-! ## The split functions -/

/-- A word and the space after it lie in the data. -/
theorem word_advance_le {data : Bytes} {i width : Nat}
    (h : wordEnd (data.drop (leadingSpaces data)) = some (i, width)) :
    leadingSpaces data + i + width ≤ data.length := by
  have h1 := (wordEnd_le h).2
  have h2 := leadingSpaces_le data
  rw [List.length_drop] at h1
  omega

theorem zero_le_length (data : Bytes) : 0 ≤ data.length := Nat.zero_le _

theorem length_le_length (data : Bytes) : data.length ≤ data.length := Nat.le_refl _

/-- A slice of the data is in order and lies in it. -/
theorem slice_le {a b n : Nat} (hab : a ≤ b) (hbn : b ≤ n) :
    ∀ t ∈ some (a, b), t.1 ≤ t.2 ∧ t.2 ≤ n := by
  rintro _ ⟨⟩
  exact ⟨hab, hbn⟩

theorem none_le (n : Nat) : ∀ t ∈ (none : Option (Nat × Nat)), t.1 ≤ t.2 ∧ t.2 ≤ n := by
  rintro _ ⟨⟩

theorem none_advances (n : Nat) : (none : Option (Nat × Nat)).isSome = true → 0 < n := by
  intro h
  cases h

/-- No token: the first `n` bytes are skipped. -/
def Split.skip {data : Bytes} (n : Nat) (hn : n ≤ data.length) : Split data where
  advance := n
  token := none
  advance_le := hn
  token_le := none_le n
  advances := none_advances n

/-- A token within the first `n` bytes. -/
def Split.slice {data : Bytes} (a b n : Nat) (hab : a ≤ b) (hbn : b ≤ n) (hn : n ≤ data.length)
    (hpos : 0 < n) :
    Split data where
  advance := n
  token := some (a, b)
  advance_le := hn
  token_le := slice_le hab hbn
  advances _ := hpos

/-- `bufio.ScanWords` -/
def scanWords : SplitFunc := fun data atEOF =>
  match h : wordEnd (data.drop (leadingSpaces data)) with
  | none =>
    if hend : atEOF = true ∧ leadingSpaces data < data.length then
      .slice (leadingSpaces data) data.length data.length
        (leadingSpaces_le data) (length_le_length data) (length_le_length data)
          (Nat.zero_lt_of_lt hend.2)
    else .skip (leadingSpaces data) (leadingSpaces_le data)
  | some (i, width) =>
    .slice (leadingSpaces data) (leadingSpaces data + i) (leadingSpaces data + i + width)
      (Nat.le_add_right _ _) (Nat.le_add_right _ _) (word_advance_le h)
        (Nat.add_pos_right _ (wordEnd_le h).1)

/-- `bufio.ScanBytes`; a `Scanner` calls it without data only at the end of the stream. -/
def scanBytes : SplitFunc := fun data _ =>
  if h : data = [] then .skip 0 (zero_le_length data)
  else .slice 0 1 1 (Nat.zero_le 1) Nat.le.refl (List.length_pos_iff.mpr h) Nat.one_pos

/-- A word with the space after it at hand. -/
theorem scanWords_word {data : Bytes} {i width : Nat}
    (h : wordEnd (data.drop (leadingSpaces data)) = some (i, width)) (atEOF : Bool) :
    (scanWords data atEOF).token = some (leadingSpaces data, leadingSpaces data + i) ∧
      (scanWords data atEOF).advance = leadingSpaces data + i + width := by
  unfold scanWords
  split
  next h' =>
    rw [h] at h'
    cases h'
  next i' width' h' =>
    obtain ⟨rfl, rfl⟩ : i = i' ∧ width = width' := by
      rw [h] at h'
      simpa using h'
    exact ⟨rfl, rfl⟩

/-- No space after the leading ones: a word only at the end of the stream. -/
theorem scanWords_rest {data : Bytes} (h : wordEnd (data.drop (leadingSpaces data)) = none)
    (atEOF : Bool) :
    (scanWords data atEOF).token =
        (if atEOF = true ∧ leadingSpaces data < data.length then some
          (leadingSpaces data, data.length) else none) ∧
      (scanWords data atEOF).advance =
        if atEOF = true ∧ leadingSpaces data < data.length then data.length
          else leadingSpaces data := by
  unfold scanWords
  split
  next =>
    split
    · exact ⟨rfl, rfl⟩
    · exact ⟨rfl, rfl⟩
  next i' width' h' =>
    rw [h] at h'
    cases h'

/-- **`ScanWords` is lawful.** -/
theorem lawful_scanWords : Lawful scanWords where
  token := by
    intro d a b htok e atEOF
    cases hword : wordEnd (d.drop (leadingSpaces d)) with
    | none =>
      rw [(scanWords_rest hword false).1, if_neg (by simp)] at htok
      cases htok
    | some p =>
      obtain ⟨i, width⟩ := p
      have hdrop := wordEnd_append hword e
      have hle := leadingSpaces_le d
      -- the word at hand does not start with a space, whatever comes after it
      have hstart : leadingSpaces (d ++ e) = leadingSpaces d := by
        rw [leadingSpaces_append]
        refine (congrArg _ (leadingSpaces_eq_zero ?_)).trans (Nat.add_zero _)
        by_contra hne
        have hzero := spaceWidth_drop_leadingSpaces d
        have hnil : d.drop (leadingSpaces d) ≠ [] := by
          intro hnil
          rw [hnil] at hword
          cases hword
        rw [wordEnd_truncated (truncated_of_append hnil hzero (Nat.pos_of_ne_zero hne)) hzero]
          at hword
        cases hword
      have hword' : wordEnd ((d ++ e).drop (leadingSpaces (d ++ e))) = some (i, width) := by
        rw [hstart, List.drop_append_of_le_length hle]
        exact hdrop
      rw [(scanWords_word hword' atEOF).1, (scanWords_word hword' atEOF).2, hstart, ← htok,
        (scanWords_word hword false).1, (scanWords_word hword false).2]
      exact ⟨rfl, rfl⟩
  skip := by
    intro d k htok hk e atEOF
    cases hword : wordEnd (d.drop (leadingSpaces d)) with
    | some p =>
      obtain ⟨i, width⟩ := p
      rw [(scanWords_word hword false).1] at htok
      cases htok
    | none =>
      rw [(scanWords_rest hword false).2, if_neg (by simp)] at hk
      subst hk
      have hle := leadingSpaces_le d
      have hstart := leadingSpaces_append d e
      generalize hrest : d.drop (leadingSpaces d) ++ e = rest at hstart
      have hdrop : (d ++ e).drop (leadingSpaces (d ++ e)) = rest.drop (leadingSpaces rest) := by
        rw [hstart, ← List.drop_drop, List.drop_append_of_le_length hle, hrest]
      have hlen : (d ++ e).length = leadingSpaces d + rest.length := by
        rw [← hrest]
        simp only [List.length_append, List.length_drop]
        omega
      cases hword' : wordEnd (rest.drop (leadingSpaces rest)) with
      | some p =>
        obtain ⟨i, width⟩ := p
        have hword'' := hword'
        rw [← hdrop] at hword''
        obtain ⟨h1, h2⟩ := scanWords_word hword' atEOF
        obtain ⟨h3, h4⟩ := scanWords_word hword'' atEOF
        rw [h1, h2, h3, h4, hstart]
        exact ⟨by simp [Nat.add_assoc], by omega⟩
      | none =>
        have hword'' := hword'
        rw [← hdrop] at hword''
        obtain ⟨h1, h2⟩ := scanWords_rest hword' atEOF
        obtain ⟨h3, h4⟩ := scanWords_rest hword'' atEOF
        rw [h1, h2, h3, h4, hstart, hlen]
        by_cases hend : atEOF = true ∧ leadingSpaces rest < rest.length
        · have hend' : atEOF = true ∧ leadingSpaces d + leadingSpaces rest <
              leadingSpaces d + rest.length :=
            ⟨hend.1, Nat.add_lt_add_left hend.2 _⟩
          rw [if_pos hend, if_pos hend, if_pos hend', if_pos hend']
          exact ⟨rfl, rfl⟩
        · have hend' : ¬(atEOF = true ∧
              leadingSpaces d + leadingSpaces rest < leadingSpaces d + rest.length) :=
            fun h => hend ⟨h.1, Nat.lt_of_add_lt_add_left h.2⟩
          rw [if_neg hend, if_neg hend, if_neg hend', if_neg hend']
          exact ⟨rfl, rfl⟩

/-- **`ScanBytes` is lawful.** -/
theorem lawful_scanBytes : Lawful scanBytes where
  token := by
    intro d a b htok e atEOF
    cases d with
    | nil => cases htok
    | cons c d => exact ⟨htok, rfl⟩
  skip := by
    intro d k htok hk e atEOF
    cases d with
    | nil =>
      cases hk
      rw [List.drop_nil, List.nil_append, show (scanBytes [] false).advance = 0 from rfl]
      refine ⟨?_, (Nat.zero_add _).symm⟩
      cases (scanBytes e atEOF).token <;> simp
    | cons c d => cases htok

end ShouldIAsync.GoStd
