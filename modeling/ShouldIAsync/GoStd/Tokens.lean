import ShouldIAsync.GoStd.Scanner

/-!
# The tokens of a stream

A `Scanner` sees a stream a buffer at a time, and which tokens it finds must not depend on
how. `tokenize` is what it finds with as much of the stream at hand as its greatest buffer
holds, and whether it gives up because that holds no token; `tokensOf` is what the split
function finds with the whole stream at hand.

A split function is `Lawful` if more data does not change what it has found: a token stays
the token, and what it skips is skipped. Then the tokens of a stream are those of the
pieces that a scanner consumes (`tokenize_token`, `tokenize_skip`).
-/

namespace ShouldIAsync.GoStd

/-! ## Tokens -/

/-- What is left after an advance is shorter. -/
theorem Split.length_drop_lt {data stream : Bytes} (r : Split data)
    (hle : data.length ≤ stream.length)
    (hpos : 0 < r.advance) : (stream.drop r.advance).length < stream.length := by
  have := r.advance_le
  rw [List.length_drop]
  omega

/-- A token advances. -/
theorem Split.advance_pos {data : Bytes} (r : Split data) {t : Nat × Nat} (h : r.token = some t) :
    0 < r.advance := r.advances (by rw [h]; rfl)

/-- The tokens of a stream, and whether the scan ends because there is none in a full
buffer. -/
def tokenize (split : SplitFunc) (stream : Bytes) : List Bytes × Bool :=
  let data := stream.take maxScanTokenSize
  let atEOF := decide (stream.length < maxScanTokenSize)
  let r := split data atEOF
  match _h : r.token with
  | some (a, b) =>
    let rest := tokenize split (stream.drop r.advance)
    ((data.take b).drop a :: rest.1, rest.2)
  | none =>
    if atEOF then ([], false)
    else if _hadv : r.advance = 0 then ([], true)
    else tokenize split (stream.drop r.advance)
termination_by stream.length
decreasing_by
  · exact r.length_drop_lt (List.length_take_le' ..) (r.advance_pos _h)
  · exact r.length_drop_lt (List.length_take_le' ..) (Nat.pos_of_ne_zero _hadv)

/-- The tokens that a split function finds in the whole stream. -/
def tokensOf (split : SplitFunc) (stream : Bytes) : List Bytes :=
  let r := split stream true
  match _h : r.token with
  | some (a, b) => (stream.take b).drop a :: tokensOf split (stream.drop r.advance)
  | none => []
termination_by stream.length
decreasing_by exact r.length_drop_lt (Nat.le_refl _) (r.advance_pos _h)

/-- Every token and what it takes to see its end fit in the greatest buffer of a scanner. -/
def WithinLimit (split : SplitFunc) (stream : Bytes) : Prop := (tokenize split stream).2 = false

/-- More data does not change what a split function has found. -/
structure Lawful (split : SplitFunc) : Prop where
  token : ∀ {d : Bytes} {a b : Nat}, (split d false).token = some (a, b) →
    ∀ (e : Bytes) (atEOF : Bool),
    (split (d ++ e) atEOF).token = some (a, b) ∧
      (split (d ++ e) atEOF).advance = (split d false).advance
  skip : ∀ {d : Bytes} {k : Nat}, (split d false).token = none → (split d false).advance = k →
    ∀ (e : Bytes) (atEOF : Bool),
      (split (d ++ e) atEOF).token =
        (split (d.drop k ++ e) atEOF).token.map (fun t => (k + t.1, k + t.2)) ∧
      (split (d ++ e) atEOF).advance = k + (split (d.drop k ++ e) atEOF).advance

variable {split : SplitFunc}

/-! ## One token at a time -/

/-- The data of a scanner and what is yet to come, as far as the greatest buffer goes. -/
theorem window_append {d : Bytes} (hd : d.length ≤ maxScanTokenSize) (e : Bytes) :
    (d ++ e).take maxScanTokenSize = d ++ e.take (maxScanTokenSize - d.length) := by
  rw [List.take_append, List.take_of_length_le hd]

theorem tokenize_eq_token {stream : Bytes} {a b n : Nat} (atEOF : Bool)
    (heof : atEOF = decide (stream.length < maxScanTokenSize))
    (htok : (split (stream.take maxScanTokenSize) atEOF).token = some (a, b))
    (hadv : (split (stream.take maxScanTokenSize) atEOF).advance = n) :
    tokenize split stream =
      (((stream.take maxScanTokenSize).take b).drop a :: (tokenize split (stream.drop n)).1,
        (tokenize split (stream.drop n)).2) := by
  subst heof
  rw [tokenize]
  dsimp only
  split
  next a' b' h =>
    obtain ⟨rfl, rfl⟩ : a = a' ∧ b = b' := by
      rw [htok] at h
      simpa using h
    rw [hadv]
  next h =>
    rw [htok] at h
    cases h

/-- No token: the end, a token that is too long, or bytes to skip. -/
theorem tokenize_eq_none {stream : Bytes} {n : Nat} (atEOF : Bool)
    (heof : atEOF = decide (stream.length < maxScanTokenSize))
    (htok : (split (stream.take maxScanTokenSize) atEOF).token = none)
    (hadv : (split (stream.take maxScanTokenSize) atEOF).advance = n) :
    tokenize split stream = if atEOF then ([], false) else if n = 0 then ([], true)
      else tokenize split (stream.drop n) := by
  subst heof
  rw [tokenize]
  dsimp only
  split
  next a' b' h =>
    rw [htok] at h
    cases h
  next => rw [hadv, dite_eq_ite]

/-- **A token in the data at hand is the first token of the stream.** -/
theorem tokenize_token (hl : Lawful split) {d : Bytes} (hd : d.length ≤ maxScanTokenSize)
    {a b : Nat} (htok : (split d false).token = some (a, b)) (e : Bytes) :
    tokenize split (d ++ e) =
      ((d.take b).drop a :: (tokenize split (d.drop (split d false).advance ++ e)).1,
        (tokenize split (d.drop (split d false).advance ++ e)).2) := by
  have hwin := window_append hd e
  obtain ⟨htok', hadv'⟩ := hl.token htok (e.take (maxScanTokenSize - d.length))
    (decide ((d ++ e).length < maxScanTokenSize))
  rw [← hwin] at htok' hadv'
  have hb : b ≤ d.length :=
    Nat.le_trans ((split d false).token_le _ htok).2 (split d false).advance_le
  rw [tokenize_eq_token _ rfl htok' hadv', hwin, List.take_append_of_le_length hb,
    List.drop_append_of_le_length (split d false).advance_le]

/-- A slice of what is left after `k` bytes. -/
theorem slice_shift (l : Bytes) (k a b : Nat) :
    (l.take (k + b)).drop (k + a) = ((l.drop k).take b).drop a := by
  rw [List.take_drop, List.drop_drop]

/-- **What is skipped without a token does not matter.** -/
theorem tokenize_skip (hl : Lawful split) {d : Bytes} (hd : d.length ≤ maxScanTokenSize)
    (htok : (split d false).token = none) (e : Bytes) :
    tokenize split (d ++ e) = tokenize split (d.drop (split d false).advance ++ e) := by
  induction hn : (d ++ e).length using Nat.strong_induction_on generalizing d e with
  | _ n ih =>
    obtain ⟨k, hk⟩ : ∃ k, (split d false).advance = k := ⟨_, rfl⟩
    have hkd : k ≤ d.length := hk ▸ (split d false).advance_le
    rw [hk]
    by_cases hk0 : k = 0
    · rw [hk0, List.drop_zero]
    -- `e₁` is the rest of the window of `d ++ e`, `e₂` what comes after it
    obtain ⟨e₁, he₁⟩ : ∃ e₁, e.take (maxScanTokenSize - d.length) = e₁ := ⟨_, rfl⟩
    obtain ⟨e₂, he₂⟩ : ∃ e₂, e.drop (maxScanTokenSize - d.length) = e₂ := ⟨_, rfl⟩
    have he : e = e₁ ++ e₂ := by rw [← he₁, ← he₂, List.take_append_drop]
    have hwin : (d ++ e).take maxScanTokenSize = d ++ e₁ := by rw [window_append hd e, he₁]
    have hlen : (d ++ e₁).length ≤ maxScanTokenSize := by rw [← hwin]; exact List.length_take_le ..
    have hdrop : (d ++ e).drop k = d.drop k ++ e₁ ++ e₂ := by
      rw [List.drop_append_of_le_length hkd, he, List.append_assoc]
    have hlen' : (d.drop k ++ e₁).length ≤ maxScanTokenSize := by
      rw [List.length_append] at hlen
      rw [List.length_append, List.length_drop]
      omega
    have hY : d.drop k ++ e = d.drop k ++ e₁ ++ e₂ := by rw [he, List.append_assoc]
    obtain ⟨htok', hadv'⟩ := hl.skip htok hk e₁ (decide ((d ++ e).length < maxScanTokenSize))
    rw [← hwin] at htok' hadv'
    by_cases heof : (d ++ e).length < maxScanTokenSize
    · -- the window is the whole stream
      have he₂nil : e₂ = [] := by
        rw [List.length_append] at heof
        rw [← he₂, List.drop_eq_nil_iff]
        omega
      rw [he₂nil, List.append_nil] at hY hdrop
      rw [decide_eq_true heof] at htok' hadv'
      have heof' : (d.drop k ++ e₁).length < maxScanTokenSize := by
        rw [← hdrop, List.length_drop]
        omega
      have hwin' : (d.drop k ++ e₁).take maxScanTokenSize = d.drop k ++ e₁ :=
        List.take_of_length_le hlen'
      rw [hY]
      cases ht : (split (d.drop k ++ e₁) true).token with
      | none =>
        rw [ht] at htok'
        rw [tokenize_eq_none true (decide_eq_true heof).symm htok' hadv',
          tokenize_eq_none true (decide_eq_true heof').symm (by rw [hwin']; exact ht)
            (by rw [hwin'])]
        rfl
      | some t =>
        rw [ht] at htok'
        rw [tokenize_eq_token true (decide_eq_true heof).symm htok' hadv',
          tokenize_eq_token true (decide_eq_true heof').symm (by rw [hwin']; exact ht)
            (by rw [hwin'])]
        have hX : (d ++ e).take maxScanTokenSize = d ++ e :=
          List.take_of_length_le (Nat.le_of_lt heof)
        rw [hX, hwin', slice_shift, ← List.drop_drop, hdrop]
    · rw [decide_eq_false heof] at htok' hadv'
      cases ht : (split (d.drop k ++ e₁) false).token with
      | none =>
        rw [ht] at htok'
        have hrec := ih (d.drop k ++ e₁ ++ e₂).length (by
          rw [← hn, ← hdrop, List.length_drop]
          have : 0 < (d ++ e).length := by rw [List.length_append]; omega
          omega) hlen' ht e₂ rfl
        rw [tokenize_eq_none false (decide_eq_false heof).symm htok' hadv', hY, hrec]
        rw [if_neg (by simp), if_neg (by omega), ← List.drop_drop, hdrop,
          List.drop_append_of_le_length (split _ false).advance_le]
      | some t =>
        rw [ht] at htok'
        rw [tokenize_eq_token false (decide_eq_false heof).symm htok' hadv', hY,
          tokenize_token hl hlen' ht]
        rw [hwin, slice_shift, List.drop_append_of_le_length hkd, ← List.drop_drop, hdrop,
          List.drop_append_of_le_length (split _ false).advance_le]

/-- At the end of the stream the token is the first one of what is left. -/
theorem tokenize_token_eof {d : Bytes} (hd : d.length < maxScanTokenSize) {a b : Nat}
    (htok : (split d true).token = some (a, b)) :
    tokenize split d = ((d.take b).drop a :: (tokenize split (d.drop (split d true).advance)).1,
      (tokenize split (d.drop (split d true).advance)).2) := by
  have hwin : d.take maxScanTokenSize = d := List.take_of_length_le (Nat.le_of_lt hd)
  rw [tokenize_eq_token true (decide_eq_true hd).symm (by rw [hwin]; exact htok)
    (by rw [hwin]), hwin]

theorem tokenize_none_eof {d : Bytes} (hd : d.length < maxScanTokenSize)
    (htok : (split d true).token = none) : tokenize split d = ([], false) := by
  have hwin : d.take maxScanTokenSize = d := List.take_of_length_le (Nat.le_of_lt hd)
  rw [tokenize_eq_none true (decide_eq_true hd).symm (by rw [hwin]; exact htok)
    (by rw [hwin]), if_pos rfl]

/-- A full buffer without a token is too long for one. -/
theorem tokenize_full {d : Bytes} (hd : d.length = maxScanTokenSize)
    (htok : (split d false).token = none)
    (hadv : (split d false).advance = 0) (e : Bytes) : tokenize split (d ++ e) = ([], true) := by
  have hwin : (d ++ e).take maxScanTokenSize = d := by rw [← hd, List.take_left]
  have heof : ¬(d ++ e).length < maxScanTokenSize := by
    rw [List.length_append]
    omega
  rw [tokenize_eq_none (n := 0) false (decide_eq_false heof).symm (by rw [hwin]; exact htok)
    (by rw [hwin]; exact hadv), if_neg (by simp), if_pos rfl]

/-- A token, and then those of the rest. -/
theorem tokensOf_token {d : Bytes} {a b : Nat} (htok : (split d true).token = some (a, b)) :
    tokensOf split d = (d.take b).drop a :: tokensOf split (d.drop (split d true).advance) := by
  rw [tokensOf]
  split
  next a' b' h =>
    obtain ⟨rfl, rfl⟩ : a = a' ∧ b = b' := by
      rw [htok] at h
      simpa using h
    rfl
  next h =>
    rw [htok] at h
    cases h

theorem tokensOf_none {d : Bytes} (htok : (split d true).token = none) : tokensOf split d = [] := by
  rw [tokensOf]
  split
  next a' b' h =>
    rw [htok] at h
    cases h
  next => rfl

/-- Bytes that are skipped are in no token. -/
theorem tokensOf_skip (hl : Lawful split) {d : Bytes} (htok : (split d false).token = none)
    (e : Bytes) :
    tokensOf split (d ++ e) = tokensOf split (d.drop (split d false).advance ++ e) := by
  obtain ⟨htok', hadv'⟩ := hl.skip htok rfl e true
  have hle := (split d false).advance_le
  cases ht : (split (d.drop (split d false).advance ++ e) true).token with
  | none =>
    rw [ht] at htok'
    rw [tokensOf_none htok', tokensOf_none ht]
  | some t =>
    rw [ht] at htok'
    rw [tokensOf_token htok', tokensOf_token ht, slice_shift, hadv', ← List.drop_drop,
      List.drop_append_of_le_length hle]

/-- **Within the limit the buffer makes no difference.** -/
theorem tokenize_of_withinLimit (hl : Lawful split) {stream : Bytes}
    (h : WithinLimit split stream) :
    (tokenize split stream).1 = tokensOf split stream := by
  induction hn : stream.length using Nat.strong_induction_on generalizing stream with
  | _ n ih =>
    unfold WithinLimit at h ih
    by_cases heof : stream.length < maxScanTokenSize
    · cases ht : (split stream true).token with
      | none => rw [tokenize_none_eof heof ht, tokensOf_none ht]
      | some t =>
        rw [tokenize_token_eof heof ht] at h ⊢
        rw [tokensOf_token ht]
        refine congrArg _ (ih _ ?_ h rfl)
        rw [← hn]
        exact (split stream true).length_drop_lt (Nat.le_refl _)
          ((split stream true).advance_pos ht)
    · obtain ⟨d, e, hd, rfl⟩ : ∃ d e, d.length = maxScanTokenSize ∧ d ++ e = stream :=
        ⟨_, _, List.length_take_of_le (Nat.le_of_not_lt heof), List.take_append_drop _ stream⟩
      have hle := (split d false).advance_le
      cases ht : (split d false).token with
      | none =>
        by_cases hadv : (split d false).advance = 0
        · rw [tokenize_full hd ht hadv] at h
          cases h
        · rw [tokenize_skip hl (Nat.le_of_eq hd) ht] at h ⊢
          rw [tokensOf_skip hl ht]
          refine ih _ ?_ h rfl
          rw [← hn, ← List.drop_append_of_le_length hle]
          exact (split d false).length_drop_lt (by simp) (Nat.pos_of_ne_zero hadv)
      | some t =>
        obtain ⟨ht', hadv⟩ := hl.token ht e true
        have hb : t.2 ≤ d.length := Nat.le_trans ((split d false).token_le _ ht).2 hle
        rw [tokenize_token hl (Nat.le_of_eq hd) ht] at h ⊢
        rw [tokensOf_token ht', hadv, List.take_append_of_le_length hb,
          List.drop_append_of_le_length hle]
        refine congrArg _ (ih _ ?_ h rfl)
        rw [← hn, ← List.drop_append_of_le_length hle]
        exact (split d false).length_drop_lt (by simp) ((split d false).advance_pos ht)

/-! ## `ScanLines` -/

/-- **`ScanLines` is lawful.** -/
theorem lawful_scanLines : Lawful scanLines where
  token := by
    intro d a b htok e atEOF
    rcases splitLines_cases d with hd | ⟨l, rest, hl, rfl⟩
    · rw [(scanLines_more hd).1] at htok
      cases htok
    · obtain ⟨ht, ha⟩ := scanLines_line hl rest false
      obtain ⟨ht', ha'⟩ := scanLines_line hl (rest ++ e) atEOF
      rw [List.append_assoc, List.cons_append, ht', ha', ha]
      exact ⟨ht.symm.trans htok, rfl⟩
  skip := by
    intro d k htok hk e atEOF
    rcases splitLines_cases d with hd | ⟨l, rest, hl, rfl⟩
    · obtain rfl : 0 = k := (scanLines_more hd).2.symm.trans hk
      rw [List.drop_zero]
      simp
    · rw [(scanLines_line hl rest false).1] at htok
      cases htok

/-- Lines that fit in the scanner's greatest buffer with their newline. -/
def fitting (lines : List Bytes) : List Bytes :=
  lines.takeWhile fun l => decide (l.length < maxScanTokenSize)

/-- A line that does not fit ends the tokens. -/
theorem tokenize_scanLines_long {d : Bytes} (hd : newline ∉ d) (hlen : maxScanTokenSize ≤ d.length)
    (e : Bytes) :
    tokenize scanLines (d ++ e) = ([], true) := by
  have hnl : newline ∉ d.take maxScanTokenSize := fun h => hd (List.mem_of_mem_take h)
  rw [← List.take_append_drop maxScanTokenSize d, List.append_assoc]
  exact tokenize_full (List.length_take_of_le hlen) (scanLines_more hnl).1 (scanLines_more hnl).2 _

/-- **The tokens of a stream are its lines**, without their carriage returns, up to the
first one that is too long. -/
theorem tokenize_scanLines (stream : Bytes) : tokenize scanLines stream =
    ((fitting (splitLines stream)).map dropCR,
      !(splitLines stream).all fun l => decide (l.length < maxScanTokenSize)) := by
  induction hn : stream.length using Nat.strong_induction_on generalizing stream with
  | _ n ih =>
    rcases splitLines_cases stream with hnl | ⟨l, rest, hl, rfl⟩
    · by_cases hlen : stream.length < maxScanTokenSize
      · by_cases hnil : stream = []
        · have htok := (scanLines_rest hnl true).1
          rw [if_neg (by simp [hnil])] at htok
          rw [tokenize_none_eof hlen htok, hnil]
          rfl
        · obtain ⟨htok, hadv⟩ := scanLines_rest hnl true
          rw [if_pos ⟨rfl, hnil⟩] at htok hadv
          rw [tokenize_token_eof hlen htok, hadv, List.drop_length, splitLines_of_not_mem hnl hnil,
            List.drop_zero, take_dropCR,
              tokenize_none_eof (by decide) (scanLines_rest (by simp) true).1]
          simp [fitting, hlen]
      · have hlong := tokenize_scanLines_long hnl (Nat.le_of_not_lt hlen) []
        have hne : stream ≠ [] := by
          rintro rfl
          exact hlen (by decide)
        rw [List.append_nil] at hlong
        rw [hlong, splitLines_of_not_mem hnl hne]
        simp [fitting, hlen]
    · rw [splitLines_newline hl]
      by_cases hlen : l.length < maxScanTokenSize
      · obtain ⟨htok, hadv⟩ := scanLines_line hl [] false
        have hle : (l ++ [newline]).length ≤ maxScanTokenSize := by
          rw [List.length_append]
          exact hlen
        have hrest : (l ++ [newline]).drop (l.length + 1) = [] := List.drop_eq_nil_of_le (by simp)
        have hrec := ih rest.length (by rw [← hn]; simp; omega) rest rfl
        have hcons : l ++ newline :: rest = l ++ [newline] ++ rest := by simp
        rw [hcons, tokenize_token lawful_scanLines hle htok, hadv, hrest, List.nil_append, hrec,
          List.take_append_of_le_length (length_dropCR_le l), take_dropCR, List.drop_zero]
        simp [fitting, hlen]
      · rw [tokenize_scanLines_long hl (Nat.le_of_not_lt hlen)]
        simp [fitting, hlen]

end ShouldIAsync.GoStd
