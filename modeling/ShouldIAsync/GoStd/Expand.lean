import Mathlib.Data.List.TakeWhile

/-!
# `os.Expand`

`Expand` replaces `${var}` or `$var` in a string by what the mapping function has for `var`. It
reads the string once from left to right: what is put in is not read again. A `$` that no name
follows stays; an empty `${}` and the `${` of one that is not closed are dropped.

`Reads s ps` is this syntax: the pieces `ps` of a string `s`, text and variables. Every string has
its pieces (`exists_reads`), and `Expand` puts the values of the variables between the text
(`expand_eq`). The mapping function may panic; so does `Expand` then, at the first variable it
panics at (`values_ok_iff`).
-/

namespace ShouldIAsync.GoStd

/-- `isShellSpecialVar` -/
def isShellSpecialVar (c : Char) : Bool :=
  c ∈ ['*', '#', '$', '@', '!', '?', '-', '0', '1', '2', '3', '4', '5', '6', '7', '8', '9']

/-- `isAlphaNum` -/
def isAlphaNum (c : Char) : Bool :=
  c = '_' || ('0' ≤ c && c ≤ '9') || ('a' ≤ c && c ≤ 'z') || ('A' ≤ c && c ≤ 'Z')

/-- `getShellName`: the name that begins the string, and how much of the string it takes. -/
def getShellName : List Char → List Char × Nat
  | [] => ([], 0)
  | c :: s =>
    if c = '{' then
      if s.head?.any isShellSpecialVar && s.tail.head? = some '}' then (s.take 1, 3)
      else
        match s.findIdx? (· = '}') with
        | none => ([], 1)
        | some 0 => ([], 2)
        | some i => (s.take i, i + 2)
    else if isShellSpecialVar c then ([c], 1)
    else ((c :: s).takeWhile isAlphaNum, ((c :: s).takeWhile isAlphaNum).length)

variable {ε : Type}

/-- `Expand` where `skip` characters of the string belong to the name before it. -/
def expandFrom (mapping : List Char → Except ε (List Char)) : Nat → List Char → Except ε (List Char)
  | _, [] => .ok []
  | skip + 1, _ :: s => expandFrom mapping skip s
  | 0, c :: s =>
    if c = '$' && s ≠ [] then
      match getShellName s with
      | ([], 0) => (expandFrom mapping 0 s).map (c :: ·)
      | ([], w) => expandFrom mapping w s
      | (name, w) => (mapping name).bind fun value => (expandFrom mapping w s).map (value ++ ·)
    else (expandFrom mapping 0 s).map (c :: ·)

/-- `os.Expand(s, mapping)` -/
def expand (mapping : List Char → Except ε (List Char)) (s : List Char) : Except ε (List Char) :=
  expandFrom mapping 0 s

/-! ## The syntax -/

/-- A piece of the text: a character, or a variable. -/
inductive Piece
  | text (c : Char)
  | var (name : List Char)
  deriving DecidableEq

/-- A name could go on with the string. -/
def StartsAlphaNum (s : List Char) : Prop := ∃ c ∈ s.head?, isAlphaNum c = true

/-- The string does not go on with a name. -/
def NoName (s : List Char) : Prop :=
  ∀ c ∈ s.head?, c ≠ '{' ∧ isShellSpecialVar c = false ∧ isAlphaNum c = false

/-- How a text falls into pieces. -/
inductive Reads : List Char → List Piece → Prop
  | nil : Reads [] []
  | text {c : Char} {s : List Char} {ps : List Piece} (hc : c ≠ '$') (h : Reads s ps) :
      Reads (c :: s) (.text c :: ps)
  -- nothing follows that could be a name
  | dollar {s : List Char} {ps : List Piece} (hs : NoName s) (h : Reads s ps) :
      Reads ('$' :: s) (.text '$' :: ps)
  | special {c : Char} {s : List Char} {ps : List Piece} (hc : isShellSpecialVar c = true)
      (h : Reads s ps) :
      Reads ('$' :: c :: s) (.var [c] :: ps)
  -- `$name`, as long as it goes on
  | bare {c : Char} {name s : List Char} {ps : List Piece} (hc : isShellSpecialVar c = false)
      (hname : ∀ d ∈ c :: name, isAlphaNum d = true) (hs : ¬ StartsAlphaNum s) (h : Reads s ps) :
      Reads ('$' :: (c :: name ++ s)) (.var (c :: name) :: ps)
  -- `${name}`
  | braced {c : Char} {name s : List Char} {ps : List Piece} (hname : '}' ∉ c :: name)
      (h : Reads s ps) :
      Reads ('$' :: '{' :: (c :: name ++ '}' :: s)) (.var (c :: name) :: ps)
  -- `${}`
  | empty {s : List Char} {ps : List Piece} (h : Reads s ps) : Reads ('$' :: '{' :: '}' :: s) ps
  -- `${` that is not closed
  | unclosed {s : List Char} {ps : List Piece} (hs : '}' ∉ s) (h : Reads s ps) :
      Reads ('$' :: '{' :: s) ps

/-- What a piece is replaced by. -/
def Piece.value (mapping : List Char → Except ε (List Char)) : Piece → Except ε (List Char)
  | .text c => .ok [c]
  | .var name => mapping name

/-- The values one after another, up to the first that fails. -/
def values (mapping : List Char → Except ε (List Char)) : List Piece → Except ε (List Char)
  | [] => .ok []
  | p :: ps => (p.value mapping).bind fun value => (values mapping ps).map (value ++ ·)

variable {mapping : List Char → Except ε (List Char)} {s : List Char} {ps : List Piece}

/-- The characters of a name are skipped. -/
theorem expandFrom_drop (w : Nat) (s : List Char) :
    expandFrom mapping w s = expand mapping (s.drop w) := by
  induction s generalizing w with
  | nil => cases w <;> rfl
  | cons c s ih =>
    cases w with
    | zero => rfl
    | succ w => exact ih w

/-- A character that is no `$` stands for itself. -/
theorem expand_cons {c : Char} (hc : c ≠ '$') (s : List Char) :
    expand mapping (c :: s) = (expand mapping s).map (c :: ·) := by
  unfold expand
  rw [expandFrom, if_neg]
  rw [decide_eq_false hc]
  exact Bool.false_ne_true

/-- A name after the `$`. -/
theorem expand_name {c : Char} {name : List Char} {w : Nat} (hs : s ≠ [])
    (h : getShellName s = (c :: name, w)) :
    expand mapping ('$' :: s) =
      (mapping (c :: name)).bind fun value => (expand mapping (s.drop w)).map (value ++ ·) := by
  rw [← expandFrom_drop]
  unfold expand
  rw [expandFrom, if_pos, h]
  rw [decide_eq_true hs]
  rfl

/-- Bad syntax after the `$`. -/
theorem expand_eaten {w : Nat} (hs : s ≠ []) (h : getShellName s = ([], w + 1)) :
    expand mapping ('$' :: s) = expand mapping (s.drop (w + 1)) := by
  rw [← expandFrom_drop]
  unfold expand
  rw [expandFrom, if_pos, h]
  · rfl
  · rw [decide_eq_true hs]
    rfl

/-- No name after the `$`. -/
theorem expand_dollar (h : getShellName s = ([], 0)) :
    expand mapping ('$' :: s) = (expand mapping s).map ('$' :: ·) := by
  by_cases hs : s = []
  · rw [hs]
    rfl
  · unfold expand
    rw [expandFrom, if_pos, h]
    · rfl
    · rw [decide_eq_true hs]
      rfl

/-! ## Names -/

/-- What cannot be a name is none. -/
theorem getShellName_noName (h : NoName s) : getShellName s = ([], 0) := by
  cases s with
  | nil => rfl
  | cons c s =>
    obtain ⟨hbrace, hspecial, halpha⟩ := h c rfl
    rw [getShellName, if_neg hbrace, hspecial, if_neg Bool.false_ne_true,
      List.takeWhile_cons_of_neg]
    · rfl
    · rw [halpha]
      exact Bool.false_ne_true

/-- None of the characters that are special is a brace. -/
theorem ne_brace_of_special {c : Char} (h : isShellSpecialVar c = true) : c ≠ '{' := by
  rintro rfl
  exact absurd h (by decide)

theorem ne_brace_of_alphaNum {c : Char} (h : isAlphaNum c = true) : c ≠ '{' := by
  rintro rfl
  exact absurd h (by decide)

/-- A special variable is one character. -/
theorem getShellName_special {c : Char} (h : isShellSpecialVar c = true) (s : List Char) :
    getShellName (c :: s) = ([c], 1) := by
  rw [getShellName, if_neg (ne_brace_of_special h), if_pos h]

/-- A name goes as far as there are letters and digits. -/
theorem takeWhile_alphaNum {name s : List Char} (hname : ∀ d ∈ name, isAlphaNum d = true)
    (hs : ¬ StartsAlphaNum s) :
    (name ++ s).takeWhile isAlphaNum = name := by
  rw [List.takeWhile_append_of_pos hname]
  cases s with
  | nil => exact List.append_nil name
  | cons d s =>
    rw [List.takeWhile_cons_of_neg fun hd => hs ⟨d, rfl, hd⟩, List.append_nil]

theorem getShellName_bare {c : Char} {name : List Char} (hc : isShellSpecialVar c = false)
    (hname : ∀ d ∈ c :: name, isAlphaNum d = true) (hs : ¬ StartsAlphaNum s) :
    getShellName (c :: name ++ s) = (c :: name, (c :: name).length) := by
  rw [List.cons_append, getShellName,
    if_neg (ne_brace_of_alphaNum (hname c List.mem_cons_self)), hc,
    if_neg Bool.false_ne_true, ← List.cons_append, takeWhile_alphaNum hname hs]

/-- The closing brace is the first one there is. -/
theorem findIdx?_brace {name : List Char} (hname : '}' ∉ name) (s : List Char) :
    (name ++ '}' :: s).findIdx? (· = '}') = some name.length := by
  induction name with
  | nil => rfl
  | cons c name ih =>
    obtain ⟨hc, hname⟩ := not_or.mp (mt List.mem_cons.mpr hname)
    rw [List.cons_append, List.findIdx?_cons, if_neg, ih hname]
    · rfl
    · exact fun h => hc (of_decide_eq_true h).symm

theorem getShellName_braced {c : Char} {name : List Char} (hname : '}' ∉ c :: name)
    (s : List Char) :
    getShellName ('{' :: (c :: name ++ '}' :: s)) = (c :: name, (c :: name).length + 2) := by
  have hidx := findIdx?_brace hname s
  rw [getShellName, if_pos rfl]
  split
  next hspecial =>
    -- the brace closes after one character, as it does for any other name
    obtain ⟨-, hclose⟩ := Bool.and_eq_true_iff.mp hspecial
    cases name with
    | nil => rfl
    | cons d name =>
      have hd : d = '}' := Option.some.inj (of_decide_eq_true hclose)
      exact absurd (hd ▸ List.mem_cons_of_mem c List.mem_cons_self) hname
  next =>
    rw [hidx]
    exact congrArg (·, _) List.take_left

/-- Braces with nothing in them are skipped. -/
theorem getShellName_empty (s : List Char) : getShellName ('{' :: '}' :: s) = ([], 2) := by
  rw [getShellName, if_pos rfl, if_neg]
  · rfl
  · intro hspecial
    have hbrace : isShellSpecialVar '}' = true := (Bool.and_eq_true_iff.mp hspecial).1
    exact absurd hbrace (by decide)

theorem getShellName_unclosed (h : '}' ∉ s) : getShellName ('{' :: s) = ([], 1) := by
  have hidx : s.findIdx? (· = '}') = none := by
    rw [List.findIdx?_eq_none_iff]
    exact fun c hc => decide_eq_false fun heq => h (heq ▸ hc)
  rw [getShellName, if_pos rfl, if_neg, hidx]
  intro hclose
  have hmem : '}' ∈ s.tail :=
    List.mem_of_mem_head? (of_decide_eq_true (Bool.and_eq_true_iff.mp hclose).2)
  exact h (List.mem_of_mem_tail hmem)

/-! ## What `Expand` puts together -/

theorem expand_var {c : Char} {name s s' : List Char} {w : Nat} (hs : s ≠ [])
    (hname : getShellName s = (c :: name, w))
    (hrest : s.drop w = s') (h : expand mapping s' = values mapping ps) :
    expand mapping ('$' :: s) = values mapping (.var (c :: name) :: ps) := by
  rw [expand_name hs hname, hrest, h]
  rfl

/-- **`Expand` puts in the values.** -/
theorem expand_eq (h : Reads s ps) : expand mapping s = values mapping ps := by
  induction h with
  | nil => rfl
  | text hc _ ih =>
    rw [expand_cons hc, ih]
    rfl
  | dollar hs _ ih =>
    rw [expand_dollar (getShellName_noName hs), ih]
    rfl
  | special hc _ ih => exact expand_var (List.cons_ne_nil _ _) (getShellName_special hc _) rfl ih
  | bare hc hname hs _ ih =>
    exact expand_var (List.cons_ne_nil _ _) (getShellName_bare hc hname hs) List.drop_left ih
  | @braced c name s ps hname _ ih =>
    refine expand_var (List.cons_ne_nil _ _) (getShellName_braced hname s) ?_ ih
    rw [List.append_cons]
    exact List.drop_left' (congrArg Nat.succ List.length_append)
  | empty _ ih => exact (expand_eaten (List.cons_ne_nil _ _) (getShellName_empty _)).trans ih
  | unclosed hs _ ih =>
    exact (expand_eaten (List.cons_ne_nil _ _) (getShellName_unclosed hs)).trans ih

/-- What follows a `$`, by its first character. -/
theorem exists_reads_dollar {n : Nat} (ih : ∀ s : List Char, s.length ≤ n → ∃ ps, Reads s ps)
    (hs : s.length ≤ n) :
    ∃ ps, Reads ('$' :: s) ps := by
  cases s with
  | nil => exact ⟨_, .dollar (fun c hc => by cases hc) .nil⟩
  | cons c s =>
    have hs' : s.length ≤ n := Nat.le_of_succ_le hs
    by_cases hbrace : c = '{'
    · subst hbrace
      by_cases hclose : '}' ∈ s
      · obtain ⟨name, rest, rfl, hname⟩ := List.eq_append_cons_of_mem hclose
        have hrest : rest.length ≤ n := by
          rw [List.length_append, List.length_cons] at hs'
          omega
        obtain ⟨ps, hps⟩ := ih rest hrest
        cases name with
        | nil => exact ⟨_, .empty hps⟩
        | cons d name => exact ⟨_, .braced hname hps⟩
      · obtain ⟨ps, hps⟩ := ih s hs'
        exact ⟨_, .unclosed hclose hps⟩
    · cases hspecial : isShellSpecialVar c with
      | true =>
        obtain ⟨ps, hps⟩ := ih s hs'
        exact ⟨_, .special hspecial hps⟩
      | false =>
        cases halpha : isAlphaNum c with
        | true =>
          obtain ⟨ps, hps⟩ :=
            ih (s.dropWhile isAlphaNum) (Nat.le_trans (List.length_dropWhile_le _ _) hs')
          rw [← List.takeWhile_append_dropWhile (p := isAlphaNum) (l := s)]
          refine ⟨_, .bare hspecial (fun d hd => ?_) (fun hstart => ?_) hps⟩
          · rcases List.mem_cons.mp hd with rfl | hd
            · exact halpha
            · exact List.mem_takeWhile_imp hd
          · obtain ⟨d, hd, halpha'⟩ := hstart
            have hnot := List.head?_dropWhile_not isAlphaNum s
            rw [hd] at hnot
            exact Bool.false_ne_true (hnot.symm.trans halpha')
        | false =>
          obtain ⟨ps, hps⟩ := ih (c :: s) hs
          refine ⟨_, .dollar (fun d hd => ?_) hps⟩
          obtain rfl : c = d := Option.some.inj hd
          exact ⟨hbrace, hspecial, halpha⟩

/-- Every string has its pieces. -/
theorem exists_reads (s : List Char) : ∃ ps, Reads s ps := by
  have hall : ∀ n, ∀ s : List Char, s.length ≤ n → ∃ ps, Reads s ps := by
    intro n
    induction n with
    | zero =>
      intro s hs
      obtain rfl := List.eq_nil_of_length_eq_zero (Nat.le_zero.mp hs)
      exact ⟨[], .nil⟩
    | succ n ih =>
      intro s hs
      cases s with
      | nil => exact ⟨[], .nil⟩
      | cons c s =>
        have hs' := Nat.le_of_succ_le_succ hs
        by_cases hc : c = '$'
        · subst hc
          exact exists_reads_dollar ih hs'
        · obtain ⟨ps, hps⟩ := ih s hs'
          exact ⟨_, .text hc hps⟩
  exact hall s.length s (Nat.le_refl _)

/-- A piece has a value unless its variable has none. -/
theorem Piece.value_ok_iff {p : Piece} :
    (∃ t, p.value mapping = .ok t) ↔ ∀ name, p = .var name → ∃ t, mapping name = .ok t := by
  cases p with
  | text c => exact ⟨fun _ name hname => (by cases hname), fun _ => ⟨[c], rfl⟩⟩
  | var name => exact ⟨fun h name' hname => Piece.var.inj hname ▸ h, fun h => h name rfl⟩

/-- Pieces have values if each of them has one. -/
theorem values_cons_ok_iff {p : Piece} :
    (∃ t, values mapping (p :: ps) = .ok t) ↔
      (∃ t, p.value mapping = .ok t) ∧ ∃ t, values mapping ps = .ok t := by
  rw [values]
  cases hp : p.value mapping with
  | error e =>
    constructor
    · rintro ⟨t, ht⟩
      cases ht
    · rintro ⟨⟨t, ht⟩, -⟩
      cases ht
  | ok v =>
    cases hps : values mapping ps with
    | error e =>
      constructor
      · rintro ⟨t, ht⟩
        cases ht
      · rintro ⟨-, t, ht⟩
        cases ht
    | ok rest => exact ⟨fun _ => ⟨⟨v, rfl⟩, rest, rfl⟩, fun _ => ⟨v ++ rest, rfl⟩⟩

/-- The values are there exactly if those of the variables are. -/
theorem values_ok_iff : (∃ t, values mapping ps = .ok t) ↔ ∀ name, .var name ∈ ps →
    ∃ t, mapping name = .ok t := by
  induction ps with
  | nil => exact ⟨fun _ name hname => absurd hname List.not_mem_nil, fun _ => ⟨[], rfl⟩⟩
  | cons p ps ih =>
    rw [values_cons_ok_iff, ih, Piece.value_ok_iff]
    constructor
    · rintro ⟨hp, hps⟩ name hname
      rcases List.mem_cons.mp hname with heq | hname
      · exact hp name heq.symm
      · exact hps name hname
    · intro h
      exact ⟨fun name hname => h name (hname ▸ List.mem_cons_self), fun name hname =>
        h name (List.mem_cons_of_mem _ hname)⟩

/-- What fails is the value of a variable. -/
theorem exists_var_of_error {e : ε} (h : values mapping ps = .error e) :
    ∃ name, .var name ∈ ps ∧ mapping name = .error e := by
  induction ps with
  | nil => cases h
  | cons p ps ih =>
    rw [values] at h
    cases hp : p.value mapping with
    | error e' =>
      rw [hp] at h
      cases h
      cases p with
      | text c => cases hp
      | var name => exact ⟨name, List.mem_cons_self, hp⟩
    | ok v =>
      rw [hp] at h
      cases hps : values mapping ps with
      | error e' =>
        rw [hps] at h
        cases h
        obtain ⟨name, hname, herr⟩ := ih hps
        exact ⟨name, List.mem_cons_of_mem _ hname, herr⟩
      | ok rest =>
        rw [hps] at h
        cases h

end ShouldIAsync.GoStd
