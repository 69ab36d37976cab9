import ShouldIAsync.IntelProcTrace.Export
import Mathlib.Data.Nat.Cast.Field
import Mathlib.Tactic.FieldSimp
import Mathlib.Tactic.Ring

/-!
# What the callbacks of the exporter append

A callback fails whatever the buffers hold, or leaves them, or appends one row to one of
them (`uniform_call`), so a run of callbacks adds to a buffer what each of them adds
(`callAll_ok`). `adds_eq` says what that is, as the code has it. For a sound callback it is
the row that the callback owes its table, but that a cbr becomes that row only by the cast
(`castRow_cbrRow_iff`).
-/

namespace ShouldIAsync.IntelProcTrace.Export

open Lib.BinaryFloat

/-! ## The callbacks and the buffers -/

variable {o : Options} {b b' : Buffers} {c : Callback} {cs : List Callback} {t : Table}

/-- What a callback adds to a buffer: what it leaves in an empty one. -/
def Callback.adds (o : Options) (c : Callback) (t : Table) : List Row :=
  match c.call o (fun _ => []) with
  | .error _ => []
  | .ok b => b t

theorem rowOf_self (t : Table) (x : Row) : rowOf t (some (t, x)) = [x] := if_pos rfl

theorem rowOf_ne {t u : Table} (h : u ≠ t) (x : Row) : rowOf t (some (u, x)) = [] := if_neg h

/-- An appended row is in its buffer and in no other. -/
theorem Buffers.append_apply (b : Buffers) (t u : Table) (x : Row) :
    b.append t x u = b u ++ rowOf u (some (t, x)) := by
  unfold Buffers.append
  by_cases h : u = t
  · subst h
    rw [Function.update_self, rowOf_self]
  · rw [Function.update_of_ne h, rowOf_ne (Ne.symm h), List.append_nil]

/-- A callback fails whatever the buffers hold, or leaves them, or appends one row. -/
def Uniform (f : Buffers → Except ExportError Buffers) : Prop :=
  (∃ e, ∀ b, f b = .error e) ∨ (∀ b, f b = .ok b) ∨ ∃ t x, ∀ b, f b = .ok (b.append t x)

/-- A row that is appended whatever is there already. -/
theorem uniform_append (t : Table) (x : Row) : Uniform fun b => .ok (b.append t x) :=
  .inr (.inr ⟨t, x, fun _ => rfl⟩)

theorem uniform_ok : Uniform .ok := .inr (.inl fun _ => rfl)

theorem uniform_error (e : ExportError) : Uniform fun _ => .error e := .inl ⟨e, fun _ => rfl⟩

theorem uniform_ite {p : Prop} [Decidable p] {f g : Buffers → Except ExportError Buffers}
    (hf : Uniform f) (hg : Uniform g) : Uniform fun b => if p then f b else g b := by
  by_cases h : p
  · simp only [if_pos h]
    exact hf
  · simp only [if_neg h]
    exact hg

theorem uniform_ptwrite (id : ℤ) (rawBuf : List UInt8) : Uniform (ptwrite id rawBuf) := by
  unfold ptwrite
  cases unpackIQ rawBuf with
  | error e => exact uniform_error e
  | ok data => exact uniform_append _ _

theorem uniform_mwait (id : ℤ) (rawBuf : List UInt8) : Uniform (mwait id rawBuf) := by
  unfold mwait
  cases unpackIQ rawBuf with
  | error e => exact uniform_error e
  | ok data => exact uniform_append _ _

theorem uniform_pwre (id : ℤ) (rawBuf : List UInt8) : Uniform (pwre id rawBuf) := by
  unfold pwre
  cases unpackIQ rawBuf with
  | error e => exact uniform_error e
  | ok data => exact uniform_append _ _

theorem uniform_exstop (id : ℤ) (rawBuf : List UInt8) : Uniform (exstop id rawBuf) := by
  unfold exstop
  cases unpackI rawBuf with
  | error e => exact uniform_error e
  | ok data => exact uniform_append _ _

theorem uniform_pwrx (id : ℤ) (rawBuf : List UInt8) : Uniform (pwrx id rawBuf) := by
  unfold pwrx
  cases unpackIQ rawBuf with
  | error e => exact uniform_error e
  | ok data => exact uniform_append _ _

theorem uniform_cbr (id : ℤ) (rawBuf : List UInt8) : Uniform (cbr id rawBuf) := by
  unfold cbr
  cases unpackBBBBII rawBuf with
  | error e => exact uniform_error e
  | ok data => exact uniform_ite (uniform_error _) (uniform_append _ _)

/-- **What a callback files does not depend on what was filed before.** -/
theorem uniform_call (o : Options) (c : Callback) : Uniform (c.call o) := by
  cases c with
  | synthData id config rawBuf =>
    exact uniform_ite (uniform_ptwrite id rawBuf) <| uniform_ite (uniform_mwait id rawBuf) <|
      uniform_ite (uniform_pwre id rawBuf) <| uniform_ite (uniform_exstop id rawBuf) <|
      uniform_ite (uniform_pwrx id rawBuf) <| uniform_ite (uniform_cbr id rawBuf) uniform_ok
  | traceUnhandled => exact uniform_ok
  | schedSchedSwitch => exact uniform_ok
  | _ => exact uniform_append _ _

/-- What a callback that returns leaves. -/
theorem call_ok (h : c.call o b = .ok b') : b' = fun t => b t ++ c.adds o t := by
  funext t
  unfold Callback.adds
  rcases uniform_call o c with ⟨e, he⟩ | hok | ⟨u, x, happ⟩
  · rw [he b] at h
    cases h
  · rw [hok b] at h
    cases h
    rw [hok]
    exact (List.append_nil _).symm
  · rw [happ b] at h
    cases h
    rw [happ]
    simp only [Buffers.append_apply, List.nil_append]

/-- Whether a callback returns does not depend on the buffers. -/
theorem call_of_ok (h : c.call o b = .ok b') (d : Buffers) :
    c.call o d = .ok fun t => d t ++ c.adds o t := by
  rcases uniform_call o c with ⟨e, he⟩ | hok | ⟨u, x, happ⟩
  · rw [he b] at h
    cases h
  · have hd := hok d
    rw [hd, ← call_ok hd]
  · have hd := happ d
    rw [hd, ← call_ok hd]

/-- A run of callbacks that return adds what each of them adds. -/
theorem callAll_ok (h : callAll o cs b = .ok b') :
    b' = (fun t => b t ++ cs.flatMap fun c => c.adds o t) ∧
      ∀ c ∈ cs, ∃ d, c.call o (fun _ => []) = .ok d := by
  induction cs generalizing b with
  | nil =>
    cases h
    exact ⟨funext fun t => (List.append_nil _).symm, fun c hc => absurd hc List.not_mem_nil⟩
  | cons c cs ih =>
    unfold callAll at h
    cases hc : c.call o b with
    | error e => rw [hc] at h; cases h
    | ok d =>
      rw [hc] at h
      obtain ⟨hb', hcs⟩ := ih h
      refine ⟨?_, fun c' hc' => ?_⟩
      · rw [hb', call_ok hc]
        funext t
        rw [List.flatMap_cons, List.append_assoc]
      · rcases List.mem_cons.mp hc' with rfl | hc'
        · exact ⟨_, call_of_ok hc _⟩
        · exact hcs c' hc'

/-- Callbacks that do not fail file their rows one after the other. -/
theorem callAll_of_forall (h : ∀ c ∈ cs, ∃ d, c.call o (fun _ => []) = .ok d) (b : Buffers) :
    callAll o cs b = .ok fun t => b t ++ cs.flatMap fun c => c.adds o t := by
  induction cs generalizing b with
  | nil => exact congrArg Except.ok (funext fun t => (List.append_nil _).symm)
  | cons c cs ih =>
    obtain ⟨d, hd⟩ := h c List.mem_cons_self
    unfold callAll
    rw [call_of_ok hd b]
    show callAll o cs _ = _
    rw [ih (fun c' hc' => h c' (List.mem_cons_of_mem c hc'))]
    refine congrArg Except.ok (funext fun t => ?_)
    rw [List.flatMap_cons, List.append_assoc]

/-! ## A sound callback files the row it owes -/

/-- A mask gives the lowest bits. -/
theorem and_mask (x n : Nat) : x &&& (2 ^ n - 1) = bits x 0 n := by
  unfold bits
  rw [Nat.and_two_pow_sub_one_eq_mod, pow_zero, Nat.div_one]

/-- A shift and a mask give the bits from `lo` on. -/
theorem shift_and_mask (x lo n : Nat) : (x >>> lo) &&& (2 ^ n - 1) = bits x lo n := by
  unfold bits
  rw [Nat.and_two_pow_sub_one_eq_mod, Nat.shiftRight_eq_div_pow]

theorem map_getD_range' (x : Row) (s n : Nat) (h : s + n ≤ x.length) :
    (List.range' s n).map (fun i => x.getD i .none) = (x.drop s).take n := by
  refine List.ext_getElem (by simp; omega) fun i h1 h2 => ?_
  simp only [List.length_map, List.length_range'] at h1
  simp [List.getD_eq_getElem?_getD, List.getElem?_eq_getElem (show s + i < x.length by omega)]

/-- The slices of `sample_table` are the projection to the columns of `samples`. -/
theorem sample_project (x : Tuple 25) :
    (if o.branches then x.val.take 15 ++ (x.val.drop 19).take 6 else x.val) =
      project samplesColumns ((columns o .samples).getD []) x := by
  have hlen := x.property
  show _ = project samplesColumns
    ((if o.branches then samplesBranchesSchema else samplesSchema).map Prod.fst) x.val
  unfold project
  by_cases hbr : o.branches
  · have hidx : (samplesBranchesSchema.map Prod.fst).map samplesColumns.idxOf =
        List.range' 0 15 ++ List.range' 19 6 := by
      decide +kernel
    rw [if_pos hbr, if_pos hbr]
    show _ = (samplesBranchesSchema.map Prod.fst).map
      ((fun i => x.val.getD i .none) ∘ samplesColumns.idxOf)
    rw [← List.map_map, hidx, List.map_append, map_getD_range' _ _ _ (by omega),
      map_getD_range' _ _ _ (by omega), List.drop_zero]
  · have hidx : samplesColumns.map samplesColumns.idxOf = List.range' 0 25 := by decide +kernel
    rw [if_neg hbr, if_neg hbr]
    show _ = samplesColumns.map ((fun i => x.val.getD i .none) ∘ samplesColumns.idxOf)
    rw [← List.map_map, hidx, map_getD_range' _ _ _ (by omega), List.drop_zero,
      List.take_of_length_le (by omega)]

/-- The row of a decoded record. -/
def recordRow (id : ℤ) (ns : List Nat) : Row := .num id :: ns.map fun n : Nat => .num n

/-- A buffer that is long enough is unpacked. -/
theorem unpackIQ_eq {rawBuf : List UInt8} (h : 12 ≤ rawBuf.length) :
    unpackIQ rawBuf = .ok (flagsOf rawBuf, payloadOf rawBuf) := if_neg (by omega)

theorem unpackI_eq {rawBuf : List UInt8} (h : 4 ≤ rawBuf.length) :
    unpackI rawBuf = .ok (flagsOf rawBuf) := if_neg (by omega)

theorem unpackBBBBII_eq {rawBuf : List UInt8} (h : 12 ≤ rawBuf.length) :
    unpackBBBBII rawBuf = .ok (ratioOf rawBuf, maxRatioOf rawBuf, frequencyOf rawBuf) :=
      if_neg (by omega)

/-- The row of an `mwait` record. -/
theorem mwait_eq {rawBuf : List UInt8} (h : 12 ≤ rawBuf.length) (id : ℤ) (b : Buffers) :
    mwait id rawBuf b = .ok (b.append .mwait
      (recordRow id [bits (payloadOf rawBuf) 0 8, bits (payloadOf rawBuf) 32 2])) := by
  unfold mwait
  rw [unpackIQ_eq h, ← and_mask, ← shift_and_mask]
  rfl

/-- The row of a `pwre` record. -/
theorem pwre_eq {rawBuf : List UInt8} (h : 12 ≤ rawBuf.length) (id : ℤ) (b : Buffers) :
    pwre id rawBuf b = .ok (b.append .pwre (recordRow id
      [bits (payloadOf rawBuf) 12 4, bits (payloadOf rawBuf) 8 4,
        bits (payloadOf rawBuf) 7 1])) := by
  unfold pwre
  rw [unpackIQ_eq h]
  simp only [← shift_and_mask]
  rfl

/-- The row of an `exstop` record. -/
theorem exstop_eq {rawBuf : List UInt8} (h : 4 ≤ rawBuf.length) (id : ℤ) (b : Buffers) :
    exstop id rawBuf b = .ok (b.append .exstop (recordRow id [bits (flagsOf rawBuf) 0 1])) := by
  unfold exstop
  rw [unpackI_eq h, ← and_mask]
  rfl

/-- The row of a `pwrx` record. -/
theorem pwrx_eq {rawBuf : List UInt8} (h : 12 ≤ rawBuf.length) (id : ℤ) (b : Buffers) :
    pwrx id rawBuf b = .ok (b.append .pwrx (recordRow id
      [bits (payloadOf rawBuf) 0 4, bits (payloadOf rawBuf) 4 4,
        bits (payloadOf rawBuf) 8 4])) := by
  unfold pwrx
  rw [unpackIQ_eq h, ← and_mask]
  simp only [← shift_and_mask]
  rfl

/-- `(data[4] + 500) / 1000` -/
def mhz (frequency : Nat) : ℚ := float64 ((frequency + 500) / 1000)

/-- `((cbr * 1000 / data[2]) + 5) / 10` -/
def percent (ratio maxRatio : Nat) : ℚ :=
  float64 (float64 (float64 (ratio * 1000 / maxRatio) + 5) / 10)

/-- The row of a cbr as the code computes it, with the true division. -/
def cbrRow (id : ℤ) (rawBuf : List UInt8) : Row :=
  [.num id, .num (ratioOf rawBuf), .float (mhz (frequencyOf rawBuf)),
    .float (percent (ratioOf rawBuf) (maxRatioOf rawBuf))]

/-- The row of a `cbr` record, unless the division fails. -/
theorem cbr_eq {rawBuf : List UInt8} (h : 12 ≤ rawBuf.length)
    (hmax : maxRatioOf rawBuf ≠ 0) (id : ℤ)
    (b : Buffers) : cbr id rawBuf b = .ok (b.append .cbr (cbrRow id rawBuf)) := by
  unfold cbr
  rw [unpackBBBBII_eq h]
  exact if_neg hmax

/-- The row of a `ptwrite` record. -/
theorem ptwrite_eq {rawBuf : List UInt8} (h : 12 ≤ rawBuf.length) (id : ℤ) (b : Buffers) :
    ptwrite id rawBuf b = .ok (b.append .calls
      (recordRow id [payloadOf rawBuf, bits (flagsOf rawBuf) 0 1])) := by
  unfold ptwrite
  rw [unpackIQ_eq h, ← and_mask]
  rfl

/-- The row of a `synth_data` event as the code files it: a ptwrite goes to `calls`, the
quotients of a cbr may have a fraction. -/
def filed (id : ℤ) (config : Nat) (rawBuf : List UInt8) : Option (Table × Row) :=
  match config with
  | 0 => some (.calls, recordRow id [payloadOf rawBuf, bits (flagsOf rawBuf) 0 1])
  | 5 => some (.cbr, cbrRow id rawBuf)
  | config => (decoded config rawBuf).map fun p => (p.1, recordRow id p.2)

theorem append_eq (b : Buffers) (t : Table) (x : Row) :
    b.append t x = fun u => b u ++ rowOf u (some (t, x)) :=
  funext fun u => Buffers.append_apply b t u x

theorem add_none (b : Buffers) : b = fun u => b u ++ rowOf u none :=
  funext fun u => (List.append_nil (b u)).symm

/-- `synth_data` on a complete record. -/
theorem synthData_eq {config : Nat} {rawBuf : List UInt8}
    (hlen : recordLength config ≤ rawBuf.length)
    (hmax : config = 5 → maxRatioOf rawBuf ≠ 0) (id : ℤ) (b : Buffers) :
    synthData id config rawBuf b = .ok fun t => b t ++ rowOf t (filed id config rawBuf) := by
  match config, hlen, hmax with
  | 0, hlen, _ => exact (ptwrite_eq hlen id b).trans (congrArg _ (append_eq ..))
  | 1, hlen, _ => exact (mwait_eq hlen id b).trans (congrArg _ (append_eq ..))
  | 2, hlen, _ => exact (pwre_eq hlen id b).trans (congrArg _ (append_eq ..))
  | 3, hlen, _ => exact (exstop_eq hlen id b).trans (congrArg _ (append_eq ..))
  | 4, hlen, _ => exact (pwrx_eq hlen id b).trans (congrArg _ (append_eq ..))
  | 5, hlen, hmax => exact (cbr_eq hlen (hmax rfl) id b).trans (congrArg _ (append_eq ..))
  | n + 6, _, _ => exact congrArg Except.ok (add_none b)

/-- A buffer that is too short is an error. -/
theorem unpackIQ_short {rawBuf : List UInt8} (h : ¬12 ≤ rawBuf.length) :
    unpackIQ rawBuf = .error .struct := if_pos (by omega)

theorem unpackI_short {rawBuf : List UInt8} (h : ¬4 ≤ rawBuf.length) :
    unpackI rawBuf = .error .struct := if_pos (by omega)

theorem unpackBBBBII_short {rawBuf : List UInt8} (h : ¬12 ≤ rawBuf.length) :
    unpackBBBBII rawBuf = .error .struct := if_pos (by omega)

/-- An incomplete record is an error. -/
theorem synthData_short {config : Nat} {rawBuf : List UInt8}
    (h : ¬recordLength config ≤ rawBuf.length)
    (id : ℤ) (b : Buffers) : synthData id config rawBuf b = .error .struct := by
  match config, h with
  | 0, h => show ptwrite id rawBuf b = _; unfold ptwrite; rw [unpackIQ_short h]
  | 1, h => show mwait id rawBuf b = _; unfold mwait; rw [unpackIQ_short h]
  | 2, h => show pwre id rawBuf b = _; unfold pwre; rw [unpackIQ_short h]
  | 3, h => show exstop id rawBuf b = _; unfold exstop; rw [unpackI_short h]
  | 4, h => show pwrx id rawBuf b = _; unfold pwrx; rw [unpackIQ_short h]
  | 5, h => show cbr id rawBuf b = _; unfold cbr; rw [unpackBBBBII_short h]
  | n + 6, h => exact absurd (Nat.zero_le _) h

/-- A `synth_data` that returns had a complete record to decode, and divided by no zero. -/
theorem synthData_ok {id : ℤ} {config : Nat} {rawBuf : List UInt8}
    (h : synthData id config rawBuf b = .ok b') :
    recordLength config ≤ rawBuf.length ∧ (config = 5 → maxRatioOf rawBuf ≠ 0) := by
  have hlen : recordLength config ≤ rawBuf.length := by
    by_contra hshort
    rw [synthData_short hshort] at h
    cases h
  refine ⟨hlen, ?_⟩
  rintro rfl hmax
  change cbr id rawBuf b = _ at h
  unfold cbr at h
  rw [unpackBBBBII_eq hlen] at h
  simp only [if_pos hmax] at h
  cases h

/-- What a callback files, as the code has it. -/
def Callback.files (o : Options) : Callback → Option (Table × Row)
  | .synthData id config rawBuf => filed id config rawBuf
  | c => c.owed o

/-- **What a callback that returns appends.** -/
theorem adds_eq (h : c.call o b = .ok b') (t : Table) : c.adds o t = rowOf t (c.files o) := by
  have hadds : c.call o (fun _ => []) = .ok fun u => [] ++ c.adds o u := call_of_ok h _
  have hfiles : c.call o (fun _ => []) = .ok fun u => [] ++ rowOf u (c.files o) := by
    cases c with
    | synthData id config rawBuf =>
      obtain ⟨hlen, hmax⟩ := synthData_ok h
      exact synthData_eq hlen hmax id _
    | sampleTable x =>
      show Except.ok (Buffers.append _ _ _) = _
      rw [sample_project]
      exact congrArg Except.ok (append_eq ..)
    | traceUnhandled => exact congrArg Except.ok (add_none _)
    | schedSchedSwitch => exact congrArg Except.ok (add_none _)
    | _ => exact congrArg Except.ok (append_eq ..)
  have heq := Except.ok.inj (hadds.symm.trans hfiles)
  exact congrFun heq t

/-- A sound callback files the row it owes, but for a cbr. -/
theorem files_sound (h : c.Sound) :
    c.files o = c.owed o ∨ ∃ id rawBuf, c = .synthData id 5 rawBuf := by
  cases c with
  | synthData id config rawBuf =>
    obtain ⟨h0, -, -⟩ := h
    match config, h0 with
    | 1, _ | 2, _ | 3, _ | 4, _ => exact .inl rfl
    | 5, _ => exact .inr ⟨id, rawBuf, rfl⟩
    | n + 6, _ => exact .inl rfl
  | _ => exact .inl rfl

/-- A callback that is sound does not fail. -/
theorem call_of_sound (h : c.Sound) : ∃ d, c.call o (fun _ => []) = .ok d := by
  cases c with
  | synthData id config rawBuf =>
    obtain ⟨-, hlen, hwhole⟩ := h
    exact ⟨_, synthData_eq hlen (fun h5 => (hwhole h5).1) id _⟩
  | _ => exact ⟨_, rfl⟩

/-- No callback files a row in `ptwrite`. -/
theorem rowOf_ptwrite_files (o : Options) (c : Callback) : rowOf .ptwrite (c.files o) = [] := by
  cases c with
  | synthData id config rawBuf => match config with
    | 0 | 1 | 2 | 3 | 4 | 5 | _ + 6 => rfl
  | _ => rfl

/-! ## The cast of a cbr -/

/-- The decoded record of a cbr -/
def decodedCbr (rawBuf : List UInt8) : List Nat :=
  [ratioOf rawBuf, (frequencyOf rawBuf + 500) / 1000,
    (ratioOf rawBuf * 1000 / maxRatioOf rawBuf + 5) / 10]

/-- A number of `n` bytes is below 256 to the `n`. -/
theorem littleEndian_lt (bytes : List UInt8) : littleEndian bytes < 256 ^ bytes.length := by
  induction bytes with
  | nil => exact Nat.one_pos
  | cons byte bytes ih =>
    have hbyte : byte.toNat < 256 := byte.toNat_lt
    show byte.toNat + 256 * littleEndian bytes < 256 ^ (bytes.length + 1)
    rw [pow_succ]
    omega

theorem littleEndian_take_lt (bytes : List UInt8) (n : Nat) :
    littleEndian (bytes.take n) < 256 ^ n :=
  (littleEndian_lt _).trans_le (Nat.pow_le_pow_right (by decide) (List.length_take_le n bytes))

theorem ratioOf_lt (rawBuf : List UInt8) : ratioOf rawBuf < 256 := littleEndian_take_lt rawBuf 1

theorem maxRatioOf_lt (rawBuf : List UInt8) : maxRatioOf rawBuf < 256 :=
  littleEndian_take_lt (rawBuf.drop 2) 1

theorem frequencyOf_lt (rawBuf : List UInt8) : frequencyOf rawBuf < 2 ^ 32 :=
  littleEndian_take_lt (rawBuf.drop 4) 4

/-- The numbers that are rounded to `n + 1`. -/
theorem roundHalf_eq {q : ℚ} {n : Nat} (hlo : n + 1 / 2 ≤ q) (hhi : q < n + 3 / 2) :
    roundHalf q = n + 1 := by
  have hnonneg : (0 : ℚ) ≤ n := Nat.cast_nonneg n
  unfold roundHalf
  rw [if_pos (by linarith), Int.floor_eq_iff]
  push_cast
  constructor <;> linarith

/-- The MHz are rounded up, also from a whole number. -/
theorem roundHalf_mhz {frequency : Nat} (h : frequency < 2 ^ 32) :
    roundHalf (mhz frequency) = (frequency / 1000 : Nat) + 1 := by
  have hdiv : ((frequency : ℚ) + 500) / 1000 =
      (frequency / 1000 : Nat) + 1 / 2 + (frequency % 1000 : Nat) / 1000 := by
    have hsplit : (frequency : ℚ) = 1000 * (frequency / 1000 : Nat) + (frequency % 1000 : Nat) := by
      exact_mod_cast (Nat.div_add_mod frequency 1000).symm
    linarith
  have hmod : ((frequency % 1000 : Nat) : ℚ) ≤ 999 := by
    exact_mod_cast Nat.le_of_lt_succ (Nat.mod_lt frequency (by decide))
  have hmod' : (0 : ℚ) ≤ (frequency % 1000 : Nat) := Nat.cast_nonneg _
  have hfloat : IsFloat 53 ((frequency / 1000 : Nat) + 1 / 2) :=
    isFloat_of_eq_div (n := 2 * (frequency / 1000) + 1) (by omega) 1 (by push_cast; ring)
  have hfloat' : IsFloat 53 ((frequency / 1000 : Nat) + 3 / 2 - 1 / 1024) :=
    isFloat_of_eq_div (n := 1024 * (frequency / 1000) + 1535) (by omega) 10 (by push_cast; ring)
  have hlo : (frequency / 1000 : Nat) + 1 / 2 ≤ mhz frequency :=
    le_round (by decide) (by positivity) hfloat (by linarith)
  have hhi : mhz frequency ≤ (frequency / 1000 : Nat) + 3 / 2 - 1 / 1024 :=
    round_le (by decide) (by positivity) hfloat' (by linarith)
  exact roundHalf_eq hlo (lt_of_le_of_lt hhi (by linarith))

/-- So is the percentage. -/
theorem roundHalf_percent {ratio maxRatio : Nat} (hratio : ratio < 256) (hmax : maxRatio < 256)
    (hpos : maxRatio ≠ 0) :
    roundHalf (percent ratio maxRatio) = (100 * ratio / maxRatio : Nat) + 1 := by
  have hpos' : (0 : ℚ) < maxRatio := Nat.cast_pos.mpr (Nat.pos_of_ne_zero hpos)
  have hmax' : (maxRatio : ℚ) ≤ 255 := by exact_mod_cast Nat.le_of_lt_succ hmax
  have hn : 100 * ratio / maxRatio < 2 ^ 15 :=
    lt_of_le_of_lt (Nat.div_le_self _ _) (by omega)
  generalize hk : 100 * ratio / maxRatio = n at hn ⊢
  have hle : n * maxRatio ≤ 100 * ratio := hk ▸ Nat.div_mul_le_self _ _
  have hlt : 100 * ratio + 1 ≤ (n + 1) * maxRatio := by
    have := Nat.lt_div_mul_add (a := 100 * ratio) (Nat.pos_of_ne_zero hpos)
    rw [hk] at this
    linarith
  have hle' : (n : ℚ) * maxRatio ≤ 100 * ratio := by exact_mod_cast hle
  have hlt' : (100 : ℚ) * ratio + 1 ≤ (n + 1) * maxRatio := by exact_mod_cast hlt
  have hnonneg : (0 : ℚ) ≤ n := Nat.cast_nonneg n
  -- each of the three results is between two floats
  have hlo₁ : (10 * n : Nat) ≤ float64 (ratio * 1000 / maxRatio) := by
    refine le_round (by decide) (by positivity) (isFloat_natCast (by omega)) ?_
    rw [le_div_iff₀ hpos']
    push_cast
    linarith
  have hfloat₁ : IsFloat 53 (10 * n + 10 - 1 / 32) :=
    isFloat_of_eq_div (n := 320 * n + 319) (by omega) 5 (by push_cast; ring)
  have hhi₁ : float64 (ratio * 1000 / maxRatio) ≤ 10 * n + 10 - 1 / 32 := by
    refine round_le (by decide) (by positivity) hfloat₁ ?_
    rw [div_le_iff₀ hpos']
    linarith
  push_cast at hlo₁
  have hlo₂ : (10 * n + 5 : Nat) ≤ float64 (float64 (ratio * 1000 / maxRatio) + 5) := by
    refine le_round (by decide) (by positivity) (isFloat_natCast (by omega)) ?_
    push_cast
    linarith
  have hfloat₂ : IsFloat 53 (10 * n + 15 - 1 / 32) :=
    isFloat_of_eq_div (n := 320 * n + 479) (by omega) 5 (by push_cast; ring)
  have hhi₂ : float64 (float64 (ratio * 1000 / maxRatio) + 5) ≤ 10 * n + 15 - 1 / 32 :=
    round_le (by decide) (by linarith) hfloat₂ (by linarith)
  push_cast at hlo₂
  have hfloat₃ : IsFloat 53 (n + 1 / 2) :=
    isFloat_of_eq_div (n := 2 * n + 1) (by omega) 1 (by push_cast; ring)
  have hlo₃ : n + 1 / 2 ≤ percent ratio maxRatio :=
    le_round (by decide) (by positivity) hfloat₃ (by linarith)
  have hfloat₄ : IsFloat 53 (n + 3 / 2 - 1 / 512) :=
    isFloat_of_eq_div (n := 512 * n + 767) (by omega) 9 (by push_cast; ring)
  have hhi₃ : percent ratio maxRatio ≤ n + 3 / 2 - 1 / 512 :=
    round_le (by decide) (by linarith) hfloat₄ (by linarith)
  exact roundHalf_eq hlo₃ (by linarith)

/-- When the megahertz are rounded up. -/
theorem decodedMhz_iff (frequency : Nat) :
    (frequency + 500) / 1000 = frequency / 1000 + 1 ↔ 500 ≤ frequency % 1000 := by omega

/-- When the percentage is. -/
theorem decodedPercent_iff {maxRatio : Nat} (hpos : maxRatio ≠ 0) (ratio : Nat) :
    (ratio * 1000 / maxRatio + 5) / 10 = 100 * ratio / maxRatio + 1 ↔
      maxRatio ≤ 2 * (100 * ratio % maxRatio) := by
  have hpos' : 0 < maxRatio := Nat.pos_of_ne_zero hpos
  have hdiv := Nat.div_add_mod (100 * ratio) maxRatio
  have hmod := Nat.mod_lt (100 * ratio) hpos'
  have hnat : (ratio * 1000 / maxRatio + 5) / 10 =
      100 * ratio / maxRatio + (10 * (100 * ratio % maxRatio) + 5 * maxRatio) / (10 *
          maxRatio) := by
    rw [← Nat.add_mul_div_right _ _ hpos', Nat.div_div_eq_div_mul, Nat.mul_comm maxRatio 10,
      ← Nat.mul_add_div (by omega)]
    congr 1
    linarith
  rw [hnat, Nat.add_right_inj, Nat.div_eq_iff (by omega)]
  omega

/-- What `cbr` holds of a cbr record. -/
theorem castRow_cbrRow {cols : List Column} (hcols : schema o .cbr = some cols) (id : ℤ)
    {rawBuf : List UInt8} (hmax : maxRatioOf rawBuf ≠ 0) :
    castRow cols (cbrRow id rawBuf) = (castNum id .integer).map fun v =>
      v :: [ratioOf rawBuf, frequencyOf rawBuf / 1000 + 1,
        100 * ratioOf rawBuf / maxRatioOf rawBuf + 1].map fun n : Nat => .num n := by
  cases hcols
  have hratio := ratioOf_lt rawBuf
  have hfrequency := frequencyOf_lt rawBuf
  have hpercent : 100 * ratioOf rawBuf / maxRatioOf rawBuf ≤ 100 * ratioOf rawBuf :=
    Nat.div_le_self _ _
  have hmhz := roundHalf_mhz hfrequency
  have hpercent' := roundHalf_percent hratio (maxRatioOf_lt rawBuf) hmax
  have hcast : ∀ n : Nat, n < 2 ^ 31 → castNum (n : ℤ) .integer = some (.num n) := by
    intro n hn
    have hnonneg : (-2 ^ 31 : ℤ) ≤ 0 := by norm_num
    unfold castNum
    exact if_pos ⟨hnonneg.trans (Int.natCast_nonneg n), by exact_mod_cast hn⟩
  have hratio' := hcast (ratioOf rawBuf) (by omega)
  have hmhz' := hcast (frequencyOf rawBuf / 1000 + 1) (by omega)
  have hpercent'' := hcast (100 * ratioOf rawBuf / maxRatioOf rawBuf + 1) (by omega)
  rw [Nat.cast_succ] at hmhz' hpercent''
  have hcells : castRow [("cbr", .integer), ("mhz", .integer), ("percent", .integer)]
      [.num (ratioOf rawBuf), .float (mhz (frequencyOf rawBuf)),
        .float (percent (ratioOf rawBuf) (maxRatioOf rawBuf))] =
      some ([ratioOf rawBuf, frequencyOf rawBuf / 1000 + 1,
        100 * ratioOf rawBuf / maxRatioOf rawBuf + 1].map fun n : Nat => .num n) := by
    simp only [castRow, castCell, hmhz, hpercent', hratio', hmhz', hpercent'', List.map_cons,
      List.map_nil, Option.bind_some, Option.map_some, Nat.cast_succ]
  show (castNum id .integer).bind (fun v => (castRow _ _).map fun x => v :: x) = _
  rw [hcells]
  cases castNum id .integer with
  | none => rfl
  | some v => rfl

/-- **The cast makes a cbr the decoded record exactly if that is rounded up.** -/
theorem castRow_cbrRow_iff {cols : List Column} (hcols : schema o .cbr = some cols) (id : ℤ)
    {rawBuf : List UInt8} (hmax : maxRatioOf rawBuf ≠ 0) :
    castRow cols (cbrRow id rawBuf) = some (recordRow id (decodedCbr rawBuf)) ↔
      castNum id .integer = some (.num id) ∧ RoundsUp rawBuf := by
  rw [castRow_cbrRow hcols id hmax]
  unfold RoundsUp
  rw [← decodedMhz_iff, ← decodedPercent_iff hmax, and_iff_right hmax]
  unfold recordRow decodedCbr
  cases castNum id .integer with
  | none => simp
  | some v =>
    simp only [Option.map_some, Option.some.injEq, List.cons.injEq, List.map_cons, List.map_nil,
      Value.num.injEq, Nat.cast_inj, true_and, and_true,
        eq_comm (a := frequencyOf rawBuf / 1000 + 1),
      eq_comm (a := 100 * ratioOf rawBuf / maxRatioOf rawBuf + 1)]

/-- A callback files a row in `cbr` for each row it owes. -/
theorem rowOf_cbr_length (o : Options) (c : Callback) :
    (rowOf .cbr (c.files o)).length = (rowOf .cbr (c.owed o)).length := by
  cases c with
  | synthData id config rawBuf => match config with
    | 0 | 1 | 2 | 3 | 4 | 5 | _ + 6 => rfl
  | _ => rfl

end ShouldIAsync.IntelProcTrace.Export
