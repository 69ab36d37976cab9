import ShouldIAsync.Echo.Metrics
import ShouldIAsync.Echo.Runs
import ShouldIAsync.Lib.BinaryFloat

/-!
# Clients with a number of iterations: what is counted

Clients that make `N` round trips each, against a server that does not stop. Their
conversations run to exactly `N` trips (`Exact`), both sides return nil, and both have
counted `N`: the handler, which is a trip behind, counts the end of the stream.

`Combined` converts the counts to `float64`, since that is what the statistics library
takes, has them added up and converts the sum back. So its `Count` is the number of round
trips as long as that is at most 2⁵³, and may be off beyond.
-/

namespace ShouldIAsync.Echo

open ShouldIAsync.GoStd ShouldIAsync.Lib ShouldIAsync.Lib.BinaryFloat

/-! ## The count of `Combined` -/

section Combined

variable {ε : Type}

/-- `Combined().Count`, with `float64(count)` in binary64. -/
def combinedCount (stats : Metrics.Stats ε) (connMetrics : List Nat) : Option ℤ :=
  (Metrics.combinedWith (fun count => float64 count.toInt) stats
    (connMetrics.map Int64.ofNat)).1.map (·.count.toInt)

/-- What `stats.Sum` does in binary64: one addition after the other, and an error if there is
nothing to add. -/
structure AddsFloats (stats : Metrics.Stats ε) (emptyInputErr : ε) : Prop where
  empty : stats.sum [] = .error emptyInputErr
  sum : ∀ {fs}, fs ≠ [] → stats.sum fs = .ok (roundedSum 53 fs)

variable {stats : Metrics.Stats ε} {emptyInputErr : ε} {counts : List Nat}

/-- Counts up to 2⁵³ are converted exactly. -/
theorem map_float64 (h : counts.sum ≤ 2 ^ 53) :
    ((counts.map Int64.ofNat).map fun count => float64 count.toInt) = counts.map Nat.cast := by
  rw [List.map_map]
  refine List.map_congr_left fun n hn => ?_
  have hle : n ≤ 2 ^ 53 := (List.le_sum_of_mem hn).trans h
  have hint : (Int64.ofNat n).toInt = n := Int64.toInt_ofNat_of_lt (by omega)
  show float64 ((Int64.ofNat n).toInt : ℚ) = n
  rw [hint, Int.cast_natCast]
  exact round_natCast (by decide) hle

/-- **Up to 2⁵³ the count is the sum of the counts.** -/
theorem combinedCount_of_le (hstats : AddsFloats stats emptyInputErr) (h : counts.sum ≤ 2 ^ 53) :
    combinedCount stats counts = some (counts.sum : ℕ) := by
  have hfs := map_float64 h
  unfold combinedCount
  by_cases hnil : counts = []
  · -- no connection: the sum is an error, which is lost
    subst hnil
    have hempty : stats.sum (([] : List Int64).map fun count => float64 count.toInt) =
      .error emptyInputErr := hstats.empty
    have hcount := congrArg (Option.map Int64.toInt) (Metrics.combinedWith_count_of_error hempty)
    rwa [Option.map_map] at hcount
  · have hsum : stats.sum (counts.map Nat.cast) = .ok ((counts.sum : ℕ) : ℚ) := by
      rw [hstats.sum (mt List.map_eq_nil_iff.mp hnil), roundedSum_natCast (by decide) h]
    rw [← hfs] at hsum
    have hcount := congrArg (Option.map Int64.toInt) (Metrics.combinedWith_count hsum)
    rw [Option.map_map, Option.map_some] at hcount
    refine hcount.trans ?_
    rw [← Int.cast_natCast, Metrics.toInt64_intCast]
    exact congrArg some (Int64.toInt_ofInt_of_le (by omega) (by omega))

end Combined

/-! ## Exactly `N` trips -/

/-- Clients of `N` iterations each, and a server with no stop condition. -/
def counting (N : Nat) : Config := ⟨⟨N, false⟩, ⟨0, false⟩⟩

/-- A conversation that will have, or has had, exactly `N` trips. -/
def Phase.Exact (N : Nat) : Phase → Prop
  | .clientTurn i => i ≤ N
  | .barrier => 1 ≤ N
  | .up i _ _ | .serverTurn i | .down i _ _ => i < N
  | .hungUp i | .hangUpSeen i | .overClient i => i + 1 = N
  | .refused | .failed | .serverLeft _ | .leftAtBarrier | .leftSeen _ | .overServer _ => False

/-- While nobody is stopped each step keeps to exactly `N` trips. -/
theorem Phase.Step.exact {N : Nat} {env : Env} {m : Bytes} {ph ph' : Phase} (hN : 1 ≤ N)
    (hclient : env.clientStop = false) (hserver : env.serverStop = false) (h : ph.Exact N)
    (hstep : Phase.Step (counting N) env m ph ph') : ph'.Exact N := by
  have hsend : ∀ i, MaySend (counting N) env i ↔ i < N := by
    intro i
    show (N = 0 ∨ i < N) ∧ env.clientStop = false ↔ i < N
    simp only [hclient, and_true]
    omega
  cases hstep with
  | send i hs => exact (hsend i).mp hs
  | hangUp i hs =>
    rw [hsend] at hs
    show i + 1 = N
    have : i + 1 ≤ N := h
    omega
  | refuse hs =>
    rw [hsend] at hs
    exact hs hN
  | pass => exact h
  | carryUp => exact h
  | arriveUp => exact h
  | answer => exact h
  | leave i hs =>
    rw [hserver] at hs
    cases hs
  | carryDown => exact h
  | firstTrip => exact hN
  | trip i => exact h
  | seeHangUp => exact h
  | endClient => exact h
  | fail => exact h
  | seeLeftFirst => exact h
  | seeLeft => exact h
  | passLeft => exact h
  | endServer => exact h

/-- The weights of a run to `N` trips. -/
def countingWeights (N : Nat) (m : Bytes) : Weights where
  head i := (N - i) * ((m.length + 2) * m.length + 3) + 1
  read i := (N - (i + 1)) * ((m.length + 2) * m.length + 3) + 3
  turn := m.length + 3
  up := m.length + 2
  down := 1

/-- Each step of a link makes its weight smaller. -/
theorem countingWeights_fit {N : Nat} (hN : 1 ≤ N) (env : Env) (m : Bytes) :
    (countingWeights N m).Fit (counting N) env m where
  send i h := by
    have hi : N = 0 ∨ i < N := h.1
    show (N - (i + 1)) * ((m.length + 2) * m.length + 3) + 3 + (m.length + 2) * m.length <
      (N - i) * ((m.length + 2) * m.length + 3) + 1
    -- one more trip
    generalize (m.length + 2) * m.length = trip
    have hsplit : (N - i) * (trip + 3) = (N - (i + 1)) * (trip + 3) + (trip + 3) := by
      rw [← Nat.succ_mul]
      congr 1
      omega
    omega
  head_pos i := Nat.succ_pos _
  arrive := by
    show m.length + 3 < m.length + 2 + 2
    omega
  answer _ := by
    show 1 * m.length + 2 < m.length + 3
    omega
  turn_pos := Nat.succ_pos _
  trip i := by
    show _ + 1 + 1 < _ + 3 + 1
    omega
  read i := by
    show 2 < _ + 3
    omega
  up_pos := Nat.succ_pos _
  down_pos := Nat.one_pos

/-! ## What is on a connection -/

/-- The bytes of a message that the party has read so far. -/
def Party.gathered (p : Party) : Bytes :=
  match p.pc with
  | .firstRead c | .reading _ c => c.seen
  | .head _ _ _ buf | .barrier _ _ buf => buf.1
  | .returned _ => []

/-- The message that the party will send next. -/
def Party.held (p : Party) : List Bytes :=
  match p.pc with
  | .head _ false bytes _ | .barrier false bytes _ => [bytes]
  | _ => []

/-- A message on its way to a party: what it has read of it and what is queued. -/
def onTheWay (p : Party) (inp : Stream) : List Bytes :=
  if p.gathered ++ inp.queue = [] then [] else [p.gathered ++ inp.queue]

/-- All messages of a connection: with the client, on their way up, with the handler, on
their way down. -/
def Link.messages (l : Link) : List Bytes :=
  l.client.held ++ onTheWay l.handler l.up ++ l.handler.held ++ onTheWay l.client l.down

/-- There is one message, or none. -/
theorem messages_link {cfg : Config} {m : Bytes} {ph : Phase} (hm : IsMessage m)
    (hv : ph.Valid cfg m) : (ph.link m).messages = [] ∨ (ph.link m).messages = [m] := by
  have hne : m ≠ [] := by
    obtain ⟨body, rfl, -⟩ := hm
    simp
  cases ph with
  | clientTurn i =>
    right
    cases i <;> simp [Phase.link, Link.messages, onTheWay, waiting, Party.held, Party.gathered,
      Buffered.empty]
  | barrier =>
    right
    simp [Phase.link, Link.messages, onTheWay, waiting, Party.held, Party.gathered, Buffered.empty]
  | up i c rest =>
    right
    have hv' : c.seen ++ rest = m := hv
    cases i <;>
      simp [Phase.link, Link.messages, onTheWay, waiting, Party.held, Party.gathered, sent,
      hv', hne]
  | down i c rest =>
    right
    have hv' : c.seen ++ rest = m := hv
    simp [Phase.link, Link.messages, onTheWay, Party.held, Party.gathered, sent, hv', hne]
  | serverTurn i =>
    right
    simp [Phase.link, Link.messages, onTheWay, Party.held, Party.gathered, sent, Buffered.empty]
  | _ =>
    left
    simp [Phase.link, Link.messages, onTheWay, Party.held, Party.gathered, sent, Buffered.empty,
      Party.handler]

/-! ## The payoff -/

section Runs

variable {n N : Nat} {s t : State n}

theorem counting_graceful (N : Nat) : (counting N).Graceful := ⟨rfl, fun h => by cases h⟩

/-- The invariant of a run to `N` trips. -/
theorem counting_reachable (hN : 1 ≤ N) (h : (echo (counting N) n).Reachable s) :
    ∃ ph, Follows (counting N) s ph ∧ ∀ c, (ph c).Exact N := by
  refine h.invariant (P := fun s => ∃ ph, Follows (counting N) s ph ∧ ∀ c, (ph c).Exact N) ?_ ?_
  · rintro s rfl
    exact ⟨_, follows_start, fun _ => Nat.zero_le N⟩
  · rintro s t - ⟨ph, hph, hexact⟩ hstep
    cases follows_step (counting_graceful N) hph hstep with
    | move c ph' hmove hlinks hstops hnext =>
      refine ⟨_, hnext, fun c' => ?_⟩
      have hclient : s.env.clientStop = false := by
        by_contra hstop
        cases hph.clientStop (by simpa [State.env] using hstop)
      have hserver : s.env.serverStop = false := by
        by_contra hstop
        cases hph.serverStop (by simpa [State.env] using hstop)
      by_cases hc : c' = c
      · subst hc
        rw [Function.update_self]
        exact hmove.exact hN hclient hserver (hexact c')
      · rw [Function.update_of_ne hc]
        exact hexact c'
    | close hlinks hnext hstops hcfg =>
      rcases hcfg with hcfg | hcfg <;> cases hcfg

/-- Each step of a run makes its weight smaller. -/
theorem counting_weight (hN : 1 ≤ N) (h : (echo (counting N) n).Reachable s)
    (hstep : (echo (counting N) n).step s t) :
    runWeight (countingWeights N) t < runWeight (countingWeights N) s := by
  obtain ⟨ph, hph, -⟩ := counting_reachable hN h
  cases follows_step (counting_graceful N) hph hstep with
  | move c ph' hmove hlinks hstops hnext =>
    exact weight_move hph (countingWeights_fit hN _ _) hmove hlinks
  | close hlinks hnext hstops hcfg =>
    rcases hcfg with hcfg | hcfg <;> cases hcfg

/-- All counts recorded. -/
def State.counts (s : State n) : List Nat :=
  (List.finRange n).flatMap fun c =>
    (s.links c).client.count.toList ++ (s.links c).handler.count.toList

/-- All clients and handlers have returned nil, with a count of `N` each. -/
def Counted (N : Nat) (s : State n) : Prop :=
  ∀ c, (s.links c).client = ⟨.returned none, some N⟩ ∧
    (s.links c).handler = ⟨.returned none, some N⟩

/-- A run that cannot go on has all its round trips counted, on both sides. -/
theorem counted_of_stuck (hN : 1 ≤ N) (h : (echo (counting N) n).Reachable s)
    (hstuck : (echo (counting N) n).Stuck s) : Counted N s := by
  obtain ⟨ph, hph, hexact⟩ := counting_reachable hN h
  intro c
  have hfinal := stuck_final hph hstuck c
  have hc := hexact c
  rw [hph.link c]
  cases hp : ph c with
  | overClient i =>
    rw [hp] at hc
    obtain rfl : i + 1 = N := hc
    exact ⟨by simp [Phase.link], by simp [Phase.link]⟩
  | failed =>
    rw [hp] at hc
    exact hc.elim
  | overServer i =>
    rw [hp] at hc
    exact hc.elim
  | _ =>
    rw [hp] at hfinal
    exact hfinal.elim

/-- The counts of both sides add up to twice the round trips. -/
theorem Counted.sum_counts (h : Counted N s) : s.counts.sum = 2 * n * N := by
  have hcounts : ∀ cs : List (Fin n), (cs.flatMap fun c =>
      (s.links c).client.count.toList ++ (s.links c).handler.count.toList).sum =
        2 * cs.length * N := by
    intro cs
    induction cs with
    | nil => simp
    | cons c cs ih =>
      rw [List.flatMap_cons, List.sum_append, ih, (h c).1, (h c).2]
      simp only [Option.toList_some, List.singleton_append, List.sum_cons, List.sum_nil,
        List.length_cons, Nat.mul_succ, Nat.add_mul]
      omega
  rw [State.counts, hcounts, List.length_finRange]

end Runs

/-- **The accounting is exact, up to what a float64 holds.** Every run ends; at its end all
clients and handlers have returned nil and counted `N` iterations each, and the combined
count, in whatever order the counts were recorded, is `2 * n * N` if that is at most 2⁵³.
On the way there is never more than one message on a connection, the client's first. -/
theorem echo_accounting {ε : Type} (stats : Metrics.Stats ε) (emptyInputErr : ε)
    (hstats : AddsFloats stats emptyInputErr) (n N : Nat) (hN : 1 ≤ N) :
    (∀ s, (echo (counting N) n).Reachable s → ∀ c,
      (s.links c).messages = [] ∨ (s.links c).messages = [clientMessage c]) ∧
    (echo (counting N) n).EveryRunEnds fun s => Counted N s ∧
      (2 * n * N ≤ 2 ^ 53 → ∀ connMetrics : List Nat, connMetrics.Perm s.counts →
        combinedCount stats connMetrics = some (2 * n * N)) := by
  refine ⟨?_, System.everyRunEnds_of_measure wellFounded_lt (runWeight (countingWeights N))
    (fun s t hs hst => counting_weight hN hs hst) ?_⟩
  · intro s hs c
    obtain ⟨ph, hph, -⟩ := counting_reachable hN hs
    rw [hph.link c]
    exact messages_link (isMessage_clientMessage c) (hph.valid c)
  · intro s hs hstuck
    have hcounted := counted_of_stuck hN hs hstuck
    refine ⟨hcounted, fun hle connMetrics hperm => ?_⟩
    have hsum : connMetrics.sum = 2 * n * N := by rw [hperm.sum_eq, hcounted.sum_counts]
    rw [combinedCount_of_le hstats (by rw [hsum]; exact hle), hsum]

/-- The library in binary64. -/
def binary64Stats : Metrics.Stats String :=
  { Metrics.exactStats with
    sum := fun fs =>
      if fs = [] then .error "Input must not be empty." else .ok (roundedSum 53 fs)
    mean := fun fs =>
      if fs = [] then .error "Input must not be empty."
      else .ok (float64 (roundedSum 53 fs / fs.length)) }

/-- Adding up in binary64 is what is asked for. -/
theorem binary64Stats_addsFloats : AddsFloats binary64Stats "Input must not be empty." where
  empty := by simp [binary64Stats]
  sum hne := if_neg hne

/-- Five hundred clients of a hundred iterations. -/
theorem echo_accounting_test :
    (echo (counting 100) 500).EveryRunEnds fun s => Counted 100 s ∧
      (2 * 500 * 100 ≤ 2 ^ 53 → ∀ connMetrics : List Nat, connMetrics.Perm s.counts →
        combinedCount binary64Stats connMetrics = some (2 * 500 * 100)) :=
  (echo_accounting binary64Stats _ binary64Stats_addsFloats 500 100 (by decide)).2

/-- From 2⁵³ on the floats are even. -/
theorem float64_odd : float64 ((2 ^ 53 + 1 : ℕ) : ℚ) = (2 ^ 53 : ℕ) := by
  have hulp : ulp 53 ((2 ^ 53 + 1 : ℕ) : ℚ) = 2 := by
    rw [ulp_eq (e := 53) (by norm_num) (by norm_num)]
    norm_num
  refine round_eq (n := 2 ^ 52) ?_ ?_ (Or.inl ⟨2 ^ 51, by norm_num⟩)
  · rw [hulp]
    norm_num
  · rw [hulp]
    norm_num

/-- The two counts of a client of 2⁵³ + 1 iterations. -/
theorem combinedCount_odd :
    combinedCount binary64Stats [2 ^ 53 + 1, 2 ^ 53 + 1] = some (2 ^ 54) := by
  have hint : (Int64.ofNat (2 ^ 53 + 1)).toInt = ((2 ^ 53 + 1 : ℕ) : ℤ) :=
    Int64.toInt_ofNat_of_lt (by norm_num)
  have hconv : float64 ((Int64.ofNat (2 ^ 53 + 1)).toInt : ℚ) = (2 ^ 53 : ℕ) := by
    rw [hint, Int.cast_natCast, float64_odd]
  have hexact : float64 ((2 ^ 53 : ℕ) : ℚ) = (2 ^ 53 : ℕ) := round_natCast (by decide) le_rfl
  have hdouble : float64 (((2 ^ 53 : ℕ) : ℚ) + (2 ^ 53 : ℕ)) = ((2 ^ 54 : ℤ) : ℚ) := by
    have hfloat := isFloat_mul_zpow (p := 53) (n := 2 ^ 53) le_rfl 1
    have heq : ((2 ^ 53 : ℕ) : ℚ) * 2 ^ (1 : ℤ) = (2 ^ 53 : ℕ) + (2 ^ 53 : ℕ) := by norm_num
    rw [heq] at hfloat
    refine (round_of_isFloat (by decide) (by positivity) hfloat).trans ?_
    norm_num
  have hsum : binary64Stats.sum ([2 ^ 53 + 1, 2 ^ 53 + 1].map Int64.ofNat |>.map
      fun count => float64 count.toInt) = .ok ((2 ^ 54 : ℤ) : ℚ) := by
    rw [List.map_map, List.map_cons, List.map_cons, List.map_nil, Function.comp_apply, hconv]
    refine (binary64Stats_addsFloats.sum (List.cons_ne_nil _ _)).trans (congrArg Except.ok ?_)
    show float64 (float64 (0 + ((2 ^ 53 : ℕ) : ℚ)) + (2 ^ 53 : ℕ)) = _
    rw [zero_add, hexact, hdouble]
  have hcount := congrArg (Option.map Int64.toInt) (Metrics.combinedWith_count hsum)
  rw [Option.map_map, Option.map_some, Metrics.toInt64_intCast] at hcount
  exact hcount

/-- One client of 2⁵³ + 1 iterations: 2⁵⁴ + 2 round trips are counted as 2⁵⁴. -/
theorem echo_accounting_rounds :
    ¬ (echo (counting (2 ^ 53 + 1)) 1).EveryRunEnds fun s => Counted (2 ^ 53 + 1) s ∧
      ∀ connMetrics : List Nat, connMetrics.Perm s.counts →
        combinedCount binary64Stats connMetrics = some (2 * 1 * (2 ^ 53 + 1)) := by
  intro hends
  have hN : 1 ≤ 2 ^ 53 + 1 := by decide
  obtain ⟨s, hs, hstuck, -⟩ := System.exists_stuck wellFounded_lt
    (runWeight (countingWeights (2 ^ 53 + 1))) (fun s t hs hst => counting_weight hN hs hst)
    (.start (Eq.refl (start 1)) : (echo (counting (2 ^ 53 + 1)) 1).Reachable (start 1))
  obtain ⟨hcounted, hcombined⟩ := hends.ends s hs hstuck
  have hcounts : s.counts = [2 ^ 53 + 1, 2 ^ 53 + 1] := by
    simp [State.counts, List.finRange_succ, (hcounted 0).1, (hcounted 0).2]
  have hcount := hcombined s.counts (List.Perm.refl _)
  rw [hcounts, combinedCount_odd] at hcount
  revert hcount
  decide

end ShouldIAsync.Echo
