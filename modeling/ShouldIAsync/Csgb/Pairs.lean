import ShouldIAsync.Csgb.Run
import Mathlib.Algebra.GroupWithZero.Nat
import Mathlib.Data.List.Basic

/-!
# The pairs of a run

How `run_futex`, `run_socket` and `run_socket_async` number their threads and share out the
futexes and the sockets. The first two compute the number of threads as a `u16`, which is too
small for the upper half of the pairs the command line admits: a build with overflow checks
panics, and one without runs the pairs that are left modulo 2¹⁵. For the lower half all three
run all pairs (`runsAllPairs_iff`).
-/

namespace ShouldIAsync.Csgb.Pairs

variable {R : Type}

/-- `a * b`, where `none` is a panic -/
def mul (overflowChecks : Bool) (a b : UInt16) : Option UInt16 :=
  if overflowChecks ∧ 2 ^ 16 ≤ a.toNat * b.toNat then none else some (a * b)

/-- `0..n` -/
def range (n : UInt16) : List UInt16 := (List.range n.toNat).map UInt16.ofNat

/-- The runners of the threads of `run`. -/
def run (numThreads : UInt16) (runnerGenerator : UInt16 → Option R) : Option (List R) :=
  (range numThreads).mapM runnerGenerator

/-- A futex is named by its place in the vector. -/
structure FutexRunner where
  futex1 : Nat
  futex2 : Nat
  isFirstInPair : Bool
  deriving DecidableEq

/-- `run_futex`: its runners -/
def runFutex (overflowChecks : Bool) (numPairs : UInt16) : Option (List FutexRunner) :=
  (mul overflowChecks numPairs 2).bind fun numThreads =>
    let futexes := (range numThreads).map UInt16.toNat
    run numThreads fun threadId =>
      let isFirstInPair := threadId % 2 == 0
      let baseIdx := (if isFirstInPair then threadId else threadId - 1).toNat
      futexes[baseIdx]?.bind fun futex1 =>
        futexes[baseIdx + 1]?.map fun futex2 => ⟨futex1, futex2, isFirstInPair⟩

/-- One end of a socket pair. -/
structure UnixStream where
  pair : Nat
  side : Member
  deriving DecidableEq

structure SocketRunner where
  socket : UnixStream
  isFirstInPair : Bool
  deriving DecidableEq

/-- `run_socket`: its runners -/
def runSocket (overflowChecks : Bool) (numPairs : UInt16) : Option (List SocketRunner) :=
  (mul overflowChecks numPairs 2).bind fun numThreads =>
    let sockets := (range numPairs).flatMap fun pair =>
      [(⟨pair.toNat, .first⟩ : UnixStream), ⟨pair.toNat, .second⟩]
    run numThreads fun threadId =>
      let isFirstInPair := threadId % 2 == 0
      sockets[threadId.toNat]?.map fun socket => ⟨socket, isFirstInPair⟩

/-- An `AsyncSocket1` or an `AsyncSocket2`; what they share is named by the pair it was made for. -/
structure AsyncRunner where
  side : Member
  stream : UnixStream
  notify1 : Nat
  notify2 : Nat
  cancelBarrier : Nat
  deriving DecidableEq

/-- `run_socket_async`: its tasks -/
def runSocketAsync (numPairs : UInt16) : List AsyncRunner :=
  (range numPairs).flatMap fun pair =>
    let p := pair.toNat
    [⟨.first, ⟨p, .first⟩, p, p, p⟩, ⟨.second, ⟨p, .second⟩, p, p, p⟩]

/-! ## All pairs -/

/-- `n` pairs, those of the threads `2k` and `2k + 1`. -/
structure AllPairs (n : Nat) (peers apart : R → R → Prop) (isFirst : R → Bool) (runners : List R) :
    Prop where
  length : runners.length = 2 * n
  peers : ∀ {i j a b}, runners[i]? = some a → runners[j]? = some b → i / 2 = j / 2 → i ≠ j →
    peers a b ∧ isFirst a ≠ isFirst b
  apart : ∀ {i j a b}, runners[i]? = some a → runners[j]? = some b → i / 2 ≠ j / 2 → apart a b

/-- The two have the same two futexes. -/
def FutexRunner.Peers (a b : FutexRunner) : Prop :=
  a.futex1 = b.futex1 ∧ a.futex2 = b.futex2 ∧ a.futex1 ≠ a.futex2

/-- And these have none in common. -/
def FutexRunner.Apart (a b : FutexRunner) : Prop :=
  a.futex1 ≠ b.futex1 ∧ a.futex1 ≠ b.futex2 ∧ a.futex2 ≠ b.futex1 ∧ a.futex2 ≠ b.futex2

/-- The two ends of one pair. -/
def UnixStream.Peers (a b : UnixStream) : Prop := a.pair = b.pair ∧ a.side ≠ b.side

/-- The two ends are not of one pair. -/
def UnixStream.Apart (a b : UnixStream) : Prop := a.pair ≠ b.pair

/-- What is asked of a number of pairs. -/
structure RunsAllPairs (overflowChecks : Bool) (numPairs : UInt16) : Prop where
  numThreads : ∃ numThreads, mul overflowChecks numPairs 2 = some numThreads ∧
    numThreads.toNat = 2 * numPairs.toNat
  futex : ∃ runners, runFutex overflowChecks numPairs = some runners ∧
    AllPairs numPairs.toNat FutexRunner.Peers FutexRunner.Apart FutexRunner.isFirstInPair runners
  socket : ∃ runners, runSocket overflowChecks numPairs = some runners ∧
    AllPairs numPairs.toNat (fun a b => a.socket.Peers b.socket) (fun a b =>
      a.socket.Apart b.socket)
      SocketRunner.isFirstInPair runners
  socketAsync : (runSocket overflowChecks numPairs).map List.length =
    some (runSocketAsync numPairs).length

/-! ## Runners by their number -/

/-- A list made of two elements for each `k` is the one made by the parity of the index. -/
theorem flatMap_pair (n : Nat) (f g : Nat → R) :
    ((List.range n).flatMap fun k => [f k, g k]) =
      (List.range (2 * n)).map fun i => if i % 2 = 0 then f (i / 2) else g (i / 2) := by
  induction n with
  | zero => rfl
  | succ n ih =>
    rw [List.range_succ, List.flatMap_append, ih, Nat.mul_succ, List.range_succ, List.range_succ,
      List.map_append, List.map_append, List.append_assoc]
    have heven : 2 * n % 2 = 0 := by omega
    have hodd : (2 * n + 1) % 2 ≠ 0 := by omega
    have hhalf : 2 * n / 2 = n := by omega
    have hhalf' : (2 * n + 1) / 2 = n := by omega
    simp only [List.map_cons, List.map_nil, List.flatMap_cons, List.flatMap_nil,
      if_pos heven, if_neg hodd, hhalf, hhalf', List.append_nil, List.cons_append, List.nil_append]

theorem toNat_ofNat {n : UInt16} {i : Nat} (h : i < n.toNat) : (UInt16.ofNat i).toNat = i :=
  UInt16.toNat_ofNat_of_lt' (Nat.lt_trans h n.toNat_lt)

/-- The range of a `u16` as numbers. -/
theorem map_toNat_range (n : UInt16) : (range n).map UInt16.toNat = List.range n.toNat := by
  rw [range, List.map_map]
  conv_rhs => rw [← List.map_id (List.range n.toNat)]
  exact List.map_congr_left fun i hi => toNat_ofNat (List.mem_range.mp hi)

/-- A `run` all of whose runners can be made has as many as there are threads. -/
theorem run_eq {numThreads : UInt16} {runnerGenerator : UInt16 → Option R} {r : Nat → R}
    (h : ∀ i < numThreads.toNat, runnerGenerator (UInt16.ofNat i) = some (r i)) :
    run numThreads runnerGenerator = some ((List.range numThreads.toNat).map r) := by
  have hmap : ∀ l : List Nat, (∀ i ∈ l, runnerGenerator (UInt16.ofNat i) = some (r i)) →
      (l.map UInt16.ofNat).mapM runnerGenerator = some (l.map r) := by
    intro l
    induction l with
    | nil => intro _; rfl
    | cons i l ih =>
      intro hl
      rw [List.map_cons, List.mapM_cons, hl i List.mem_cons_self,
        ih fun i hi => hl i (List.mem_cons_of_mem _ hi)]
      rfl
  exact hmap _ fun i hi => h i (List.mem_range.mp hi)

/-- The thread of an even number is the first. -/
theorem isFirst_eq {i : Nat} (h : i < 2 ^ 16) : (UInt16.ofNat i % 2 == 0) = (i % 2 == 0) := by
  have hmod : (UInt16.ofNat i % 2).toNat = i % 2 := by
    rw [UInt16.toNat_mod, UInt16.toNat_ofNat_of_lt' h]
    rfl
  rw [Bool.eq_iff_iff, beq_iff_eq, beq_iff_eq, ← UInt16.toNat_inj, hmod]
  rfl

/-- The base index of thread `i` is the even one of its pair. -/
theorem baseIdx_eq {i : Nat} (h : i < 2 ^ 16) :
    (if (UInt16.ofNat i % 2 == 0) = true then UInt16.ofNat i else UInt16.ofNat i - 1).toNat =
      2 * (i / 2) := by
  have hi : (UInt16.ofNat i).toNat = i := UInt16.toNat_ofNat_of_lt' h
  rw [isFirst_eq h]
  split
  next heven =>
    have := beq_iff_eq.mp heven
    omega
  next hodd =>
    have hodd : i % 2 ≠ 0 := fun he => hodd (beq_iff_eq.mpr he)
    have hle : (1 : UInt16) ≤ UInt16.ofNat i := by
      rw [UInt16.le_iff_toNat_le, hi]
      show 1 ≤ i
      omega
    rw [UInt16.toNat_sub_of_le _ _ hle, hi]
    show i - 1 = 2 * (i / 2)
    omega

/-- The runner of thread `i` of `run_futex`. -/
def futexRunner (i : Nat) : FutexRunner := ⟨2 * (i / 2), 2 * (i / 2) + 1, i % 2 == 0⟩

/-- An even number of threads, be it the right one or not, keeps all indices in bounds. -/
theorem runFutex_eq {overflowChecks : Bool} {numPairs numThreads : UInt16}
    (hmul : mul overflowChecks numPairs 2 = some numThreads) (heven : numThreads.toNat % 2 = 0) :
    runFutex overflowChecks numPairs = some ((List.range numThreads.toNat).map futexRunner) := by
  rw [runFutex, hmul, Option.bind_some]
  refine run_eq fun i hi => ?_
  have hlt : i < 2 ^ 16 := Nat.lt_trans hi numThreads.toNat_lt
  have h1 : (List.range numThreads.toNat)[2 * (i / 2)]? = some (2 * (i / 2)) :=
    List.getElem?_range (by omega)
  have h2 : (List.range numThreads.toNat)[2 * (i / 2) + 1]? = some (2 * (i / 2) + 1) :=
    List.getElem?_range (by omega)
  dsimp only
  rw [map_toNat_range, baseIdx_eq hlt, isFirst_eq hlt, h1, h2]
  rfl

/-- The end with number `i` in the vector of the sockets. -/
def unixStream (i : Nat) : UnixStream := ⟨i / 2, if i % 2 = 0 then .first else .second⟩

/-- The sockets in the order of `sockets`: thread `i` has the end of its parity of pair `i / 2`. -/
theorem sockets_eq (numPairs : UInt16) :
    ((range numPairs).flatMap fun pair =>
      [(⟨pair.toNat, .first⟩ : UnixStream), ⟨pair.toNat, .second⟩]) =
      (List.range (2 * numPairs.toNat)).map unixStream := by
  have hflat :=
    flatMap_pair numPairs.toNat (fun k => (⟨k, .first⟩ : UnixStream)) fun k => ⟨k, .second⟩
  rw [← map_toNat_range, List.flatMap_map] at hflat
  rw [hflat]
  refine List.map_congr_left fun i _ => ?_
  unfold unixStream
  split <;> rfl

/-- What `run_socket` makes when there are not more threads than sockets. -/
theorem runSocket_eq {overflowChecks : Bool} {numPairs numThreads : UInt16}
    (hmul : mul overflowChecks numPairs 2 = some numThreads)
    (hle : numThreads.toNat ≤ 2 * numPairs.toNat) :
    runSocket overflowChecks numPairs =
      some ((List.range numThreads.toNat).map fun i => ⟨unixStream i, i % 2 == 0⟩) := by
  rw [runSocket, hmul, Option.bind_some, sockets_eq]
  refine run_eq fun i hi => ?_
  have hlt : i < 2 ^ 16 := Nat.lt_trans hi numThreads.toNat_lt
  rw [toNat_ofNat hi, List.getElem?_map, List.getElem?_range (Nat.lt_of_lt_of_le hi hle),
    isFirst_eq hlt]
  rfl

/-- Two tasks for each pair. -/
theorem length_runSocketAsync (numPairs : UInt16) :
    (runSocketAsync numPairs).length = 2 * numPairs.toNat := by
  have hflat := flatMap_pair numPairs.toNat (fun p =>
    (⟨.first, ⟨p, .first⟩, p, p, p⟩ : AsyncRunner))
    fun p => ⟨.second, ⟨p, .second⟩, p, p, p⟩
  rw [← map_toNat_range, List.flatMap_map] at hflat
  rw [runSocketAsync, hflat, List.length_map, List.length_range]

/-! ## The number of threads -/

/-- Without overflow checks, or below the overflow, the number is there. -/
theorem mul_eq_some {overflowChecks : Bool} {numPairs numThreads : UInt16}
    (h : mul overflowChecks numPairs 2 = some numThreads) :
    numThreads.toNat = numPairs.toNat * 2 % 2 ^ 16 := by
  unfold mul at h
  split at h
  next => cases h
  next =>
    cases h
    exact UInt16.toNat_mul numPairs 2

/-- Below 2^15 pairs the product does not overflow. -/
theorem mul_of_lt (overflowChecks : Bool) {numPairs : UInt16} (h : numPairs.toNat < 2 ^ 15) :
    ∃ numThreads, mul overflowChecks numPairs 2 = some numThreads ∧
      numThreads.toNat = 2 * numPairs.toNat := by
  have hsome : mul overflowChecks numPairs 2 = some (numPairs * 2) := by
    unfold mul
    rw [if_neg]
    rintro ⟨-, hge⟩
    rw [show (2 : UInt16).toNat = 2 from rfl] at hge
    omega
  refine ⟨numPairs * 2, hsome, ?_⟩
  rw [mul_eq_some hsome]
  omega

/-- From the overflow on, 2¹⁵ pairs are missing. -/
theorem mul_of_ge {numPairs : UInt16} (h : 2 ^ 15 ≤ numPairs.toNat) :
    mul true numPairs 2 = none ∧ ∃ numThreads, mul false numPairs 2 = some numThreads ∧
      numThreads.toNat = 2 * (numPairs.toNat - 2 ^ 15) := by
  constructor
  · refine if_pos ⟨rfl, ?_⟩
    rw [show (2 : UInt16).toNat = 2 from rfl]
    omega
  · have hsome : mul false numPairs 2 = some (numPairs * 2) := if_neg fun hpanic =>
      Bool.false_ne_true hpanic.1
    have hlt := numPairs.toNat_lt
    refine ⟨numPairs * 2, hsome, ?_⟩
    rw [mul_eq_some hsome]
    omega

/-! ## Whether all pairs run -/

/-- A list of runners by their number is all pairs if two numbers are enough for it. -/
theorem allPairs_map {n : Nat} {peers apart : R → R → Prop} {isFirst : R → Bool} {r : Nat → R}
    (hpeers : ∀ i j, i / 2 = j / 2 → i ≠ j → peers (r i) (r j))
    (hapart : ∀ i j, i / 2 ≠ j / 2 → apart (r i) (r j))
    (hfirst : ∀ i, isFirst (r i) = (i % 2 == 0)) :
    AllPairs n peers apart isFirst ((List.range (2 * n)).map r) := by
  have hget : ∀ {i a}, ((List.range (2 * n)).map r)[i]? = some a → a = r i := by
    intro i a h
    obtain ⟨hlt, rfl⟩ := List.getElem?_eq_some_iff.mp h
    rw [List.getElem_map, List.getElem_range]
  refine ⟨by rw [List.length_map, List.length_range],
    fun {i j a b} ha hb hij hne => ?_, fun {i j a b} ha hb hij => ?_⟩
  · obtain rfl := hget ha
    obtain rfl := hget hb
    refine ⟨hpeers i j hij hne, ?_⟩
    rw [hfirst, hfirst, ne_eq, Bool.eq_iff_iff, beq_iff_eq, beq_iff_eq]
    omega
  · obtain rfl := hget ha
    obtain rfl := hget hb
    exact hapart i j hij

/-- The futex runners fall into pairs. -/
theorem allPairs_futexRunner (n : Nat) :
    AllPairs n FutexRunner.Peers FutexRunner.Apart FutexRunner.isFirstInPair
      ((List.range (2 * n)).map futexRunner) := by
  refine allPairs_map (fun i j hij _ => ?_) (fun i j hij => ?_) fun _ => rfl
  · unfold FutexRunner.Peers futexRunner
    dsimp only
    omega
  · unfold FutexRunner.Apart futexRunner
    dsimp only
    omega

/-- The socket runners fall into pairs. -/
theorem allPairs_socketRunner (n : Nat) :
    AllPairs n (fun a b => a.socket.Peers b.socket) (fun a b =>
      a.socket.Apart b.socket) SocketRunner.isFirstInPair
      ((List.range (2 * n)).map fun i => ⟨unixStream i, i % 2 == 0⟩) := by
  refine allPairs_map (fun i j hij hne => ⟨hij, ?_⟩) (fun i j hij => hij) fun _ => rfl
  -- of two numbers with one half, one is even
  unfold unixStream
  dsimp only
  by_cases heven : i % 2 = 0
  · have hodd : ¬ j % 2 = 0 := by omega
    rw [if_pos heven, if_neg hodd]
    exact Member.noConfusion
  · have hodd : j % 2 = 0 := by omega
    rw [if_neg heven, if_pos hodd]
    exact Member.noConfusion

/-- **Below 2^15 pairs all of them run.** -/
theorem runsAllPairs_of_lt {overflowChecks : Bool} {numPairs : UInt16}
    (h : numPairs.toNat < 2 ^ 15) :
    RunsAllPairs overflowChecks numPairs := by
  obtain ⟨numThreads, hmul, htoNat⟩ := mul_of_lt overflowChecks h
  have hfutex := runFutex_eq hmul (by omega)
  have hsocket := runSocket_eq hmul (Nat.le_of_eq htoNat)
  rw [htoNat] at hfutex hsocket
  refine ⟨⟨numThreads, hmul, htoNat⟩, ⟨_, hfutex, allPairs_futexRunner _⟩,
    ⟨_, hsocket, allPairs_socketRunner _⟩, ?_⟩
  rw [hsocket, Option.map_some, List.length_map, List.length_range, length_runSocketAsync]

/-- Beyond, a build with overflow checks panics, and one without runs the pairs that are left, of
which all are in order. -/
theorem run_of_ge {numPairs : UInt16} (h : 2 ^ 15 ≤ numPairs.toNat) :
    (runFutex true numPairs = none ∧ runSocket true numPairs = none) ∧
      (∃ runners, runFutex false numPairs = some runners ∧
        AllPairs (numPairs.toNat - 2 ^ 15) FutexRunner.Peers FutexRunner.Apart
          FutexRunner.isFirstInPair runners) ∧
      ∃ runners, runSocket false numPairs = some runners ∧
        AllPairs (numPairs.toNat - 2 ^ 15) (fun a b => a.socket.Peers b.socket) (fun a b =>
          a.socket.Apart b.socket)
          SocketRunner.isFirstInPair runners := by
  obtain ⟨hpanic, numThreads, hmul, htoNat⟩ := mul_of_ge h
  have hfutex := runFutex_eq hmul (by omega)
  have hsocket := runSocket_eq hmul (by omega)
  rw [htoNat] at hfutex hsocket
  refine ⟨⟨?_, ?_⟩, ⟨_, hfutex, allPairs_futexRunner _⟩, ⟨_, hsocket, allPairs_socketRunner _⟩⟩
  · rw [runFutex, hpanic, Option.bind_none]
  · rw [runSocket, hpanic, Option.bind_none]

/-- The pairs of a list of runners, by its length. -/
theorem AllPairs.half {n : Nat} {peers apart : R → R → Prop} {isFirst : R → Bool} {runners : List R}
    (h : AllPairs n peers apart isFirst runners) :
    AllPairs (runners.length / 2) peers apart isFirst runners := by
  rw [h.length, Nat.mul_div_cancel_left n Nat.two_pos]
  exact h

/-- Where `run_socket` does not panic its runners are pairs, all of them below the overflow. -/
theorem runSocket_allPairs {overflowChecks : Bool} {numPairs : UInt16} {runners : List SocketRunner}
    (h : runSocket overflowChecks numPairs = some runners) :
    (numPairs.toNat < 2 ^ 15 → runners.length = 2 * numPairs.toNat) ∧
      AllPairs (runners.length / 2) (fun a b => a.socket.Peers b.socket)
        (fun a b => a.socket.Apart b.socket) SocketRunner.isFirstInPair runners := by
  by_cases hlt : numPairs.toNat < 2 ^ 15
  · have hruns : RunsAllPairs overflowChecks numPairs := runsAllPairs_of_lt hlt
    obtain ⟨runners', h', hall⟩ := hruns.socket
    obtain rfl := Option.some.inj (h.symm.trans h')
    exact ⟨fun _ => hall.length, hall.half⟩
  · obtain ⟨⟨-, hpanic⟩, -, runners', h', hall⟩ := run_of_ge (Nat.le_of_not_lt hlt)
    cases overflowChecks with
    | true =>
      rw [hpanic] at h
      cases h
    | false =>
      obtain rfl := Option.some.inj (h.symm.trans h')
      exact ⟨fun hlt' => absurd hlt' hlt, hall.half⟩

/-- So are those of `run_futex`. -/
theorem runFutex_allPairs {overflowChecks : Bool} {numPairs : UInt16} {runners : List FutexRunner}
    (h : runFutex overflowChecks numPairs = some runners) :
    (numPairs.toNat < 2 ^ 15 → runners.length = 2 * numPairs.toNat) ∧
      AllPairs (runners.length / 2) FutexRunner.Peers FutexRunner.Apart
        FutexRunner.isFirstInPair runners := by
  by_cases hlt : numPairs.toNat < 2 ^ 15
  · have hruns : RunsAllPairs overflowChecks numPairs := runsAllPairs_of_lt hlt
    obtain ⟨runners', h', hall⟩ := hruns.futex
    obtain rfl := Option.some.inj (h.symm.trans h')
    exact ⟨fun _ => hall.length, hall.half⟩
  · obtain ⟨⟨hpanic, -⟩, ⟨runners', h', hall⟩, -⟩ := run_of_ge (Nat.le_of_not_lt hlt)
    cases overflowChecks with
    | true =>
      rw [hpanic] at h
      cases h
    | false =>
      obtain rfl := Option.some.inj (h.symm.trans h')
      exact ⟨fun hlt' => absurd hlt' hlt, hall.half⟩

/-- **All pairs run** in `run_futex`, in `run_socket` and as many in `run_socket_async` exactly if
there are fewer than 2¹⁵, with overflow checks and without. -/
theorem runsAllPairs_iff (overflowChecks : Bool) (numPairs : UInt16) :
    RunsAllPairs overflowChecks numPairs ↔ numPairs.toNat < 2 ^ 15 := by
  constructor
  · intro hruns
    obtain ⟨numThreads, hmul, htoNat⟩ := hruns.numThreads
    have hlt := numThreads.toNat_lt
    omega
  · exact runsAllPairs_of_lt

/-- 32768 pairs: a panic, or no thread at all. -/
theorem runsAllPairs_overflow :
    ¬ ∀ (overflowChecks : Bool) (numPairs : UInt16), 1 ≤ numPairs.toNat →
      RunsAllPairs overflowChecks numPairs := by
  intro hall
  obtain ⟨runners, hrun, hall⟩ := (hall false 32768 (by decide)).futex
  have hnone : runFutex false 32768 = some [] := rfl
  obtain rfl := Option.some.inj (hnone.symm.trans hrun)
  cases hall.length

end ShouldIAsync.Csgb.Pairs
