import ShouldIAsync.JavaEcho.Segments
import ShouldIAsync.Lib.Family
import Mathlib.Algebra.Order.BigOperators.Group.Finset
import Mathlib.Data.Nat.Digits.Lemmas
import Mathlib.Data.Nat.Log

/-!
# All clients of the Java echo

`runClients` has connected `n` clients, and each `SocketChannel.read` gives a whole message
or the end of the stream. Every connection is then one of `Segments.lean` that is never cut
(`clients_refines`), so all of them end well, and the counts add up; what
`getStatistics` gives is their sum as a `long`.
-/

namespace ShouldIAsync.JavaEcho

open ShouldIAsync.JavaStd ShouldIAsync.Lib

/-! ## The names of the clients -/

/-- `(int) (Math.log10(numClients) + 1)` -/
def width (numClients : Nat) : Nat := Nat.log 10 numClients + 1

/-- `String.format("%1$0" + width + "d", i)` -/
def clientName (numClients i : Nat) : Bytes :=
  let digits := (Nat.digits 10 i).reverse.map fun d => UInt8.ofNat (48 + d)
  List.replicate (width numClients - digits.length) 48 ++ digits

/-- All names have the same length. -/
theorem length_clientName {numClients i : Nat} (h : i < numClients) :
    (clientName numClients i).length = width numClients := by
  have hle : (Nat.digits 10 i).length ≤ width numClients := by
    by_cases hi : i = 0
    · rw [hi, Nat.digits_zero]
      exact Nat.zero_le _
    · rw [Nat.length_digits 10 i (by decide) hi]
      exact Nat.succ_le_succ (Nat.log_mono_right (Nat.le_of_lt h))
  unfold clientName
  simp only [List.length_append, List.length_replicate, List.length_map, List.length_reverse]
  omega

/-- An `int` has ten digits at most, so every name fits the buffers. -/
theorem clientName_fits {numClients i : Nat} (hint : numClients < 2 ^ 31) (h : i < numClients) :
    clientName numClients i ≠ [] ∧ (clientName numClients i).length ≤ capacity := by
  have hlen := length_clientName h
  have hlog : Nat.log 10 numClients < 10 :=
    Nat.log_lt_of_lt_pow' (by decide) (Nat.lt_trans hint (by decide))
  have hcap : capacity = 100 := Eq.refl _
  rw [width] at hlen
  constructor
  · apply List.ne_nil_of_length_pos
    omega
  · omega

/-! ## `ConnectionMetricsSet` -/

/-- The `long` part of `ConnectionStatistics`. -/
structure ConnectionStatistics where
  count : Int64
  minCount : Int64
  maxCount : Int64

/-- `getStatistics`, of the counts of all connections. -/
def getStatistics (list : List Nat) : ConnectionStatistics where
  count := (list.map Int64.ofNat).foldl (· + ·) 0
  minCount := (list.map Int64.ofNat).foldl min Int64.maxValue
  maxCount := (list.map Int64.ofNat).foldl max Int64.minValue

/-- Adding up wraps as the sum does. -/
theorem int64_ofNat_add (a b : Nat) : Int64.ofNat (a + b) = Int64.ofNat a + Int64.ofNat b := by
  apply Int64.toBitVec_inj.mp
  simp

/-- A sum of `long`s is the sum, up to overflow. -/
theorem getStatistics_count (list : List Nat) :
    (getStatistics list).count = Int64.ofNat list.sum := by
  have hfold : ∀ (l : List Nat) (a : Nat),
      (l.map Int64.ofNat).foldl (· + ·) (Int64.ofNat a) = Int64.ofNat (a + l.sum) := by
    intro l
    induction l with
    | nil => intro a; simp
    | cons c l ih =>
      intro a
      rw [List.map_cons, List.foldl_cons, ← int64_ofNat_add, ih, List.sum_cons, Nat.add_assoc]
  have hsum := hfold list 0
  rw [Nat.zero_add] at hsum
  exact hsum

/-! ## The runs -/

/-- The connections of `n` clients. -/
structure State (n : Nat) where
  links : Fin n → Link

/-- A side of one connection acts; a read that gives something gives a whole message. -/
def act (cfg : Config) {n : Nat} : Fin n × Side × Act → State n → Option (State n)
  | (c, side, a), s =>
    if IsWhole (clientName n c) ((s.links c).chunk side a) then
      ((s.links c).act cfg side a).map fun l => ⟨Function.update s.links c l⟩
    else none

/-- All clients have connected. -/
def State.start (n : Nat) : State n := ⟨fun c => Link.start (clientName n c)⟩

/-- The runs of all clients with their handlers. -/
def clients (n N : Nat) : System (State n) :=
  System.ofActions (· = State.start n) (act (.iterations N))

variable {n N : Nat} {s t : State n}

/-- The counts of the connection metrics: a handler has its own after its first read. -/
def State.counts (s : State n) : List Nat :=
  (List.finRange n).flatMap fun c =>
    (s.links c).client.count :: (if (s.links c).server.pc = .firstRead then []
      else [(s.links c).server.count])

/-- What one step is: a step of one connection, in whole messages. -/
theorem clients_step (hstep : (clients n N).step s t) :
    ∃ (c : Fin n) (side : Side) (a : Act) (l : Link),
      (s.links c).act (.iterations N) side a = some l ∧
      IsWhole (clientName n c) ((s.links c).chunk side a) ∧
      t.links = Function.update s.links c l := by
  obtain ⟨⟨c, side, a⟩, hact⟩ := hstep
  rw [act] at hact
  split at hact
  next hwhole =>
    obtain ⟨l, hl, rfl⟩ := Option.map_eq_some_iff.mp hact
    exact ⟨c, side, a, l, hl, hwhole, Eq.refl _⟩
  next => cases hact

/-- **Each connection is a conversation that is never cut.** -/
theorem clients_refines (c : Fin n) :
    System.Refines (clients n N) (segments N (clientName n c)) fun s => ⟨s.links c, true⟩ where
  init s hs := by
    rw [show s = _ from hs]
    exact Eq.refl _
  step s t _ hstep := by
    obtain ⟨c', side, a, l, hl, hwhole, hlinks⟩ := clients_step hstep
    by_cases hc : c = c'
    · subst hc
      refine Or.inl ⟨(side, a), ?_⟩
      simp [Delivery.act, hl, hwhole, hlinks]
    · right
      simp only [hlinks, Function.update_of_ne hc]

theorem clients_inv (hint : n < 2 ^ 31) (h : (clients n N).Reachable s) (c : Fin n) :
    Delivery.Inv N (clientName n c) ⟨s.links c, true⟩ :=
  delivery_reachable (clientName_fits hint c.isLt).2 ((clients_refines c).reachable h)

/-- What is left to do on all connections. -/
def State.weight (N : Nat) (s : State n) : Nat :=
  ∑ c : Fin n, (s.links c).weight N (clientName n c).length

/-- Each step of a run makes the weight smaller. -/
theorem clients_weight (hint : n < 2 ^ 31) (h : (clients n N).Reachable s)
    (hstep : (clients n N).step s t) : t.weight N < s.weight N := by
  obtain ⟨c, side, a, l, hl, -, hlinks⟩ := clients_step hstep
  obtain ⟨hne, hfit⟩ := clientName_fits hint c.isLt
  have hwired := (clients_inv hint h c).wired
  have hlt := weight_step hwired hne
    (link_step (hwired.clientBytes ▸ hfit) hwired.serverBytes hwired.client_not_firstRead hl)
  unfold State.weight
  rw [hlinks]
  exact Family.sum_update_lt (w := fun (c : Fin n) (l : Link) =>
    l.weight N (clientName n c).length) hlt

/-- Where nothing can happen all conversations have ended well. -/
theorem clients_stuck (hint : n < 2 ^ 31) (h : (clients n N).Reachable s)
    (hstuck : (clients n N).Stuck s) (c : Fin n) : (s.links c).EndsWell N := by
  obtain ⟨hne, hfit⟩ := clientName_fits hint c.isLt
  rcases talking_progress hne hfit ((clients_inv hint h c).talking (Eq.refl _)) with
    hend | ⟨side, a, l, hl, hwhole⟩
  · exact hend
  · exfalso
    refine hstuck (⟨Function.update s.links c l⟩) ⟨(c, side, a), ?_⟩
    rw [act, if_pos hwhole, hl, Option.map_some]

/-- The counts add up to one less per connection on the server's side. -/
theorem sum_counts (h : ∀ c, (s.links c).EndsWell N) : s.counts.sum = n * N + n * (N - 1) := by
  have hcounts : ∀ cs : List (Fin n), (cs.flatMap fun c =>
      (s.links c).client.count :: (if (s.links c).server.pc = .firstRead then []
        else [(s.links c).server.count])).sum =
        cs.length * N + cs.length * (N - 1) := by
    intro cs
    induction cs with
    | nil => simp
    | cons c cs ih =>
      have hpast : (s.links c).server.pc ≠ .firstRead := by
        rw [(h c).server]
        exact Pc.noConfusion
      rw [List.flatMap_cons, List.sum_append, ih, if_neg hpast, (h c).clientCount,
        (h c).serverCount]
      simp only [List.sum_cons, List.sum_nil, List.length_cons, Nat.succ_mul]
      omega
  rw [State.counts, hcounts, List.length_finRange]

/-- **The accounting of the Java echo**, for every number of clients (an `int`) and of
iterations: every run ends, with all clients returned, all handlers at the end of their
streams and nothing thrown, `N` records of each client and `N - 1` of each handler. In
whatever order the connections were registered, the total is `n * N + n * (N - 1)` in the
arithmetic of `long`, which is that number as long as a `long` holds it. -/
theorem clients_accounting (n N : Nat) (hint : n < 2 ^ 31) :
    (clients n N).EveryRunEnds fun s => (∀ c, (s.links c).EndsWell N) ∧
      ∀ list : List Nat, list.Perm s.counts →
        (getStatistics list).count = Int64.ofNat (n * N + n * (N - 1)) ∧
        (n * N + n * (N - 1) < 2 ^ 63 →
          (getStatistics list).count.toInt = (n * N + n * (N - 1) : Nat)) := by
  refine System.everyRunEnds_of_measure Nat.lt_wfRel.wf (State.weight N)
    (fun s t hs hst => clients_weight hint hs hst) ?_
  intro s hs hstuck
  have hends := clients_stuck hint hs hstuck
  refine ⟨hends, fun list hperm => ?_⟩
  have hsum : (getStatistics list).count = Int64.ofNat (n * N + n * (N - 1)) := by
    rw [getStatistics_count, hperm.sum_eq, sum_counts hends]
  refine ⟨hsum, fun hlong => ?_⟩
  rw [hsum, Int64.toInt_ofNat_of_lt hlong]

/-- The numbers of `ClientServerTest`. -/
theorem clients_accounting_test :
    (clients 512 1000).EveryRunEnds fun s => (∀ c, (s.links c).EndsWell 1000) ∧
      ∀ list : List Nat, list.Perm s.counts →
        (getStatistics list).count = Int64.ofNat (512 * 1000 + 512 * (1000 - 1)) ∧
        (512 * 1000 + 512 * (1000 - 1) < 2 ^ 63 →
          (getStatistics list).count.toInt = (512 * 1000 + 512 * (1000 - 1) : Nat)) :=
  clients_accounting 512 1000 (by decide)

/-- One client of 2⁶² + 1 iterations: there are 2⁶³ + 1 records, and a `long` does not hold
that many. -/
theorem clients_accounting_overflow :
    ¬ (clients 1 (2 ^ 62 + 1)).EveryRunEnds fun s => (getStatistics s.counts).count.toInt =
      (1 * (2 ^ 62 + 1) + 1 * ((2 ^ 62 + 1) - 1) : Nat) := by
  intro hends
  obtain ⟨s, hs, hstuck, -⟩ := System.exists_stuck Nat.lt_wfRel.wf (State.weight (2 ^ 62 + 1))
    (fun s t hs hst => clients_weight (by decide) hs hst)
    (.start (Eq.refl (State.start 1)) : (clients 1 (2 ^ 62 + 1)).Reachable (State.start 1))
  have hcount := hends.ends s hs hstuck
  have hlt := (getStatistics s.counts).count.toInt_lt
  rw [hcount] at hlt
  revert hlt
  decide

end ShouldIAsync.JavaEcho
