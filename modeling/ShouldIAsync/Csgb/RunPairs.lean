import ShouldIAsync.Csgb.RunThreads
import ShouldIAsync.Csgb.FutexWake
import ShouldIAsync.Csgb.Pairs
import ShouldIAsync.Csgb.Socket
import ShouldIAsync.Lib.Family

/-!
# `run_futex` and `run_socket` with all their pairs

The threads `2k` and `2k + 1` of `run` are the pair `k`. What is known of a pair by itself holds of
each of them (`Runner.pair_reachable`): the other pairs and the joining only take steps away.

So once `term` is set all threads come to their end, no matter where the signal found them
(`run_socket_ends`, `run_futex_ends`), and the total is the sum of the counts. The two counts of a
socket pair have stayed together: the thread that was ahead was so by the byte on its way
(`Socket.Even`).

How many pairs there are is for `Pairs` to say: `run_socket` and `run_futex` may panic before the
first thread, or make fewer of them than they are asked for.
-/

namespace ShouldIAsync.Csgb

open ShouldIAsync.Lib

variable {T : Type} {n : Nat}

/-- What the threads of the pairs can do. -/
inductive PairAction (n : Nat)
  | step (k : Fin n) (who : Member)
  | interrupt (k : Fin n) (who : Member)

namespace PairAction

/-- The pair it is about. -/
def pair : PairAction n → Fin n
  | .step k _ | .interrupt k _ => k

/-- The thread of the pair. -/
def who : PairAction n → Member
  | .step _ who | .interrupt _ who => who

/-- What it is for the pair alone. -/
def action : PairAction n → ThreadAction
  | .step _ who => .step who
  | .interrupt _ who => .interrupt who

end PairAction

/-- A pair, where the flag is `term`. -/
def threadsOf (p : T × T) (term : Bool) : Threads T := ⟨p.1, p.2, term⟩

/-- The threads of `n` pairs of runners. -/
def Runner.pairs (R : Runner T) (exit : T → Option Exit) (n : Nat) :
    Program (Fin n × Member) (PairAction n) (Fin n → T × T) where
  threadIds := (List.finRange n).flatMap fun k => [(k, .first), (k, .second)]
  start := fun _ => (R.start, R.start)
  thread a := (a.pair, a.who)
  act a term m := (R.act a.action (threadsOf (m a.pair) term)).map fun t =>
    Function.update m a.pair (t.first, t.second)
  exit i m := exit ((threadsOf (m i.1) false).thread i.2)

/-- Whether `a` is a step that is still possible when signals have stopped. -/
def PairAction.noSignal : PairAction n → Prop
  | .step .. => True
  | .interrupt .. => False

/-! ## One pair of many -/

section Pair

variable {R : Runner T} {exit : T → Option Exit}

/-- `run` has spawned each thread of each pair. -/
theorem mem_threadIds (i : Fin n × Member) : i ∈ (R.pairs exit n).threadIds := by
  obtain ⟨k, who⟩ := i
  refine List.mem_flatMap.mpr ⟨k, List.mem_finRange k, ?_⟩
  cases who
  · exact List.mem_cons_self
  · exact List.mem_cons_of_mem _ List.mem_cons_self

/-- An action of a pair leaves `term` alone. -/
theorem Runner.act_term {a : PairAction n} {s t : Threads T} (h : R.act a.action s = some t) :
    t.term = s.term := by
  cases a with
  | step k who =>
    obtain ⟨⟨me, peer⟩, -, rfl⟩ := Option.map_eq_some_iff.mp h
    exact Threads.set_term s who me peer
  | interrupt k who =>
    obtain ⟨me, -, rfl⟩ := Option.map_eq_some_iff.mp h
    exact Threads.set_term s who me _

/-- Pair `k` of many does what a pair does. -/
theorem Runner.pair_refines (k : Fin n) :
    System.Refines (R.pairs exit n).threads R.run fun m => threadsOf (m.1 k) m.2 where
  init := by
    rintro m rfl
    rfl
  step := by
    rintro ⟨m, term⟩ ⟨m', term'⟩ - (⟨a, hact, hterm⟩ | ⟨hterm, heq⟩)
    · obtain ⟨t, ht, rfl⟩ := Option.map_eq_some_iff.mp hact
      obtain rfl : term' = term := hterm
      by_cases hk : k = a.pair
      · left
        refine ⟨a.action, ?_⟩
        show R.act a.action (threadsOf (m k) term') =
          some (threadsOf (Function.update m a.pair _ k) term')
        rw [hk, Function.update_self, ht]
        refine congrArg some ?_
        obtain rfl : t.term = term' := Runner.act_term ht
        rfl
      · right
        show threadsOf (Function.update m a.pair _ k) term' = threadsOf (m k) term'
        rw [Function.update_of_ne hk]
    · obtain ⟨rfl, rfl⟩ := Prod.mk.inj heq
      left
      obtain rfl : term = false := hterm
      exact ⟨.terminate, rfl⟩

/-- In a run of all pairs each of them is in a state of a run of its own. -/
theorem Runner.pair_reachable {m : Fin n → T × T} {term : Bool}
    (h : (R.pairs exit n).threads.Reachable (m, term)) (k : Fin n) :
      R.run.Reachable (threadsOf (m k) term) :=
  (Runner.pair_refines k).reachable h

/-- A pair that winds down: what `Program.Winds` asks, of one pair. -/
structure Runner.Winds (R : Runner T) (exit : T → Option Exit) (signals : Bool)
    (left : Member → T → Nat) : Prop where
  exit_step : ∀ {who term me peer me' peer'}, R.step who term me peer = some (me', peer') →
    exit me = none ∧ ∀ e, exit peer = some e → exit peer' = some e
  exit_interrupt : ∀ {who term me me'}, R.interrupt who term me = some me' → exit me = none
  step_lt : ∀ {who me peer me' peer'}, R.step who true me peer = some (me', peer') →
    left who me' + left who.other peer' < left who me + left who.other peer
  interrupt_lt : ∀ {who me me'}, signals = true → R.interrupt who true me = some me' →
    left who me' < left who me
  goesOn : ∀ {s who}, R.run.Reachable s → s.term = true → exit (s.thread who) = none →
    ∃ who', (R.step who' true (s.thread who') (s.thread who'.other)).isSome = true

/-- The steps a pair may take, with signals or without. -/
def PairAction.Ok (signals : Bool) (a : PairAction n) : Prop := signals = true ∨ a.noSignal

variable {signals : Bool} {left : Member → T → Nat}

/-- How far the threads of a pair are from their end. -/
def pairLeft (left : Member → T → Nat) (p : T × T) : Nat := left .first p.1 + left .second p.2

/-- It is the sum for the two, whichever is named first. -/
theorem pairLeft_set (left : Member → T → Nat) (s : Threads T) (who : Member) (me peer : T) :
    pairLeft left ((s.set who me peer).first, (s.set who me peer).second) =
      left who me + left who.other peer := by
  cases who with
  | first => rfl
  | second => exact Nat.add_comm _ _

theorem pairLeft_threadsOf (left : Member → T → Nat) (p : T × T) (term : Bool) (who : Member) :
    pairLeft left p =
      left who ((threadsOf p term).thread who) +
        left who.other ((threadsOf p term).thread who.other) := by
  cases who with
  | first => rfl
  | second => exact Nat.add_comm _ _

/-- After `term` each action of a pair brings it nearer to its end. -/
theorem Runner.Winds.pair_lt (h : R.Winds exit signals left) {a : PairAction n} (hok : a.Ok signals)
    {p : T × T} {t : Threads T} (hact : R.act a.action (threadsOf p true) = some t) :
    pairLeft left (t.first, t.second) < pairLeft left p := by
  cases a with
  | step k who =>
    obtain ⟨⟨me, peer⟩, hstep, rfl⟩ := Option.map_eq_some_iff.mp hact
    rw [pairLeft_set, pairLeft_threadsOf left p true who]
    exact h.step_lt hstep
  | interrupt k who =>
    obtain ⟨me, hint, rfl⟩ := Option.map_eq_some_iff.mp hact
    rw [pairLeft_set, pairLeft_threadsOf left p true who]
    have hsignals : signals = true := hok.resolve_right id
    exact Nat.add_lt_add_right (h.interrupt_lt hsignals hint) _

/-- Neither a thread nor its peer comes back from its end. -/
theorem Runner.Winds.pair_keeps (h : R.Winds exit signals left) {a : PairAction n} {s t : Threads T}
    (hact : R.act a.action s = some t) {who : Member} {e : Exit}
    (he : exit (s.thread who) = some e) :
    exit (t.thread who) = some e := by
  have hset : ∀ (who' : Member) (me peer : T), exit (s.thread who') = none →
      (∀ e, exit (s.thread who'.other) = some e → exit peer = some e) →
      exit ((s.set who' me peer).thread who) = some e := by
    intro who' me peer hme hpeer
    cases who <;> cases who'
    · rw [show exit (s.thread .first) = none from hme] at he
      cases he
    · exact hpeer e he
    · exact hpeer e he
    · rw [show exit (s.thread .second) = none from hme] at he
      cases he
  cases a with
  | step k who' =>
    obtain ⟨⟨me, peer⟩, hstep, rfl⟩ := Option.map_eq_some_iff.mp hact
    obtain ⟨hme, hpeer⟩ := h.exit_step hstep
    exact hset who' me peer hme hpeer
  | interrupt k who' =>
    obtain ⟨me, hint, rfl⟩ := Option.map_eq_some_iff.mp hact
    exact hset who' me _ (h.exit_interrupt hint) fun _ => id

theorem thread_threadsOf (p : T × T) (term term' : Bool) (who : Member) :
    (threadsOf p term).thread who = (threadsOf p term').thread who := by
  cases who <;> rfl

/-- Pairs that wind down do so together. -/
theorem Runner.Winds.program (h : R.Winds exit signals left) :
    (R.pairs exit n).Winds (PairAction.Ok signals) fun m => ∑ k, pairLeft left (m k) where
  keeps := by
    rintro a term m m' ⟨k, who⟩ e hact he
    obtain ⟨t, ht, rfl⟩ := Option.map_eq_some_iff.mp hact
    show exit ((threadsOf (Function.update m a.pair _ k) false).thread who) = some e
    by_cases hk : k = a.pair
    · obtain rfl := hk
      rw [Function.update_self]
      have he' : exit ((threadsOf (m a.pair) term).thread who) = some e :=
        thread_threadsOf _ false term who ▸ he
      have := h.pair_keeps ht he'
      cases who <;> exact this
    · rw [Function.update_of_ne hk]
      exact he
  left_lt := by
    intro a m m' hok hact
    obtain ⟨t, ht, rfl⟩ := Option.map_eq_some_iff.mp hact
    exact Family.sum_update_lt (w := fun _ => pairLeft left) (h.pair_lt hok ht)
  goesOn := by
    rintro m ⟨k, who⟩ hm - hnone
    have hnone' : exit ((threadsOf (m k) true).thread who) = none :=
      thread_threadsOf _ false true who ▸ hnone
    obtain ⟨who', hstep⟩ := h.goesOn (Runner.pair_reachable hm k) rfl hnone'
    refine ⟨.step k who', Or.inr trivial, ?_⟩
    show ((Option.map _ (R.step who' true _ _)).map _).isSome = true
    rw [Option.isSome_map, Option.isSome_map]
    exact hstep

end Pair

/-! ## The total -/

/-- Threads that have all been joined without a panic. -/
theorem joined_sum {R : Runner T} {exit : T → Option Exit} {count : T → Nat}
    (hcount : ∀ t e, exit t = some e → e = .returned (count t))
    {s : RunState (Fin n × Member) (Fin n → T × T)}
    (hended : Main.Ended s.main) (h : (R.pairs exit n).Joined s.threads s.main) :
    s.main = .returned (∑ k, (count (s.threads k).1 + count (s.threads k).2)) ∧
      ∀ k, (exit (s.threads k).1).isSome = true ∧ (exit (s.threads k).2).isSome = true := by
  cases hm : s.main with
  | spawning rest =>
    rw [hm] at hended
    exact hended.elim
  | joining rest totalCount =>
    rw [hm] at hended
    exact hended.elim
  | unwinding rest =>
    rw [hm] at hended
    exact hended.elim
  | panicked =>
    rw [hm] at h
    obtain ⟨-, i, -, hpanic⟩ := h
    cases hcount _ _ hpanic
  | returned totalCount =>
    rw [hm] at h
    obtain ⟨counts, hexit, rfl⟩ := h
    have hsome : ∀ i, ((R.pairs exit n).exit i s.threads).isSome = true :=
      fun i => Program.isSome_of_counts hexit (mem_threadIds i)
    have hcounts : counts = (R.pairs exit n).threadIds.map
        fun i => count ((threadsOf (s.threads i.1) false).thread i.2) := by
      have hinj : Function.Injective fun c => some (Exit.returned c) :=
        fun a b hab => Exit.returned.inj (Option.some.inj hab)
      refine List.map_injective_iff.mpr hinj ?_
      rw [← hexit, List.map_map]
      refine List.map_congr_left fun i _ => ?_
      obtain ⟨e, he⟩ := Option.isSome_iff_exists.mp (hsome i)
      rw [he]
      exact congrArg some (hcount _ e he)
    refine ⟨?_, fun k => ⟨hsome (k, .first), hsome (k, .second)⟩⟩
    refine congrArg Main.returned ?_
    rw [hcounts]
    exact Family.sum_map_pairs _ _ fun i => count ((threadsOf (s.threads i.1) false).thread i.2)

/-! ## `run_socket` -/

namespace Socket

/-- How a thread has ended, if it has. -/
def exit (t : Thread) : Option Exit :=
  match t.pc with
  | .returned => some (.returned t.count)
  | _ => none

/-- The steps a thread has left once `term` is set. -/
def pcLeft : Member → Pc → Nat
  | _, .returned => 0
  | _, .cancelWrite => 1
  | _, .head => 2
  | .first, .read | .second, .write => 3
  | .first, .write | .second, .read => 4

/-- How far a thread is from its end. -/
def left (who : Member) (t : Thread) : Nat := pcLeft who t.pc

theorem exit_eq_none {t : Thread} : exit t = none ↔ t.pc ≠ .returned := by
  unfold exit
  split
  next h => simp [h]
  next h => exact ⟨fun _ => h, fun _ => rfl⟩

/-- What a step of a socket thread can be. -/
theorem step_cases {who : Member} {term : Bool} {me peer me' peer' : Thread}
    (h : step who term me peer = some (me', peer')) :
    (me.pc = .head ∧ me' = me.goto (if term then .cancelWrite else firstStatement who) ∧
      peer' = peer) ∨
    (me.pc = .write ∧ me' = afterWrite who me ∧ peer' = peer.receive me.buf) ∨
    (me.pc = .read ∧ (∃ b queue, me.queue = b :: queue ∧
      me' = afterRead who { me with buf := b, queue := queue }) ∧ peer' = peer) ∨
    (me.pc = .cancelWrite ∧ me' = me.goto .returned ∧ peer' = peer.receive me.buf) := by
  unfold step at h
  split at h
  next hpc =>
    cases h
    exact Or.inl ⟨hpc, rfl, rfl⟩
  next hpc =>
    cases h
    exact Or.inr (Or.inl ⟨hpc, rfl, rfl⟩)
  next hpc =>
    split at h
    next => cases h
    next b queue hqueue =>
      cases h
      exact Or.inr (Or.inr (Or.inl ⟨hpc, ⟨b, queue, hqueue, rfl⟩, rfl⟩))
  next hpc =>
    cases h
    exact Or.inr (Or.inr (Or.inr ⟨hpc, rfl, rfl⟩))
  next => cases h

/-- A signal counts only after `term`, and only in a `read`, which it ends. -/
theorem interrupt_cases {who : Member} {term : Bool} {me me' : Thread}
    (h : interrupt who term me = some me') :
    term = true ∧ me.pc = .read ∧ me' = afterRead who me := by
  unfold interrupt at h
  split at h
  next hread =>
    cases h
    exact ⟨hread.1, hread.2.1, rfl⟩
  next => cases h

/-- A `read` brings a thread nearer to its end. -/
theorem left_afterRead (who : Member) (t : Thread) :
    left who (afterRead who t) < pcLeft who .read := by
  cases who with
  | first => exact Nat.lt_succ_self 2
  | second => exact Nat.lt_succ_self 3

theorem left_afterWrite (who : Member) (t : Thread) :
    left who (afterWrite who t) < pcLeft who .write := by
  cases who with
  | first => exact Nat.lt_succ_self 3
  | second => exact Nat.lt_succ_self 2

/-- A thread that can do nothing waits for a byte. -/
theorem step_eq_none {who : Member} {term : Bool} {me peer : Thread}
    (h : step who term me peer = none) (hpc : me.pc ≠ .returned) : me.Blocked := by
  unfold step at h
  split at h
  next => cases h
  next => cases h
  next hread =>
    split at h
    next hqueue => exact ⟨hread, hqueue⟩
    next => cases h
  next => cases h
  next hreturned => exact absurd hreturned hpc

/-- **Each thread of a socket pair ends once `term` is set.** -/
theorem winds : runner.Winds exit true left where
  exit_step := by
    intro who term me peer me' peer' hstep
    obtain ⟨hpc, rfl, rfl⟩ | ⟨hpc, rfl, rfl⟩ | ⟨hpc, -, rfl⟩ | ⟨hpc, rfl, rfl⟩ := step_cases hstep
    · exact ⟨exit_eq_none.mpr (by rw [hpc]; exact Pc.noConfusion), fun _ => id⟩
    · exact ⟨exit_eq_none.mpr (by rw [hpc]; exact Pc.noConfusion), fun _ => id⟩
    · exact ⟨exit_eq_none.mpr (by rw [hpc]; exact Pc.noConfusion), fun _ => id⟩
    · exact ⟨exit_eq_none.mpr (by rw [hpc]; exact Pc.noConfusion), fun _ => id⟩
  exit_interrupt := by
    intro who term me me' hint
    obtain ⟨-, hpc, -⟩ := interrupt_cases hint
    exact exit_eq_none.mpr (by rw [hpc]; exact Pc.noConfusion)
  step_lt := by
    intro who me peer me' peer' hstep
    have hlt : left who me' < left who me ∧ left who.other peer' = left who.other peer := by
      unfold left at *
      obtain ⟨hpc, rfl, rfl⟩ | ⟨hpc, rfl, rfl⟩ | ⟨hpc, ⟨b, queue, -, rfl⟩, rfl⟩ | ⟨hpc, rfl, rfl⟩ :=
        step_cases hstep
      · rw [hpc]
        exact ⟨Nat.lt_succ_self 1, rfl⟩
      · rw [hpc]
        exact ⟨left_afterWrite who me, rfl⟩
      · rw [hpc]
        exact ⟨left_afterRead who _, rfl⟩
      · rw [hpc]
        exact ⟨Nat.zero_lt_succ 0, rfl⟩
    omega
  interrupt_lt := by
    intro who me me' _ hint
    obtain ⟨-, hpc, rfl⟩ := interrupt_cases hint
    show _ < pcLeft who me.pc
    rw [hpc]
    exact left_afterRead who me
  goesOn := by
    intro s who hs _ hnone
    have hpc := exit_eq_none.mp hnone
    by_cases hme : (step who true (s.thread who) (s.thread who.other)).isSome = true
    · exact ⟨who, hme⟩
    -- a thread that waits has a peer that does not
    · have hblocked := step_eq_none (Option.not_isSome_iff_eq_none.mp hme) hpc
      obtain ⟨hpeer, hreturned⟩ := (invariant.reachable hs who).peer_runs hblocked
      refine ⟨who.other, ?_⟩
      by_contra hnot
      exact hpeer (step_eq_none (Option.not_isSome_iff_eq_none.mp hnot) hreturned)

/-- What the count of a thread is going to be once `term` is set: it finishes its iteration. -/
def due (t : Thread) : Nat :=
  match t.pc with
  | .write | .read => t.count + 1
  | _ => t.count

/-- The byte that tells the counts apart: the second thread has sent and counted it, and the first
one has not had it. -/
structure Even (s : Threads Thread) : Prop where
  counts : s.term = false → s.second.count = s.first.count + s.first.queue.length
  final : s.term = true → due s.first ≤ due s.second + 1 ∧ due s.second ≤ due s.first + 1

section Even

variable {who : Member} {me peer me' peer' : Thread}

/-- Once `term` is set no step changes what a count is going to be. -/
theorem due_step (h : step who true me peer = some (me', peer')) :
    due me' = due me ∧ due peer' = due peer := by
  obtain ⟨hpc, rfl, rfl⟩ | ⟨hpc, rfl, rfl⟩ | ⟨hpc, ⟨b, queue, -, rfl⟩, rfl⟩ | ⟨hpc, rfl, rfl⟩ :=
    step_cases h
  · simp [due, hpc, Thread.goto]
  · cases who <;> simp [due, hpc, afterWrite, Thread.goto, Thread.counted, Thread.receive]
  · cases who <;> simp [due, hpc, afterRead, Thread.goto, Thread.counted]
  · simp [due, hpc, Thread.goto, Thread.receive]

/-- A signal does not change what the count is going to be. -/
theorem due_interrupt (h : interrupt who true me = some me') : due me' = due me := by
  obtain ⟨-, hpc, rfl⟩ := interrupt_cases h
  cases who <;> simp [due, hpc, afterRead, Thread.goto, Thread.counted]

/-- Before `term` is set the first thread counts when it has taken the byte from its queue. -/
theorem counts_first (h : peer.count = me.count + me.queue.length) (hnot : me.pc ≠ .cancelWrite)
    (hstep : step .first false me peer = some (me', peer')) : peer'.count =
      me'.count + me'.queue.length := by
  obtain ⟨hpc, rfl, rfl⟩ | ⟨hpc, rfl, rfl⟩ | ⟨hpc, ⟨b, queue, hqueue, rfl⟩, rfl⟩ |
    ⟨hpc, rfl, rfl⟩ := step_cases hstep
  · exact h
  · exact h
  · rw [h, hqueue]
    show me.count + (queue.length + 1) = me.count + 1 + queue.length
    omega
  · exact absurd hpc hnot

/-- The second one counts when it has put the byte there. -/
theorem counts_second (h : me.count = peer.count + peer.queue.length) (hnot : me.pc ≠ .cancelWrite)
    (hstep : step .second false me peer = some (me', peer')) : me'.count =
      peer'.count + peer'.queue.length := by
  obtain ⟨hpc, rfl, rfl⟩ | ⟨hpc, rfl, rfl⟩ | ⟨hpc, ⟨b, queue, hqueue, rfl⟩, rfl⟩ |
    ⟨hpc, rfl, rfl⟩ := step_cases hstep
  · exact h
  · show me.count + 1 = peer.count + (peer.queue ++ [me.buf]).length
    rw [h, List.length_append, List.length_singleton, Nat.add_assoc]
  · exact h
  · exact absurd hpc hnot

/-- The byte is in the first queue only while the first thread waits for it. -/
theorem even_terminate {s : Threads Thread} (hone : tokens .first s.first s.second = 1)
    (hnot : ∀ who, (s.thread who).pc.cancelled = false)
    (hcounts : s.second.count = s.first.count + s.first.queue.length) :
    due s.first ≤ due s.second + 1 ∧ due s.second ≤ due s.first + 1 := by
  have hfirst : s.first.pc.cancelled = false := hnot .first
  unfold tokens at hone
  unfold due
  cases hpc : s.first.pc <;> cases hpc' : s.second.pc <;>
    simp only [hpc, hpc', withThread, Member.other, Pc.cancelled, Bool.true_eq_false]
      at hone hfirst ⊢ <;>
    omega

end Even

/-- In each run the counts of a pair are as even as `Even` says. -/
theorem even {s : Threads Thread} (h : runner.run.Reachable s) : Even s := by
  refine h.invariant ?_ ?_
  · rintro s rfl
    exact ⟨fun _ => rfl, fun hterm => absurd hterm Bool.false_ne_true⟩
  · rintro s t hs heven ⟨a, hact⟩
    -- before `term` is set nobody has been cancelled
    have hnot : s.term = false → ∀ who, (s.thread who).pc.cancelled = false := by
      intro hterm who
      by_contra hcancelled
      have := (invariant.reachable hs who).handoff.mine.cancelled (Bool.not_eq_false _ ▸ hcancelled)
      rw [hterm] at this
      cases this
    have hwrite : s.term = false → ∀ who, (s.thread who).pc ≠ .cancelWrite := by
      intro hterm who hpc
      have := hnot hterm who
      rw [hpc] at this
      cases this
    cases a with
    | step who =>
      obtain ⟨⟨me, peer⟩, hstep, rfl⟩ := Option.map_eq_some_iff.mp hact
      replace hstep : step who s.term (s.thread who) (s.thread who.other) = some (me, peer) := hstep
      refine ⟨fun hterm => ?_, fun hterm => ?_⟩
      · rw [Threads.set_term] at hterm
        rw [hterm] at hstep
        cases who with
        | first => exact counts_first (heven.counts hterm) (hwrite hterm .first) hstep
        | second => exact counts_second (heven.counts hterm) (hwrite hterm .second) hstep
      · rw [Threads.set_term] at hterm
        rw [hterm] at hstep
        obtain ⟨hme, hpeer⟩ := due_step hstep
        have hfinal := heven.final hterm
        cases who with
        | first =>
          show due me ≤ due peer + 1 ∧ due peer ≤ due me + 1
          rw [hme, hpeer]
          exact hfinal
        | second =>
          show due peer ≤ due me + 1 ∧ due me ≤ due peer + 1
          rw [hme, hpeer]
          exact hfinal
    | interrupt who =>
      obtain ⟨me, hint, rfl⟩ := Option.map_eq_some_iff.mp hact
      replace hint : interrupt who s.term (s.thread who) = some me := hint
      have hterm := (interrupt_cases hint).1
      rw [hterm] at hint
      have hme := due_interrupt hint
      have hfinal := heven.final hterm
      refine ⟨fun hfalse => ?_, fun _ => ?_⟩
      · rw [Threads.set_term, hterm] at hfalse
        cases hfalse
      · cases who with
        | first =>
          show due me ≤ due s.second + 1 ∧ due s.second ≤ due me + 1
          rw [hme]
          exact hfinal
        | second =>
          show due s.first ≤ due me + 1 ∧ due me ≤ due s.first + 1
          rw [hme]
          exact hfinal
    | terminate =>
      simp only [Runner.act] at hact
      split at hact
      next => cases hact
      next hopen =>
        obtain rfl := Option.some.inj hact
        have hterm : s.term = false := by simpa using hopen
        have hone := (invariant.reachable hs .first).one hterm
        exact ⟨fun hfalse => absurd hfalse.symm Bool.false_ne_true, fun _ =>
          even_terminate hone (hnot hterm) (heven.counts hterm)⟩

/-- A thread that has ended has returned its count. -/
theorem exit_count (t : Thread) (e : Exit) (h : exit t = some e) : e = .returned t.count := by
  unfold exit at h
  split at h
  next =>
    cases h
    rfl
  next => cases h

theorem returned_of_exit {t : Thread} (h : (exit t).isSome = true) : t.pc = .returned := by
  by_contra hpc
  rw [exit_eq_none.mpr hpc] at h
  cases h

end Socket

/-- `n` pairs of `run_socket`, of which the threads of the pair `k` have the two ends of its socket.
-/
def Socket.program (n : Nat) :
    Program (Fin n × Member) (PairAction n) (Fin n → Socket.Thread × Socket.Thread) :=
  Socket.runner.pairs Socket.exit n

/-- All threads have been joined, and counted as their peers did. -/
def Socket.Returned (s : RunState (Fin n × Member) (Fin n → Thread × Thread)) : Prop :=
  s.main = .returned (∑ k, ((s.threads k).1.count + (s.threads k).2.count)) ∧
    ∀ k, ((s.threads k).1.pc = .returned ∧ (s.threads k).2.pc = .returned) ∧
      (s.threads k).1.count ≤ (s.threads k).2.count + 1 ∧
      (s.threads k).2.count ≤ (s.threads k).1.count + 1

/-- After `term` every run of `run_socket` comes to its end. -/
theorem Socket.program_ends (n : Nat) :
    System.EveryRunEnds ((Socket.program n).afterTerm (PairAction.Ok true)) Returned := by
  refine Socket.winds.program.everyRunEnds fun s hs hended hjoined => ?_
  obtain ⟨hmain, hexits⟩ := joined_sum Socket.exit_count hended hjoined
  refine ⟨hmain, fun k => ?_⟩
  have hfirst := Socket.returned_of_exit (hexits k).1
  have hsecond := Socket.returned_of_exit (hexits k).2
  have hreach := Runner.pair_reachable (Program.refines.reachable hs) k
  -- a thread does not return before `term` is set
  have hterm : s.term = true :=
      (Socket.invariant.reachable hreach .first).handoff.mine.cancelled (by
    show (s.threads k).1.pc.cancelled = true
    rw [hfirst]
    rfl)
  have hfinal : Socket.due (s.threads k).1 ≤ Socket.due (s.threads k).2 + 1 ∧
      Socket.due (s.threads k).2 ≤ Socket.due (s.threads k).1 + 1 :=
        (Socket.even hreach).final hterm
  refine ⟨⟨hfirst, hsecond⟩, ?_⟩
  have hdue : ∀ t : Socket.Thread, t.pc = .returned → Socket.due t = t.count := by
    intro t hpc
    unfold Socket.due
    rw [hpc]
  rw [hdue _ hfirst, hdue _ hsecond] at hfinal
  exact hfinal

/-- **`run_socket(num_pairs, term)` ends after the signal**, if it does not panic for the number of
its threads: wherever the signal finds them and however often signals interrupt them. It returns the
sum of all counts, and of no pair do the counts differ by more than one. The pairs are those of its
runners, of which there are all below the overflow. -/
theorem run_socket_ends {overflowChecks : Bool} {numPairs : UInt16}
    {runners : List Pairs.SocketRunner}
    (h : Pairs.runSocket overflowChecks numPairs = some runners) :
    (numPairs.toNat < 2 ^ 15 → runners.length = 2 * numPairs.toNat) ∧
    Pairs.AllPairs (runners.length / 2) (fun a b => a.socket.Peers b.socket)
      (fun a b => a.socket.Apart b.socket) Pairs.SocketRunner.isFirstInPair runners ∧
    System.EveryRunEnds ((Socket.program (runners.length / 2)).afterTerm (PairAction.Ok true))
      Socket.Returned :=
  ⟨(Pairs.runSocket_allPairs h).1, (Pairs.runSocket_allPairs h).2, Socket.program_ends _⟩

/-- One pair: it ends, with both its threads. -/
theorem run_socket_ends_one :
    Pairs.runSocket true 1 = some [⟨⟨0, .first⟩, true⟩, ⟨⟨0, .second⟩, false⟩] ∧
    System.EveryRunEnds ((Socket.program 1).afterTerm (PairAction.Ok true)) Socket.Returned := by
  have hrun : Pairs.runSocket true 1 = some [⟨⟨0, .first⟩, true⟩, ⟨⟨0, .second⟩, false⟩] := rfl
  exact ⟨hrun, (run_socket_ends hrun).2.2⟩

/-! ## `run_futex` -/

namespace Futex

/-- How a thread has ended, if it has. -/
def exit (t : Thread) : Option Exit :=
  match t.pc with
  | .returned => some (.returned t.count)
  | _ => none

/-- The steps a thread has left once `term` is set, if no signal sends it back into its wait. -/
def pcLeft : Member → Pc → Nat
  | _, .returned => 0
  | _, .cancelWake2 => 1
  | _, .cancelStore2 => 2
  | _, .cancelWake1 => 3
  | _, .cancelStore1 => 4
  | _, .head => 5
  | .first, .reset | .second, .wake => 6
  | .first, .blocked | .second, .store => 7
  | .first, .wait | .second, .reset => 8
  | .first, .wake | .second, .blocked => 9
  | .first, .store | .second, .wait => 10

/-- How far a thread is from its end. -/
def left (who : Member) (t : Thread) : Nat := pcLeft who t.pc

theorem exit_eq_none {t : Thread} : exit t = none ↔ t.pc ≠ .returned := by
  unfold exit
  split
  next h => simp [h]
  next h => exact ⟨fun _ => h, fun _ => rfl⟩

/-- A step leaves the peer as it is, stores in its futex, or wakes it. -/
theorem step_peer {who : Member} {term : Bool} {me peer me' peer' : Thread}
    (h : step who term me peer = some (me', peer')) :
    me.pc ≠ .returned ∧ (peer' = peer ∨ peer' = peer.value 1 ∨ peer' = peer.woken) := by
  unfold step at h
  split at h <;> cases who <;> simp_all

/-- A thread that is woken is as far from its end as it was, or nearer. -/
theorem left_woken (who : Member) (t : Thread) : left who t.woken ≤ left who t := by
  unfold Thread.woken
  split
  next hblocked =>
    unfold left
    rw [hblocked]
    cases who with
    | first => exact Nat.le_succ 6
    | second => exact Nat.le_succ 8
  next => exact Nat.le_refl _

/-- A step brings the thread itself nearer to its end. -/
theorem left_step {who : Member} {me peer me' peer' : Thread}
    (h : step who true me peer = some (me', peer')) :
    left who me' < left who me := by
  unfold step at h
  unfold left
  split at h
  next hpc =>
    cases h
    rw [hpc]
    exact Nat.lt_succ_self 4
  next hpc =>
    cases h
    rw [hpc]
    cases who <;> exact Nat.lt_succ_self _
  next hpc =>
    cases who <;>
    · cases h
      rw [hpc]
      exact Nat.lt_succ_self _
  next hpc =>
    cases h
    rw [hpc]
    split
    next => cases who <;> exact Nat.lt_succ_self _
    next =>
      cases who with
      | first => exact Nat.lt_add_of_pos_right (k := 2) Nat.two_pos
      | second => exact Nat.lt_add_of_pos_right (k := 2) Nat.two_pos
  next => cases h
  next hpc =>
    cases who <;>
    · cases h
      rw [hpc]
      exact Nat.lt_succ_self _
  next hpc =>
    cases who <;>
    · cases h
      rw [hpc]
      exact Nat.lt_succ_self 3
  next hpc =>
    cases who <;>
    · cases h
      rw [hpc]
      exact Nat.lt_succ_self 2
  next hpc =>
    cases who <;>
    · cases h
      rw [hpc]
      exact Nat.lt_succ_self 1
  next hpc =>
    cases who <;>
    · cases h
      rw [hpc]
      exact Nat.lt_succ_self 0
  next => cases h

/-- Only a thread in `FUTEX_WAIT` can do nothing. -/
theorem step_eq_none {who : Member} {term : Bool} {me peer : Thread}
    (h : step who term me peer = none) (hpc : me.pc ≠ .returned) : me.pc = .blocked := by
  unfold step at h
  split at h
  all_goals first | assumption | contradiction

/-- **Each thread of a futex pair ends once `term` is set.** -/
theorem winds : runner.Winds exit false left where
  exit_step := by
    intro who term me peer me' peer' hstep
    obtain ⟨hpc, hpeer⟩ := step_peer hstep
    refine ⟨exit_eq_none.mpr hpc, fun e he => ?_⟩
    rcases hpeer with rfl | rfl | rfl
    · exact he
    · exact he
    · unfold Thread.woken
      split
      next hblocked =>
        rw [exit_eq_none.mpr (by rw [hblocked]; exact Pc.noConfusion)] at he
        cases he
      next => exact he
  exit_interrupt := by
    intro who term me me' hint
    unfold runner interrupt at hint
    dsimp only at hint
    split at hint
    next hblocked => exact exit_eq_none.mpr (by rw [hblocked]; exact Pc.noConfusion)
    next => cases hint
  step_lt := by
    intro who me peer me' peer' hstep
    refine Nat.add_lt_add_of_lt_of_le (left_step hstep) ?_
    rcases (step_peer hstep).2 with rfl | rfl | rfl
    · exact Nat.le_refl _
    · exact Nat.le_refl _
    · exact left_woken _ _
  interrupt_lt h _ := nomatch h
  goesOn := by
    intro s who hs _ hnone
    have hpc := exit_eq_none.mp hnone
    by_cases hme : (step who true (s.thread who) (s.thread who.other)).isSome = true
    · exact ⟨who, hme⟩
    -- no wake-up is lost: the peer of a thread that waits does not
    · have hblocked := step_eq_none (Option.not_isSome_iff_eq_none.mp hme) hpc
      obtain ⟨hpeer, hreturned⟩ := (invariant.reachable hs who).peer_runs hblocked
      refine ⟨who.other, ?_⟩
      by_contra hnot
      exact hpeer (step_eq_none (Option.not_isSome_iff_eq_none.mp hnot) hreturned)

/-- A thread that has ended has returned its count. -/
theorem exit_count (t : Thread) (e : Exit) (h : exit t = some e) : e = .returned t.count := by
  unfold exit at h
  split at h
  next =>
    cases h
    rfl
  next => cases h

theorem returned_of_exit {t : Thread} (h : (exit t).isSome = true) : t.pc = .returned := by
  by_contra hpc
  rw [exit_eq_none.mpr hpc] at h
  cases h

end Futex

/-- `n` pairs of `run_futex`, of which the threads of the pair `k` have its two futexes. -/
def Futex.program (n : Nat) :
    Program (Fin n × Member) (PairAction n) (Fin n → Futex.Thread × Futex.Thread) :=
  Futex.runner.pairs Futex.exit n

/-- All threads have been joined. -/
def Futex.Returned (s : RunState (Fin n × Member) (Fin n → Thread × Thread)) : Prop :=
  s.main = .returned (∑ k, ((s.threads k).1.count + (s.threads k).2.count)) ∧
    ∀ k, (s.threads k).1.pc = .returned ∧ (s.threads k).2.pc = .returned

/-- After `term` every run of `run_futex` comes to its end. -/
theorem Futex.program_ends (n : Nat) :
    System.EveryRunEnds ((Futex.program n).afterTerm (PairAction.Ok false)) Returned := by
  refine Futex.winds.program.everyRunEnds fun s _ hended hjoined => ?_
  obtain ⟨hmain, hexits⟩ := joined_sum Futex.exit_count hended hjoined
  exact ⟨hmain, fun k => ⟨Futex.returned_of_exit (hexits k).1, Futex.returned_of_exit (hexits k).2⟩⟩

/-- **`run_futex(num_pairs, term)` ends after the signal**, if it does not panic for the number of
its threads: wherever the signal finds them, as soon as no further signal sends a thread back into
its wait. It returns the sum of all counts. The pairs are those of its runners, of which there are
all below the overflow. -/
theorem run_futex_ends {overflowChecks : Bool} {numPairs : UInt16}
    {runners : List Pairs.FutexRunner}
    (h : Pairs.runFutex overflowChecks numPairs = some runners) :
    (numPairs.toNat < 2 ^ 15 → runners.length = 2 * numPairs.toNat) ∧
    Pairs.AllPairs (runners.length / 2) Pairs.FutexRunner.Peers Pairs.FutexRunner.Apart
      Pairs.FutexRunner.isFirstInPair runners ∧
    System.EveryRunEnds ((Futex.program (runners.length / 2)).afterTerm (PairAction.Ok false))
      Futex.Returned :=
  ⟨(Pairs.runFutex_allPairs h).1, (Pairs.runFutex_allPairs h).2, Futex.program_ends _⟩

/-- One pair: it ends, with both its threads. -/
theorem run_futex_ends_one :
    Pairs.runFutex true 1 = some [⟨0, 1, true⟩, ⟨0, 1, false⟩] ∧
    System.EveryRunEnds ((Futex.program 1).afterTerm (PairAction.Ok false)) Futex.Returned := by
  have hrun : Pairs.runFutex true 1 = some [⟨0, 1, true⟩, ⟨0, 1, false⟩] := rfl
  exact ⟨hrun, (run_futex_ends hrun).2.2⟩

end ShouldIAsync.Csgb
