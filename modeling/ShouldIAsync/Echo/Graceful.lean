import ShouldIAsync.Echo.Runs

/-!
# Stopping on a closed `StopCh`

Clients and a server without a number of iterations, each with a `StopCh` that may be
closed at any time. Either side then leaves at the top of its loop, where the other
one has nothing on the way to it, and the other one takes the end of the stream for
the end of the conversation.

All but one case: a client that finds the channel closed before it has sent anything
(`LeftUnused`). Its handler is not in the loop yet, and to its first read the end of
the stream is an error.

That error is the first of the run, and it finishes the context of the errgroup, which
closes the connections of the other handlers. So what is said of one connection is said
of it as long as the group is live (`State.GroupLive`), and of the run as a whole: it is
graceful if and only if no connection is left unused.
-/

namespace ShouldIAsync.Echo

open ShouldIAsync.GoStd ShouldIAsync.Lib

/-- No number of iterations, and a channel on each side. -/
def stoppable : Config := ⟨⟨0, true⟩, ⟨0, true⟩⟩

theorem stoppable_graceful : stoppable.Graceful := ⟨rfl, fun _ => rfl⟩

/-- Some `StopCh` has been closed. -/
def State.Stopped {n : Nat} (s : State n) : Prop := s.clientStop = true ∨ s.serverStop = true

/-- What is asked of a connection: who has returned has returned nil, with nothing
queued for it. -/
structure Polite (l : Link) : Prop where
  client : ∀ err, l.client.pc = .returned err → err = none
  handler : ∀ err, l.handler.pc = .returned err → err = none
  clientQueue : l.client.isReturned = true → l.down.queue = []
  handlerQueue : l.handler.isReturned = true → l.up.queue = []

/-- The client has left without a trip. -/
def LeftUnused (l : Link) : Prop := l.client.isReturned = true ∧ l.client.count = none

/-- No handler has returned an error: the context of the errgroup has not finished. -/
def State.GroupLive {n : Nat} (s : State n) : Prop :=
  ∀ c err, (s.links c).handler.pc ≠ .returned (some err)

/-- The client is about to look at the stop conditions for the first time, and the
channel is closed. -/
def StopsAtFirst {n : Nat} (s : State n) (c : Fin n) : Prop :=
  s.clientStop = true ∧ (s.links c).client = .client (clientMessage c)

/-! ## The conversations -/

/-- A phase is polite unless the handler has failed. -/
theorem polite_link (m : Bytes) (ph : Phase) : Polite (ph.link m) ↔ ph ≠ .failed := by
  constructor
  · rintro h rfl
    have := h.handler (some .serverUnexpectedEof) (Eq.refl _)
    cases this
  · intro hne
    cases ph with
    | failed => exact absurd (Eq.refl _) hne
    | clientTurn i =>
      cases i <;> constructor <;> simp [Phase.link, waiting, Party.isReturned]
    | up i c rest =>
      cases i <;> constructor <;> simp [Phase.link, waiting, sent, Party.isReturned]
    | _ =>
      constructor <;> simp [Phase.link, waiting, sent, Party.handler, Party.isReturned]

/-- The phases in which the client has left without a trip. -/
theorem leftUnused_link (m : Bytes) (ph : Phase) :
    LeftUnused (ph.link m) ↔ ph = .refused ∨ ph = .failed := by
  cases ph <;> simp [Phase.link, LeftUnused, Party.isReturned, sent]

/-- Only a client that stops before its first trip leaves its connection unused. -/
theorem Phase.Step.refused {env : Env} {m : Bytes} {ph ph' : Phase}
    (h : Phase.Step stoppable env m ph ph') (hleft : ph' = .refused ∨ ph' = .failed) :
    (ph = .refused ∨ ph = .failed) ∨ (ph = .clientTurn 0 ∧ env.clientStop = true) := by
  cases h with
  | refuse hstop =>
    refine Or.inr ⟨Eq.refl _, ?_⟩
    by_contra hopen
    exact hstop ⟨Or.inl (Eq.refl _), by simpa using hopen⟩
  | fail => exact Or.inl (Or.inl (Eq.refl _))
  | _ => simp at hleft

/-! ## After the stop every run ends -/

/-- The weights of a run in which the clients stop, and of one in which the server does. -/
def stopWeights (clientStop : Bool) (m : Bytes) : Weights :=
  if clientStop then
    { head := fun _ => 1, read := fun _ => 3, turn := m.length + 3, up := m.length + 2, down := 1 }
  else
    { head := fun _ => m.length + 4, read := fun _ => 3, turn := 2, up := 1, down := m.length + 4 }

/-- After a stop each step of a link makes its weight smaller. -/
theorem stopWeights_fit (env : Env) (m : Bytes)
    (hstop : env.clientStop = true ∨ env.serverStop = true) :
    (stopWeights env.clientStop m).Fit stoppable env m := by
  unfold stopWeights
  cases hc : env.clientStop with
  | true =>
    rw [if_pos (Eq.refl _)]
    refine ⟨?_, ?_, ?_, ?_, ?_, ?_, ?_, ?_, ?_⟩
    · intro i hsend
      rw [hsend.2] at hc
      cases hc
    all_goals simp
  | false =>
    have hserver : env.serverStop = true := by simpa [hc] using hstop
    rw [if_neg Bool.false_ne_true]
    refine ⟨?_, ?_, ?_, ?_, ?_, ?_, ?_, ?_, ?_⟩
    · intro i _
      simp only
      omega
    · simp
    · simp
    · intro hopen
      rw [hserver] at hopen
      cases hopen
    · simp
    · intro i
      simp only
      omega
    all_goals simp

section Runs

variable {n : Nat} {s t : State n}

/-- The channels still open, and the weight of the conversations. -/
def stopWeight (s : State n) : Nat ×ₗ Nat :=
  toLex ((!s.clientStop).toNat + (!s.serverStop).toNat, runWeight (stopWeights s.clientStop) s)

/-- A step after a stop: still stopped, and lighter. -/
theorem stopped_step (h : (echo stoppable n).Reachable s) (hstop : s.Stopped)
    (hstep : (echo stoppable n).step s t) : t.Stopped ∧ stopWeight t < stopWeight s := by
  obtain ⟨ph, hph⟩ := follows_reachable stoppable_graceful h
  rw [stopWeight, stopWeight, Prod.Lex.toLex_lt_toLex]
  cases follows_step stoppable_graceful hph hstep with
  | move c ph' hmove hlinks hstops hnext =>
    refine ⟨by rw [State.Stopped, hstops.1, hstops.2]; exact hstop, Or.inr ⟨?_, ?_⟩⟩
    · rw [hstops.1, hstops.2]
    · rw [hstops.1]
      exact weight_move hph (stopWeights_fit s.env _ hstop) hmove hlinks
  | close hlinks hnext hstops hcfg =>
    rcases hstops with ⟨hs, ht, hsame⟩ | ⟨hs, ht, hsame⟩
    · exact ⟨Or.inl ht, Or.inl (by rw [hs, ht, hsame]; simp)⟩
    · exact ⟨Or.inr ht, Or.inl (by rw [hs, ht, hsame]; simp)⟩

/-- The runs that start where something has been stopped. -/
def afterStop (n : Nat) : System (State n) where
  init s := (echo stoppable n).Reachable s ∧ s.Stopped
  step := (echo stoppable n).step

theorem afterStop_reachable (h : (afterStop n).Reachable s) :
    (echo stoppable n).Reachable s ∧ s.Stopped := by
  refine h.invariant (P := fun s => (echo stoppable n).Reachable s ∧ s.Stopped) ?_ ?_
  · intro s hs
    exact hs
  · rintro s t - ⟨hs, hstop⟩ hstep
    exact ⟨.next hs hstep, (stopped_step hs hstop hstep).1⟩

/-- **No run goes on for ever after a stop.** -/
theorem no_run_after_stop {f : ℕ → State n} (h0 : f 0 = start n)
    (hrun : ∀ k, (echo stoppable n).step (f k) (f (k + 1))) (k : ℕ) : ¬ (f k).Stopped := by
  intro hstop
  have hreach := System.reachable_of_run (S := echo stoppable n) (f := f) h0 hrun
  refine System.no_infinite_run (S := afterStop n) (f := fun j =>
    f (k + j)) wellFounded_lt stopWeight
    ?_ ⟨hreach k, hstop⟩ fun j => hrun (k + j)
  intro s t hs hstep
  obtain ⟨hs, hstop⟩ := afterStop_reachable hs
  exact (stopped_step hs hstop hstep).2

end Runs

/-! ## The payoff -/

/-- While the group is live, nobody is impolite. -/
theorem polite_of_live {n : Nat} {s : State n} (h : (echo stoppable n).Reachable s)
    (hlive : s.GroupLive) (c : Fin n) : Polite (s.links c) := by
  obtain ⟨ph, hph⟩ := follows_reachable stoppable_graceful h
  have hlink := hph.link c
  rw [hlink, polite_link]
  intro hfailed
  refine hlive c .serverUnexpectedEof ?_
  rw [hlink, hfailed]
  exact Eq.refl _

/-- At the end a connection is polite exactly if it was used. -/
theorem polite_iff_of_stuck {n : Nat} {s : State n} (h : (echo stoppable n).Reachable s)
    (hstuck : (echo stoppable n).Stuck s) (c : Fin n) :
    (s.links c).client.isReturned = true ∧ (s.links c).handler.isReturned = true ∧
      (Polite (s.links c) ↔ ¬ LeftUnused (s.links c)) := by
  obtain ⟨ph, hph⟩ := follows_reachable stoppable_graceful h
  have hfinal := stuck_final hph hstuck c
  rw [hph.link c, leftUnused_link, polite_link]
  cases hp : ph c with
  | overClient i => simp [Phase.link, Party.isReturned]
  | failed => simp [Phase.link, Party.isReturned]
  | overServer i => simp [Phase.link, Party.isReturned]
  | _ =>
    rw [hp] at hfinal
    exact hfinal.elim

/-- **Stopping is graceful, but for a client stopped before its first message.** Of every
connection, in every reachable state: what has returned has returned nil with nothing
queued for it, unless the client left without a trip, which it only does if it finds the
channel closed when it first looks. Every run in which a channel is closed ends with
everybody returned, and then politely exactly on the connections that were used.

Of the run: as long as no handler has failed it is polite, and at its end it has been if and
only if all connections were used. -/
theorem graceful_stop_iff (n : Nat) :
    (∀ s, (echo stoppable n).Reachable s →
      (s.GroupLive → ∀ c, Polite (s.links c)) ∧
      ((echo stoppable n).Stuck s →
        ((∀ c, Polite (s.links c)) ↔ ∀ c, ¬ LeftUnused (s.links c))) ∧
      ∀ c,
      (¬ LeftUnused (s.links c) → Polite (s.links c)) ∧
      ((echo stoppable n).Stuck s → (s.links c).client.isReturned = true ∧
        (s.links c).handler.isReturned = true ∧
        (Polite (s.links c) ↔ ¬ LeftUnused (s.links c))) ∧
      ∀ t, (echo stoppable n).step s t → LeftUnused (t.links c) →
        LeftUnused (s.links c) ∨ StopsAtFirst s c) ∧
    ∀ f : ℕ → State n, f 0 = start n → (∀ k, (echo stoppable n).step (f k) (f (k + 1))) →
      ∀ k, ¬ (f k).Stopped := by
  refine ⟨fun s hs => ⟨polite_of_live hs, fun hstuck => ?_, fun c => ?_⟩,
    fun f h0 hrun k => no_run_after_stop h0 hrun k⟩
  · exact forall_congr' fun c => (polite_iff_of_stuck hs hstuck c).2.2
  · obtain ⟨ph, hph⟩ := follows_reachable stoppable_graceful hs
    have hlink := hph.link c
    refine ⟨?_, fun hstuck => polite_iff_of_stuck hs hstuck c, ?_⟩
    · rw [hlink, leftUnused_link, polite_link]
      exact fun hused hfailed => hused (Or.inr hfailed)
    · intro t hstep hleft
      cases follows_step stoppable_graceful hph hstep with
      | close hlinks hnext hstops hcfg =>
        rw [hlinks] at hleft
        exact Or.inl hleft
      | move c' ph' hmove hlinks hstops hnext =>
        rw [hlinks] at hleft
        by_cases hc : c = c'
        · subst hc
          rw [Function.update_self, leftUnused_link] at hleft
          rcases hmove.refused hleft with hbefore | ⟨hturn, hstop⟩
          · left
            rw [hlink, leftUnused_link]
            exact hbefore
          · right
            refine ⟨hstop, ?_⟩
            rw [hlink, hturn]
            exact Eq.refl _
        · rw [Function.update_of_ne hc] at hleft
          exact Or.inl hleft

/-- One client: its channel is closed, it looks, it leaves, and its handler fails. -/
theorem graceful_stop_refused :
    ¬ ∀ s, (echo stoppable 1).Reachable s → ∀ c, Polite (s.links c) := by
  intro hall
  have hrun : System.runActions (act stoppable)
      [.close .client, .party 0 .client .advance, .party 0 .server .eof] (start 1) = some _ := rfl
  have hpolite := hall _ (System.reachable_of_runActions (.start rfl) hrun) 0
  have := hpolite.handler (some .serverUnexpectedEof) rfl
  cases this

end ShouldIAsync.Echo
