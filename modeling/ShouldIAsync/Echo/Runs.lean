import ShouldIAsync.Echo.PingPong
import ShouldIAsync.Lib.Family
import Mathlib.Algebra.Order.BigOperators.Group.Finset

/-!
# All connections together

In a run of the clients and the server every connection is in some phase of its
conversation (`Follows`), and a step is a move of one conversation, or a `StopCh` is
closed (`follows_step`). What is said of one conversation carries over: the weights of
the connections add up to a measure of the whole (`weight_step`), and a state in which
nothing can happen is one in which all conversations are over (`stuck_final`), since
the clients at the barrier hold up nobody but each other.
-/

namespace ShouldIAsync.Echo

open ShouldIAsync.GoStd ShouldIAsync.Lib

/-- Configurations in which stopping is graceful: the server has no number of
iterations, and stops clients only that have none either. -/
structure Config.Graceful (cfg : Config) : Prop where
  server : cfg.server.numIterations = 0
  client : cfg.server.stopCh = true → cfg.client.numIterations = 0

/-- Every connection is in its phase. -/
structure Follows (cfg : Config) {n : Nat} (s : State n) (ph : Fin n → Phase) : Prop where
  link : ∀ c, s.links c = (ph c).link (clientMessage c)
  valid : ∀ c, (ph c).Valid cfg (clientMessage c)
  clientStop : s.clientStop = true → cfg.client.stopCh = true
  serverStop : s.serverStop = true → cfg.server.stopCh = true

section Runs

variable {cfg : Config} {n : Nat} {s t : State n} {ph : Fin n → Phase}

/-- A graceful configuration is a mild one whatever stops. -/
theorem Follows.mild (hcfg : cfg.Graceful) (h : Follows cfg s ph) : cfg.Mild s.env :=
  ⟨hcfg.server, fun hstop => hcfg.client (h.serverStop hstop)⟩

/-- Each link starts with the turn of its client. -/
theorem follows_start : Follows cfg (start n) fun _ => .clientTurn 0 where
  link _ := by simp [start, Phase.link, Party.client, waiting, Party.handler]
  valid _ := trivial
  clientStop h := by cases h
  serverStop h := by cases h

/-- What one step is: a move of the conversation of `c`, or a channel closed. -/
inductive Follows.Next (cfg : Config) (s : State n) (ph : Fin n → Phase) (t : State n) : Prop
  | move (c : Fin n) (ph' : Phase) (hmove : Phase.Step cfg s.env (clientMessage c) (ph c) ph')
      (hlinks : t.links = Function.update s.links c (ph'.link (clientMessage c)))
      (hstops : t.clientStop = s.clientStop ∧ t.serverStop = s.serverStop)
      (hnext : Follows cfg t (Function.update ph c ph'))
  | close (hlinks : t.links = s.links) (hnext : Follows cfg t ph)
      (hstops : (s.clientStop = false ∧ t.clientStop = true ∧ t.serverStop = s.serverStop) ∨
        (s.serverStop = false ∧ t.serverStop = true ∧ t.clientStop = s.clientStop))
      (hcfg : cfg.client.stopCh = true ∨ cfg.server.stopCh = true)

/-- **One step of a run.** -/
theorem follows_step (hcfg : cfg.Graceful) (h : Follows cfg s ph) (hstep : (echo cfg n).step s t) :
    Follows.Next cfg s ph t := by
  obtain ⟨a, hact⟩ := hstep
  cases a with
  | party c side a =>
    obtain ⟨l, hl, rfl⟩ := Option.map_eq_some_iff.mp hact
    rw [h.link c] at hl
    obtain ⟨ph', hmove, rfl⟩ := link_step (h.mild hcfg) (isMessage_clientMessage c) (h.valid c) hl
    refine .move c ph' hmove (Eq.refl _) ⟨Eq.refl _, Eq.refl _⟩ ⟨?_, ?_, h.clientStop, h.serverStop⟩
    · intro c'
      by_cases hc : c' = c
      · subst hc
        simp
      · simp [hc, h.link c']
    · intro c'
      by_cases hc : c' = c
      · subst hc
        simpa using hmove.valid (h.mild hcfg)
      · simpa [hc] using h.valid c'
  | close side =>
    cases side with
    | client =>
      simp only [act] at hact
      split at hact
      next hclose =>
        obtain rfl := Option.some.inj hact
        exact .close (Eq.refl _) ⟨h.link, h.valid, fun _ => hclose.1, h.serverStop⟩
          (Or.inl ⟨hclose.2, Eq.refl _, Eq.refl _⟩) (Or.inl hclose.1)
      · cases hact
    | server =>
      simp only [act] at hact
      split at hact
      next hclose =>
        obtain rfl := Option.some.inj hact
        exact .close (Eq.refl _) ⟨h.link, h.valid, h.clientStop, fun _ => hclose.1⟩
          (Or.inr ⟨hclose.2, Eq.refl _, Eq.refl _⟩) (Or.inr hclose.1)
      · cases hact

/-- Every connection of every reachable state is in a phase of its conversation. -/
theorem follows_reachable (hcfg : cfg.Graceful) (h : (echo cfg n).Reachable s) :
    ∃ ph, Follows cfg s ph := by
  refine h.invariant (P := fun s => ∃ ph, Follows cfg s ph) ?_ ?_
  · rintro s rfl
    exact ⟨_, follows_start⟩
  · rintro s t - ⟨ph, hph⟩ hstep
    cases follows_step hcfg hph hstep with
    | move c ph' _ _ _ hnext => exact ⟨_, hnext⟩
    | close _ hnext => exact ⟨_, hnext⟩

/-! ## The end of a run -/

/-- A client that is through with its first trip, or has left, holds up nobody. -/
theorem arrived_or_open (m : Bytes) (ph : Phase) :
    (ph.link m).client.arrived = true ∨ (¬ ph.Final ∧ ¬ ph.AtBarrier) := by
  have hnot : ∀ {ph : Phase}, (ph.Final → False) → (ph.AtBarrier → False) →
      ¬ ph.Final ∧ ¬ ph.AtBarrier := fun h h' => ⟨h, h'⟩
  cases ph with
  | clientTurn i => exact Or.inr (hnot id id)
  | up i c rest => exact Or.inr (hnot id id)
  | serverTurn i => exact Or.inr (hnot id id)
  | down i c rest => exact Or.inr (hnot id id)
  | serverLeft i => exact Or.inr (hnot id id)
  | _ =>
    left
    simp [Phase.link, Party.arrived, Party.isReturned]

/-- **Where nothing can happen, all conversations are over.** -/
theorem stuck_final (h : Follows cfg s ph) (hstuck : (echo cfg n).Stuck s) (c : Fin n) :
    (ph c).Final := by
  have hnone : ∀ c side a, ((ph c).link (clientMessage c)).act cfg s.env side a = none := by
    intro c side a
    by_contra hsome
    obtain ⟨l, hl⟩ := Option.ne_none_iff_exists'.mp hsome
    refine hstuck { s with links := Function.update s.links c l } ⟨.party c side a, ?_⟩
    rw [act, h.link c, hl, Option.map_some]
  have hend := fun c : Fin n => link_progress (isMessage_clientMessage c) (h.valid c) (hnone c)
  -- so every client has arrived, and the barrier is open
  have hpass : s.env.pass = true := by
    rw [State.env, decide_eq_true_eq]
    intro c
    rw [h.link c]
    rcases arrived_or_open (clientMessage c) (ph c) with harrived | ⟨hnf, hnb⟩
    · exact harrived
    · rcases hend c with hf | ⟨hb, -⟩
      · exact absurd hf hnf
      · exact absurd hb hnb
  rcases hend c with hf | ⟨-, hclosed⟩
  · exact hf
  · rw [hpass] at hclosed
    cases hclosed

/-- The weight of a state, with weights for each message. -/
def runWeight (w : Bytes → Weights) (s : State n) : Nat :=
  ∑ c : Fin n, linkWeight (w (clientMessage c)) (s.links c)

/-- A move of one conversation lowers the weight of the whole. -/
theorem weight_move {w : Bytes → Weights} {c : Fin n} {ph' : Phase} (h : Follows cfg s ph)
    (hfit : (w (clientMessage c)).Fit cfg s.env (clientMessage c))
    (hmove : Phase.Step cfg s.env (clientMessage c) (ph c) ph')
    (hlinks : t.links = Function.update s.links c (ph'.link (clientMessage c))) :
    runWeight w t < runWeight w s := by
  have hlt := hmove.weight hfit
  unfold runWeight
  rw [hlinks]
  apply Family.sum_update_lt (w := fun (c : Fin n) l => linkWeight (w (clientMessage c)) l)
  rw [h.link c, linkWeight_link, linkWeight_link]
  exact hlt

end Runs

end ShouldIAsync.Echo
