import MTFind2.Proof.Shutdown

/-!
# Under every fair schedule the program ends

While the proxy runs, its workers go round their loops for ever, so the end depends on the
schedule. It is enough that the main thread and the mock thread are not starved, and that
somebody moves as long as somebody can.

* `control_step`: after a `SIGINT` no step sets the main thread and the mock thread back, and
  their own steps bring them on.
* `fair_return`: so in every such schedule in which a `SIGINT` arrives, `main` returns.
-/

namespace MTFind2

open Run SearchProxy

namespace Process

variable {env : Environment} {s s' : Process} {a : Action} {as : List Action}
variable {run : ℕ → Process} {act : ℕ → Option Action} {i j : ℕ}

/-- The others leave the main thread and the mock thread where they are. -/
theorem control_same (ha : isControl a = false) (hs : s.step env a = some s') :
    s'.mainThread = s.mainThread ∧ s'.mockThread = s.mockThread := by
  cases step_cases hs with
  | interrupt | hand | done | worker | caller | thread => exact ⟨rfl, rfl⟩
  | addThrow | addCheck | spawnMock | addPush | start | joinMock => simp [isControl] at ha
  | stopBegin | stopReturn | mockLoop | submit | roundDone | wake => simp [isControl] at ha

/-- **After a `SIGINT` the main thread and the mock thread only come closer to their end.** -/
theorem control_step (h : Interrupted env s) (hs : s.step env a = some s') :
    controlRank env s' + (if isControl a then 1 else 0) ≤ controlRank env s := by
  unfold controlRank
  cases ha : isControl a with
  | false =>
    obtain ⟨hmain, hmock⟩ := control_same ha hs
    simp [hmain, hmock]
  | true =>
    have hlt := quit_step h ha hs
    unfold controlRank at hlt
    rw [if_pos rfl]
    omega

/-- **A schedule in which nobody of the main thread and the mock thread is starved**, and in which
somebody moves as long as somebody can. -/
structure Fair (env : Environment) (run : ℕ → Process) (act : ℕ → Option Action) : Prop where
  main : WeaklyFair (step env) run act .main
  mock : WeaklyFair (step env) run act .mock
  others : ∀ i a, a ≠ .interrupt → (run i).step env a ≠ none →
    ∃ j b, i ≤ j ∧ b ≠ .interrupt ∧ act j = some b

/-- Where the main thread and the mock thread make no more steps, they stay. -/
theorem control_stays (h : Schedule (step env) run act)
    (hnever : ∀ k a, i ≤ k → act k = some a → isControl a = false) (hij : i ≤ j) :
    (run j).mainThread = (run i).mainThread ∧ (run j).mockThread = (run i).mockThread := by
  induction j, hij using Nat.le_induction with
  | base => exact ⟨rfl, rfl⟩
  | succ j hij ih =>
    cases ha : act j with
    | none => rwa [h.rest ha]
    | some a =>
      obtain ⟨hmain, hmock⟩ := control_same (hnever j a hij ha) (h.move ha)
      exact ⟨hmain.trans ih.1, hmock.trans ih.2⟩

/-- A thread that is not starved does not stay able to move without moving. -/
theorem not_starved (hfair : WeaklyFair (step env) run act a) (ha : isControl a = true)
    (hnever : ∀ k a, i ≤ k → act k = some a → isControl a = false) :
    ¬ ∀ k, i ≤ k → (run k).step env a ≠ none := by
  intro hable
  obtain ⟨k, hik, hk⟩ := hfair i
  rcases hk with hk | hk
  · have hcontrol := hnever k a hik hk
    rw [ha] at hcontrol
    cases hcontrol
  · exact hable k hik hk

/-- Once `stop()` has begun, `main` returns. -/
theorem fair_stop (henv : env.Tame) (h : Schedule (step env) run act) (hfair : Fair env run act)
    {M : ℕ} (hi : Stopping env M (run i)) : ∃ j, (run j).mainThread = .returned := by
  have hends : ∃ j, i ≤ j ∧ ∀ k a, j ≤ k → act k = some a → decide (a ≠ .interrupt) = false :=
    h.eventually_never (I := Stopping env M) (μ := stopRank env M)
      (fun hI hs => (stopping_step henv hI hs).1) (fun hI hs => (stopping_step henv hI hs).2) hi
  obtain ⟨j, hij, hnever⟩ := hends
  refine ⟨j, ?_⟩
  by_contra hret
  have hstopping := h.inv (I := Stopping env M) (fun hI hs => (stopping_step henv hI hs).1) hi hij
  obtain ⟨a, ha, hmove⟩ := live_moves hstopping.toLive hret
  obtain ⟨k, b, hjk, hb, hk⟩ := hfair.others j a ha hmove
  have hnot := hnever k b hjk hk
  simp [hb] at hnot

/-- **`main` returns under every fair schedule** in which a `SIGINT` arrives, on short texts and
with non-empty queries. -/
theorem fair_return (henv : env.Tame) (h : Schedule (step env) run act) (h0 : run 0 = init env)
    (hfair : Fair env run act) (hint : ∃ i, act i = some .interrupt) :
    ∃ i, (run i).mainThread = .returned := by
  obtain ⟨i, hi⟩ := hint
  have hlive : ∀ k, Live env (run k) := by
    intro k
    refine h.inv (i := 0) live_step ?_ (Nat.zero_le k)
    rw [h0]
    exact live_init
  have hquit : Interrupted env (run (i + 1)) := by
    refine ⟨hlive _, ?_⟩
    have hs := h.move hi
    generalize run (i + 1) = t at hs
    cases step_cases hs with
    | interrupt => rfl
  obtain ⟨j, -, hnever⟩ := h.eventually_never (I := Interrupted env) (q := isControl)
    (μ := controlRank env) interrupted_step control_step hquit
  have hstays : ∀ k, j ≤ k → (run k).mainThread = (run j).mainThread ∧
      (run k).mockThread = (run j).mockThread := fun k => control_stays h hnever
  by_cases hstop : (run j).mainThread = .joiningWorkers ∨ (run j).mainThread = .returned
  · exact fair_stop henv h hfair ⟨hlive j, hstop, rfl⟩
  · exfalso
    rw [not_or] at hstop
    by_cases hjoins : (run j).mainThread = .joining ∧ (run j).mockThread ≠ .ended
    · -- the mock thread is in its loop
      refine not_starved hfair.mock rfl hnever fun k hjk => ?_
      obtain ⟨hmain, hmock⟩ := hstays k hjk
      have hstarted := (hlive k).inv.main.mock
      rw [hmain, hjoins.1] at hstarted
      exact mock_moves (hlive k).inv hstarted (by rw [hmock]; exact hjoins.2)
    · -- the main thread waits for nobody
      refine not_starved hfair.main rfl hnever fun k hjk => ?_
      obtain ⟨hmain, hmock⟩ := hstays k hjk
      rw [← hmain] at hstop
      refine main_moves (hlive k).inv hstop.1 hstop.2 ?_
      intro hjoining
      rw [hmock]
      rw [hmain] at hjoining
      by_contra hended
      exact hjoins ⟨hjoining, hended⟩

/-- The sample run to its end, and rest after it. -/
def sampleForever (i : ℕ) : Process :=
  (exec (step sampleEnvironment) (init sampleEnvironment) (sampleExit.take i)).getD
    (init sampleEnvironment)

theorem sampleForever_exited (hi : sampleExit.length ≤ i) : sampleForever i = sampleExited := by
  rw [sampleForever, List.take_of_length_le hi, sampleExited_run]
  rfl

theorem sampleForever_fair : Fair sampleEnvironment sampleForever fun i => sampleExit[i]? := by
  have hrests : ∀ {a : Action}, a ≠ .interrupt → ∀ {k : ℕ}, sampleExit.length ≤ k →
      (sampleForever k).step sampleEnvironment a = none := by
    intro a ha k hk
    rw [sampleForever_exited hk]
    exact final_of_returned sampleExited_run (by decide +kernel) ha
  refine ⟨?_, ?_, ?_⟩
  · intro i
    exact ⟨max i sampleExit.length, le_max_left _ _, .inr (hrests (by simp) (le_max_right _ _))⟩
  · intro i
    exact ⟨max i sampleExit.length, le_max_left _ _, .inr (hrests (by simp) (le_max_right _ _))⟩
  · intro i a ha hmove
    by_cases hi : sampleExit.length ≤ i
    · exact absurd (hrests ha hi) hmove
    · have hlast : sampleExit[sampleExit.length - 1]? = some .main := by decide +kernel
      exact ⟨sampleExit.length - 1, .main, by omega, by simp, hlast⟩

theorem fair_return_sample : ∃ i, (sampleForever i).mainThread = .returned :=
  fair_return sampleEnvironment_tame (.of_exec sampleExited_run) rfl sampleForever_fair
    ⟨sampleCalls.length, by decide +kernel⟩

end Process

end MTFind2
