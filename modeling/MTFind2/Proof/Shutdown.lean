import MTFind2.Proof.Exit

/-!
# The program can always come to its end

* `progress`: in every state of every run, until `main` has returned, some thread can
  move: a worker, a call or a thread of `find_in_source` never waits in vain.
* `shutdown_ends`: once `stop()` has cleared `m_keep_running`, all threads together make a
  bounded number of steps, after which `main` has returned.
* `can_return`: so from every state of every run one `SIGINT` is enough for `main` to return.
-/

namespace MTFind2

open Run SearchProxy

/-- What a worker has to do to leave its loop, once `m_keep_running` is cleared. -/
def WorkerPhase.rank {κ ρ : Type} : WorkerPhase κ ρ → ℕ
  | .drawing => 5
  | .taking _ => 4
  | .handing _ => 3
  | .querying _ => 2
  | .looping => 1
  | .exited => 0

/-- What the main thread has to do once `stop()` has begun. -/
def MainPhase.stopRank : MainPhase → ℕ
  | .joiningWorkers => 1
  | _ => 0

/-- What the main thread has to do, with `N` services. -/
def MainPhase.rank (N : ℕ) : MainPhase → ℕ
  | .adding k => 2 * (N - k) + 6
  | .pushing k => 2 * (N - k) + 5
  | .starting => 5
  | .joining => 4
  | .stopping => 3
  | .joiningWorkers => 2
  | .returned => 1

/-- What the mock thread has to do after a `SIGINT`. -/
def MockPhase.rank : MockPhase → ℕ
  | .notStarted | .sleeping => 2
  | .looping => 1
  | .submitting i => Process.searchRequestCount - i + 3
  | .ended => 0

namespace SearchProxy

variable {σ κ ρ : Type} {prog : Program κ ρ} {p p' : SearchProxy σ κ ρ} {w : ℕ}

/-- What worker `w` has to do. -/
def workerRank (p : SearchProxy σ κ ρ) (w : ℕ) : ℕ :=
  (p.threadPool[w]?.map fun x => x.phase.rank).getD 0

theorem workerRank_setPhase {x : Worker σ κ ρ}
    (hw : p.threadPool[w]? = some x) (phase : WorkerPhase κ ρ) (hrank : phase.rank < x.phase.rank) :
    (p.setPhase w x phase).workerRank w < p.workerRank w ∧
      ∀ v, v ≠ w → (p.setPhase w x phase).workerRank v = p.workerRank v := by
  obtain ⟨hlt, -⟩ := List.getElem?_eq_some_iff.1 hw
  constructor
  · have hset : (p.setPhase w x phase).threadPool[w]? = some { x with phase } := by
      simp [setPhase, hlt]
    unfold workerRank
    rw [hset, hw]
    exact hrank
  · intro v hv
    simp [workerRank, setPhase, Ne.symm hv]

/-- **A worker of a proxy that is being stopped** comes closer to the end of its loop, and the
others stay where they are. -/
theorem workerRank_step [DecidableEq σ] (hrun : p.keepRunning = false) {action : WorkerAction}
    (h : p.step prog (.worker w action) = some p') :
    p'.workerRank w < p.workerRank w ∧ ∀ v, v ≠ w → p'.workerRank v = p.workerRank v := by
  cases step_cases prog h with
  | loop _ x hw hx =>
    rw [hrun]
    exact workerRank_setPhase hw _ (by simp [hx, WorkerPhase.rank])
  | draw _ x q hw hx => exact workerRank_setPhase hw _ (by simp [hx, WorkerPhase.rank])
  | takeNone _ x key j hw hx hq => exact workerRank_setPhase hw _ (by simp [hx, WorkerPhase.rank])
  | take _ x key j task rest hw hx hpop =>
    exact workerRank_setPhase hw (.handing task) (by simp [hx, WorkerPhase.rank])
  | hand _ x task hw hx =>
    exact workerRank_setPhase hw (.querying task) (by simp [hx, WorkerPhase.rank])
  | done _ x task hw hx => exact workerRank_setPhase hw _ (by simp [hx, WorkerPhase.rank])

end SearchProxy

namespace Process

variable {env : Environment} {s s' : Process} {a : Action} {as : List Action} {n : ℕ}

/-- What the call for task `n` is made of. -/
def CallReady (env : Environment) (s : Process) (n : ℕ) : Prop :=
  Service.Ready n (env.request n) env.contentSources (s.callState env n)

theorem callReady_init : CallReady env (init env) n := Service.ready_init _

/-- What every state of a run is like, with its calls. -/
structure Live (env : Environment) (s : Process) : Prop extends Sound env s where
  ready : ∀ n, CallReady env s n

theorem live_init : Live env (init env) := ⟨sound_init, fun _ => callReady_init⟩

theorem live_step (h : Live env s) (hs : s.step env a = some s') : Live env s' := by
  refine ⟨sound_step h.toSound hs, fun n => ?_⟩
  obtain ⟨hkeep, hmove⟩ := callState_step h.inv h.apart hs n
  unfold CallReady
  cases hm : a.move n with
  | none =>
    rw [hkeep hm]
    exact h.ready n
  | some m =>
    have hcall := ofCall_move [a] n m (by simp [hm])
    exact (Service.ready_step (h.ready n) (hmove m hm) fun _ => hcall).1

theorem live_run (h : exec (step env) (init env) as = some s) : Live env s :=
  exec_inv live_step live_init h

/-! ## Somebody can move -/

/-- A thread that can move in the call by itself can move in the process. -/
theorem thread_progress (hA : Apart env s n) {call : QueryCall} (hc : s.calls n = some call)
    (htask : call.task = ⟨n, n, n⟩) {i : ℕ}
    (h : (s.callState env n).step (.thread i) ≠ none) : s.pool.step (n, i) ≠ none := by
  obtain ⟨t, ht⟩ := Option.ne_none_iff_exists'.1 h
  obtain ⟨pool, hpool, -⟩ := Option.map_eq_some_iff.1 ht
  obtain ⟨u, c, p, hu, hstep, -⟩ := System.step_cases hpool
  rw [callState_some hc] at hu hstep
  have hu' : s.pool.threads (n, i) = some u := hu
  have hclient := (hA.client_eq hu').1
  have hrename := u.job.step_rename Prod.snd (n, i) (s.pool.clients n) u.phase
  simp only [view, htask, hclient, Function.update_self] at hstep
  rw [hstep] at hrename
  obtain ⟨r, hr, -⟩ := Option.map_eq_some_iff.1 hrename.symm
  simp [System.step, hu', hclient, hr]

/-- **A call that has not returned can move**: nobody else holds its service, and the thread that
it joins has ended or can move. -/
theorem call_progress (h : Live env s) {call : QueryCall} (hc : s.calls n = some call)
    (hactive : call.phase ≠ .returned) : ∃ a m, a.move n = some m ∧ s.step env a ≠ none := by
  have habort := h.inv.aborted
  obtain ⟨w, hw⟩ := h.inv.calls.active n call hc hactive
  obtain ⟨hlt, hservice⟩ := h.inv.main.worker_eq hw
  have hlt' : call.service < s.searchServices.length := by
    rw [h.inv.main.services]
    have heq : call.service = w := hservice
    omega
  have hk := List.getElem?_eq_getElem hlt'
  set service := s.searchServices[call.service]
  have hlock := h.inv.locked_eq hc hactive hk
  have hcall : s.callState env n = _ := callState_some hc
  have hcalled : (s.callState env n).phase = .called → (s.callState env n).locked = false := by
    rw [hcall]
    intro hphase
    have hphase' : call.phase = .called := hphase
    simp [view, hphase', QueryPhase.holds]
  have hret : (s.callState env n).phase ≠ .returned := by
    rw [hcall]
    exact hactive
  obtain ⟨m, hm, hstep⟩ := Service.ready_progress (h.ready n) hcalled hret
  cases m with
  | addContentSource source => cases hm
  | caller =>
    refine ⟨.caller n, .caller, by simp [Action.move], ?_⟩
    rw [hcall] at hstep
    have hstep' : (s.view env n call service.contentSources service.locked).stepCaller ≠ none := by
      rw [h.inv.services.sources _ service hk, hlock]
      exact hstep
    simpa [step, habort, stepCaller, hc, hk] using hstep'
  | thread i =>
    refine ⟨.thread n i, .thread i, by simp [Action.move], ?_⟩
    have hpool := thread_progress (h.apart n) hc (h.inv.task_eq hc) hstep
    simpa [step, habort] using hpool

/-- **A worker that has not left its loop can move**, or the call that it is in can. -/
theorem worker_moves (h : Live env s) {w : ℕ} {x : Worker ℕ ℕ ℕ}
    (hw : s.searchProxy.threadPool[w]? = some x) (hx : x.hasExited = false) :
    ∃ a, a ≠ .interrupt ∧ s.step env a ≠ none := by
  have habort := h.inv.aborted
  obtain ⟨action, hsome⟩ : ∃ action,
      (s.searchProxy.step env.program (.worker w action)).isSome = true :=
    SearchProxy.worker_progress habort hw hx
  obtain ⟨p, hp⟩ := Option.isSome_iff_exists.1 hsome
  obtain ⟨service, phase⟩ := x
  have hstep : s.step env (.worker w action) = s.stepWorker env w action := by
    simp [step, habort]
  cases phase with
  | querying task =>
    have hhanded := h.inv.calls.querying w service task hw
    obtain ⟨call, hc, hservice, htask⟩ := h.inv.calls.called _ hhanded
    have hc' : s.calls task.ticket = some call := hc
    by_cases hret : call.phase = .returned
    · refine ⟨.worker w action, by simp, ?_⟩
      simp [hstep, stepWorker, hp, hw, hasReturned, hc', hret]
    · obtain ⟨a, m, hm, hmove⟩ := call_progress h hc' hret
      refine ⟨a, ?_, hmove⟩
      rintro rfl
      cases hm
  | handing task => exact ⟨.worker w action, by simp, by simp [hstep, stepWorker, hp, hw]⟩
  | looping | drawing | taking | exited =>
    exact ⟨.worker w action, by simp, by simp [hstep, stepWorker, hp, hw]⟩

/-- The mock thread can move while it is in its loop. -/
theorem mock_moves (h : Inv env s) (hm : s.mockThread ≠ .notStarted) (hm' : s.mockThread ≠ .ended) :
    s.step env .mock ≠ none := by
  have habort := h.aborted
  cases hmock : s.mockThread with
  | notStarted => exact absurd hmock hm
  | looping => simp [step, habort, stepMock, hmock]
  | submitting i =>
    by_cases hi : i < searchRequestCount
    · simp [step, habort, stepMock, hmock, hi, SearchProxy.step]
    · simp [step, habort, stepMock, hmock, hi]
  | sleeping => simp [step, habort, stepMock, hmock]
  | ended => exact absurd hmock hm'

/-- **Until the main thread joins the workers**, it can move, unless it waits for the mock thread.
-/
theorem main_moves (h : Inv env s) (hm : s.mainThread ≠ .joiningWorkers)
    (hret : s.mainThread ≠ .returned) (hended : s.mainThread = .joining → s.mockThread = .ended) :
    s.step env .main ≠ none := by
  have habort := h.aborted
  have hlife := h.main.lifecycle
  cases hmain : s.mainThread with
  | adding k =>
    by_cases hk : k < s.searchServices.length
    · by_cases hrun : s.searchProxy.keepRunning = true <;>
        simp [step, habort, stepMain, hmain, hk, SearchProxy.step, hrun]
    · simp [step, habort, stepMain, hmain, hk]
  | pushing k =>
    rw [hmain] at hlife
    obtain ⟨-, hs⟩ := hlife
    simp [step, habort, stepMain, hmain, SearchProxy.step, hs.adding, hs.stopping]
  | starting =>
    rw [hmain] at hlife
    have hs : s.searchProxy.Stands false false _ [] [] := hlife
    simp [step, habort, stepMain, hmain, SearchProxy.step, hs.stopping, workers_eq_nil.1 hs.workers]
  | joining => simp [step, habort, stepMain, hmain, hended hmain]
  | stopping =>
    rw [hmain] at hlife
    have hs : s.searchProxy.Stands true false _ [] _ := hlife
    simp [step, habort, stepMain, hmain, SearchProxy.step, hs.stopping]
  | joiningWorkers => exact absurd hmain hm
  | returned => exact absurd hmain hret

/-- If the main thread waits for the mock thread, that one can move. -/
theorem main_or_mock_moves (h : Inv env s) (hm : s.mainThread ≠ .joiningWorkers)
    (hret : s.mainThread ≠ .returned) : s.step env .main ≠ none ∨ s.step env .mock ≠ none := by
  by_cases hjoins : s.mainThread = .joining ∧ s.mockThread ≠ .ended
  · have hmock := h.main.mock
    rw [hjoins.1] at hmock
    exact .inr (mock_moves h hmock hjoins.2)
  · refine .inl (main_moves h hm hret fun hjoining => ?_)
    by_contra hended
    exact hjoins ⟨hjoining, hended⟩

/-- Until `main` has returned, somebody can move. -/
theorem live_moves (h : Live env s) (hret : s.mainThread ≠ .returned) :
    ∃ a, a ≠ .interrupt ∧ s.step env a ≠ none := by
  by_cases hm : s.mainThread = .joiningWorkers
  · have hlife := h.inv.main.lifecycle
    rw [hm] at hlife
    have hs : s.searchProxy.Stands false true _ [] _ := hlife
    by_cases hall : s.searchProxy.threadPool.all Worker.hasExited = true
    · refine ⟨.main, by simp, ?_⟩
      simp only [step, h.inv.aborted, stepMain, hm, SearchProxy.step, hs.stopping, hall]
      simp
    · -- a worker is still in its loop
      simp only [List.all_eq_true, not_forall] at hall
      obtain ⟨x, hx, hex⟩ := hall
      obtain ⟨w, hw⟩ := List.getElem?_of_mem hx
      exact worker_moves h hw (by simpa using hex)
  · rcases main_or_mock_moves h.inv hm hret with hstep | hstep
    · exact ⟨.main, by simp, hstep⟩
    · exact ⟨.mock, by simp, hstep⟩

/-- **The program has no deadlock**: in every state of every run, until `main` has returned, some
thread of the program can move. -/
theorem progress (h : exec (step env) (init env) as = some s) (hret : s.mainThread ≠ .returned) :
    ∃ a, a ≠ .interrupt ∧ s.step env a ≠ none :=
  live_moves (live_run h) hret

/-- The main thread waits for the worker. -/
def sampleStopping : Process :=
  (exec (step sampleEnvironment) (init sampleEnvironment) sampleStop).get (by decide +kernel)

theorem sampleStopping_run :
    exec (step sampleEnvironment) (init sampleEnvironment) sampleStop = some sampleStopping :=
  (Option.some_get _).symm

theorem progress_sample : ∃ a, a ≠ .interrupt ∧ sampleStopping.step sampleEnvironment a ≠ none :=
  progress sampleStopping_run (by decide +kernel)

/-! ## The end of a run -/

/-- **What is left to do once `stop()` has begun**, with `M` tasks submitted. -/
noncomputable def stopRank (env : Environment) (M : ℕ) (s : Process) : ℕ :=
  s.mainThread.stopRank + ∑ w ∈ Finset.range env.hardwareConcurrency, s.searchProxy.workerRank w +
    ∑ n ∈ Finset.range M, (s.callState env n).rank n (env.request n) env.contentSources

/-- `stop()` has cleared `m_keep_running`, and `M` tasks were submitted. -/
structure Stopping (env : Environment) (M : ℕ) (s : Process) : Prop extends Live env s where
  main : s.mainThread = .joiningWorkers ∨ s.mainThread = .returned
  length : s.searchProxy.submitted.length = M

/-- A step outside of the calls leaves them what they have to do. -/
theorem callRank_same (h : Live env s) (hs : s.step env a = some s') (ha : ∀ n, a.move n = none)
    (M : ℕ) : ∑ n ∈ Finset.range M, (s'.callState env n).rank n (env.request n) env.contentSources =
      ∑ n ∈ Finset.range M, (s.callState env n).rank n (env.request n) env.contentSources := by
  refine Finset.sum_congr rfl ?_
  intro n _
  rw [(callState_step h.inv h.apart hs n).1 (ha n)]

/-- **A step of a call leaves it less to do**, and the others what they have. -/
theorem callRank_move (henv : env.Tame) (h : Live env s) (hs : s.step env a = some s')
    {m : Move} (hm : a.move n = some m) (hother : ∀ k, k ≠ n → a.move k = none) {M : ℕ}
    (hn : n < M) :
    ∑ n ∈ Finset.range M, (s'.callState env n).rank n (env.request n) env.contentSources + 1 ≤
      ∑ n ∈ Finset.range M, (s.callState env n).rank n (env.request n) env.contentSources := by
  have hcall := ofCall_move [a] n m (by simp [hm])
  have hstep := (callState_step h.inv h.apart hs n).2 m hm
  have hrank := (Service.ready_step (h.ready n) hstep fun _ => hcall).2 (henv.limits n)
  rw [if_pos hcall] at hrank
  have hsum := sum_move (Finset.mem_range.2 hn)
    (f := fun n => (s.callState env n).rank n (env.request n) env.contentSources)
    (g := fun n => (s'.callState env n).rank n (env.request n) env.contentSources)
    fun k hk => by rw [(callState_step h.inv h.apart hs k).1 (hother k hk)]
  omega

/-- A step of a worker leaves it less to do. -/
theorem workers_move (hM : MainOK env s) (hrun : s.searchProxy.keepRunning = false)
    {p : SearchProxy ℕ ℕ ℕ} {w : ℕ} {x : Worker ℕ ℕ ℕ} {action : WorkerAction}
    (hw : s.searchProxy.threadPool[w]? = some x)
    (hp : s.searchProxy.step env.program (.worker w action) = some p) :
    ∑ w ∈ Finset.range env.hardwareConcurrency, p.workerRank w + 1 ≤
      ∑ w ∈ Finset.range env.hardwareConcurrency, s.searchProxy.workerRank w := by
  obtain ⟨hlt, hsame⟩ := SearchProxy.workerRank_step hrun hp
  have hsum := sum_move (Finset.mem_range.2 (hM.worker_eq hw).1) (f := s.searchProxy.workerRank)
    (g := p.workerRank) hsame
  omega

namespace Stopping

variable {M : ℕ}

theorem keepRunning (h : Stopping env M s) : s.searchProxy.keepRunning = false := by
  have hlife := h.inv.main.lifecycle
  rcases h.main with hm | hm <;> rw [hm] at hlife
  · exact Stands.keepRunning hlife
  · exact Stands.keepRunning hlife

theorem mock_ended (h : Stopping env M s) : s.mockThread = .ended := by
  have hmock := h.inv.main.mock
  rcases h.main with hm | hm <;> rw [hm] at hmock
  · exact hmock
  · exact hmock

/-- A step of a worker leaves less to do. -/
theorem worker_step (h : Stopping env M s) {w : ℕ} {x : Worker ℕ ℕ ℕ} {action : WorkerAction}
    (hs : s.step env (.worker w action) = some s')
    (hw : s.searchProxy.threadPool[w]? = some x)
    (hp : s.searchProxy.step env.program (.worker w action) = some s'.searchProxy)
    (hmain : s'.mainThread = s.mainThread) :
    Stopping env M s' ∧ stopRank env M s' + 1 ≤ stopRank env M s := by
  have hcalls := callRank_same h.toLive hs (fun _ => rfl) M
  have hworkers := workers_move h.inv.main h.keepRunning hw hp
  refine ⟨⟨live_step h.toLive hs, ?_, ?_⟩, ?_⟩
  · rw [hmain]
    exact h.main
  · rw [submitted_eq hp rfl]
    exact h.length
  · unfold stopRank
    rw [hmain]
    omega

/-- A step in a call leaves less to do. -/
theorem call_step (henv : env.Tame) (h : Stopping env M s) (hs : s.step env a = some s')
    {call : QueryCall} (hc : s.calls n = some call) {m : Move} (hm : a.move n = some m)
    (hother : ∀ k, k ≠ n → a.move k = none) (hproxy : s'.searchProxy = s.searchProxy)
    (hmain : s'.mainThread = s.mainThread) :
    Stopping env M s' ∧ stopRank env M s' + 1 ≤ stopRank env M s := by
  have hlt := h.inv.call_lt hc
  rw [h.length] at hlt
  have hcalls := callRank_move henv h.toLive hs hm hother hlt
  refine ⟨⟨live_step h.toLive hs, ?_, ?_⟩, ?_⟩
  · rw [hmain]
    exact h.main
  · rw [hproxy]
    exact h.length
  · unfold stopRank
    rw [hmain, hproxy]
    omega

end Stopping

/-- **Every step leaves less to do**, once `stop()` has begun. -/
theorem stopping_step (henv : env.Tame) {M : ℕ} (h : Stopping env M s)
    (hs : s.step env a = some s') :
    Stopping env M s' ∧
      stopRank env M s' + (if decide (a ≠ .interrupt) then 1 else 0) ≤ stopRank env M s := by
  have hlive := live_step h.toLive hs
  have hnot : ∀ m, s.mainThread = m → m ≠ .joiningWorkers → m ≠ .returned → False := by
    rintro m rfl hm hm'
    rcases h.main with h | h
    · exact hm h
    · exact hm' h
  cases step_cases hs with
  | interrupt => exact ⟨⟨hlive, h.main, h.length⟩, by simp; rfl⟩
  | addThrow k p hm => exact (hnot _ hm (by simp) (by simp)).elim
  | addCheck k p hm => exact (hnot _ hm (by simp) (by simp)).elim
  | spawnMock k hm => exact (hnot _ hm (by simp) (by simp)).elim
  | addPush k p hm => exact (hnot _ hm (by simp) (by simp)).elim
  | start p hm => exact (hnot _ hm (by simp) (by simp)).elim
  | joinMock hm => exact (hnot _ hm (by simp) (by simp)).elim
  | stopBegin p hm => exact (hnot _ hm (by simp) (by simp)).elim
  | stopReturn p hm hp =>
    have hcalls := callRank_same h.toLive hs (fun _ => rfl) M
    have hworkers : ∀ w ∈ Finset.range env.hardwareConcurrency, p.workerRank w = 0 := by
      intro w _
      cases SearchProxy.step_cases env.program hp with
      | stopReturn hstop hall => rfl
    refine ⟨⟨hlive, .inr rfl, by rw [submitted_eq hp rfl]; exact h.length⟩, ?_⟩
    unfold stopRank
    rw [Finset.sum_eq_zero hworkers, hm]
    simp only [ne_eq, reduceCtorEq, not_false_eq_true, decide_true, if_true, MainPhase.stopRank]
    omega
  | mockLoop hm | submit i p hm | roundDone i hm | wake hm =>
    rw [h.mock_ended] at hm
    cases hm
  | hand w service task action p hw hp => exact h.worker_step hs hw hp rfl
  | done w service task action p hw hret hp => exact h.worker_step hs hw hp rfl
  | worker w x action p hw hhand hquery hp => exact h.worker_step hs hw hp rfl
  | caller n call service t hc hk ht =>
    have hmove : (Action.caller n).move n = some .caller := if_pos rfl
    exact h.call_step henv hs hc hmove (fun k hk => by simp [Action.move, Ne.symm hk]) rfl rfl
  | thread n i pool hi =>
    obtain ⟨t, c, p, ht, -⟩ := System.step_cases hi
    obtain ⟨-, call, hc⟩ := (h.apart n).client_eq ht
    have hmove : (Action.thread n i).move n = some (.thread i) := if_pos rfl
    exact h.call_step henv hs hc hmove (fun k hk => by simp [Action.move, Ne.symm hk]) rfl rfl

/-- **`stop()` comes to its end**, on short texts and with non-empty queries. From a state in which
it has cleared `m_keep_running`, whatever the order of the steps,

* all threads together make a bounded number of steps;
* until `main` has returned, one of them can move. -/
theorem shutdown_ends (henv : env.Tame) (h : exec (step env) (init env) as = some s)
    (hmain : s.mainThread = .joiningWorkers) :
    ∃ N, ∀ bs t, exec (step env) s bs = some t →
      bs.countP (fun a => decide (a ≠ .interrupt)) ≤ N ∧
      (t.mainThread ≠ .returned → ∃ a, a ≠ .interrupt ∧ t.step env a ≠ none) := by
  have hstart : Stopping env s.searchProxy.submitted.length s := ⟨live_run h, .inl hmain, rfl⟩
  refine ⟨stopRank env s.searchProxy.submitted.length s, ?_⟩
  intro bs t ht
  have hbound := exec_countP_le (q := fun a => decide (a ≠ .interrupt))
    (fun h hs => (stopping_step henv h hs).1) (fun h hs => (stopping_step henv h hs).2)
    hstart ht
  exact ⟨by omega, fun hret => live_moves (exec_inv live_step (live_run h) ht) hret⟩

theorem shutdown_ends_sample :
    ∃ N, ∀ bs t, exec (step sampleEnvironment) sampleStopping bs = some t →
      bs.countP (fun a => decide (a ≠ .interrupt)) ≤ N ∧
      (t.mainThread ≠ .returned → ∃ a, a ≠ .interrupt ∧ t.step sampleEnvironment a ≠ none) :=
  shutdown_ends sampleEnvironment_tame sampleStopping_run (by decide +kernel)

/-! ## The way to the end -/

/-- The steps of the main thread and of the mock thread. -/
def isControl (a : Action) : Bool := decide (a = .main ∨ a = .mock)

/-- What the main thread and the mock thread have to do after a `SIGINT`. -/
def controlRank (env : Environment) (s : Process) : ℕ :=
  s.mainThread.rank env.hardwareConcurrency + s.mockThread.rank

/-- A state of a run after a `SIGINT`. -/
structure Interrupted (env : Environment) (s : Process) : Prop extends Live env s where
  keepRunning : s.keepRunning = false

theorem interrupted_step (h : Interrupted env s) (hs : s.step env a = some s') :
    Interrupted env s' := by
  refine ⟨live_step h.toLive hs, ?_⟩
  cases step_cases hs with
  | interrupt => rfl
  | addThrow | addCheck | spawnMock | addPush | start | joinMock => exact h.keepRunning
  | stopBegin | stopReturn | mockLoop | submit | roundDone | wake => exact h.keepRunning
  | hand | done | worker | caller | thread => exact h.keepRunning

/-- **After a `SIGINT`, the main thread and the mock thread come closer to the end of their code.**
-/
theorem quit_step (h : Interrupted env s) (ha : isControl a = true) (hs : s.step env a = some s') :
    controlRank env s' < controlRank env s := by
  have hlife := h.inv.main.lifecycle
  have hmock := h.inv.main.mock
  have hrun := h.keepRunning
  unfold controlRank
  cases step_cases hs with
  | interrupt | hand | done | worker | caller | thread => simp [isControl] at ha
  | addThrow k p hm hk => exact absurd hk (h.inv.main.not_running hm)
  | addCheck k p hm hlt hp => simp [hm, MainPhase.rank]
  | spawnMock k hm hk =>
    rw [hm] at hmock
    have hnot : s.mockThread = .notStarted := hmock
    simp only [hm, hnot, MainPhase.rank, MockPhase.rank]
    omega
  | addPush k p hm hp =>
    rw [hm] at hlife
    have hk := hlife.1
    simp only [hm, MainPhase.rank]
    omega
  | start p hm hp => simp [hm, MainPhase.rank]
  | joinMock hm hended => simp [hm, MainPhase.rank]
  | stopBegin p hm hp => simp [hm, MainPhase.rank]
  | stopReturn p hm hp => simp [hm, MainPhase.rank]
  | mockLoop hm => simp [hm, hrun, MockPhase.rank]
  | submit i p hm hlt hp =>
    simp only [hm, MockPhase.rank]
    omega
  | roundDone i hm hi =>
    simp only [hm, MockPhase.rank]
    omega
  | wake hm => simp [hm, MockPhase.rank]

/-- After a `SIGINT`, the main thread gets to join the workers. -/
theorem exists_joining (h : Interrupted env s) :
    ∃ bs t, (∀ a ∈ bs, a ≠ .interrupt) ∧ exec (step env) s bs = some t ∧ Live env t ∧
      (t.mainThread = .joiningWorkers ∨ t.mainThread = .returned) := by
  have hex : ∃ bs t, (∀ a ∈ bs, isControl a = true) ∧ exec (step env) s bs = some t ∧
      Interrupted env t ∧ ∀ a, isControl a = true → t.step env a = none := by
    refine exists_stuck (I := Interrupted env) (μ := controlRank env) ?_ h
    intro s a t hi ha hs
    exact ⟨interrupted_step hi hs, quit_step hi ha hs⟩
  obtain ⟨bs, t, hcontrol, hexec, hi, hblocked⟩ := hex
  have hsignal : ∀ a ∈ bs, a ≠ .interrupt := by
    rintro a ha rfl
    cases hcontrol _ ha
  refine ⟨bs, t, hsignal, hexec, hi.toLive, ?_⟩
  by_contra hnot
  rw [not_or] at hnot
  rcases main_or_mock_moves hi.inv hnot.1 hnot.2 with hmove | hmove
  · exact hmove (hblocked .main rfl)
  · exact hmove (hblocked .mock rfl)

/-- Once `stop()` has begun, the threads get to the end. -/
theorem exists_returned (henv : env.Tame) {M : ℕ} (h : Stopping env M s) :
    ∃ bs t, (∀ a ∈ bs, a ≠ .interrupt) ∧ exec (step env) s bs = some t ∧
      t.mainThread = .returned := by
  have hex : ∃ bs t, (∀ a ∈ bs, decide (a ≠ .interrupt) = true) ∧
      exec (step env) s bs = some t ∧ Stopping env M t ∧
      ∀ a, decide (a ≠ .interrupt) = true → t.step env a = none := by
    refine exists_stuck (I := Stopping env M) (μ := stopRank env M) ?_ h
    intro s a t hi ha hs
    have hstep := stopping_step henv hi hs
    rw [if_pos ha] at hstep
    exact ⟨hstep.1, hstep.2⟩
  obtain ⟨bs, t, hsignal, hexec, hstop, hblocked⟩ := hex
  refine ⟨bs, t, fun a ha => of_decide_eq_true (hsignal a ha), hexec, ?_⟩
  by_contra hret
  obtain ⟨a, ha, hmove⟩ := live_moves hstop.toLive hret
  exact hmove (hblocked a (by simpa using ha))

/-- **From every state of every run one `SIGINT` is enough for `main` to return**, on short texts
and with non-empty queries: the run can go on with the signal and then without any other, so that
the mock thread ends its round, and the main thread stops the proxy and returns. -/
theorem can_return (henv : env.Tame) (h : exec (step env) (init env) as = some s) :
    ∃ bs t, (∀ a ∈ bs, a ≠ .interrupt) ∧ exec (step env) s (.interrupt :: bs) = some t ∧
      t.mainThread = .returned := by
  have hlive := live_run h
  have hint : s.step env .interrupt = some { s with keepRunning := false } := by
    simp [step, hlive.inv.aborted]
  obtain ⟨bs₁, s₁, hsignal₁, hexec₁, hlive₁, hmain⟩ :=
    exists_joining ⟨live_step hlive hint, rfl⟩
  obtain ⟨bs₂, t, hsignal₂, hexec₂, hret⟩ := exists_returned henv ⟨hlive₁, hmain, rfl⟩
  refine ⟨bs₁ ++ bs₂, t, ?_, exec_cons.2 ⟨_, hint, exec_append.2 ⟨s₁, hexec₁, hexec₂⟩⟩, hret⟩
  intro a ha
  rcases List.mem_append.1 ha with ha | ha
  · exact hsignal₁ a ha
  · exact hsignal₂ a ha

theorem can_return_sample :
    ∃ bs t, (∀ a ∈ bs, a ≠ .interrupt) ∧
      exec (step sampleEnvironment) sampleAnswered (.interrupt :: bs) = some t ∧
      t.mainThread = .returned :=
  can_return sampleEnvironment_tame sampleAnswered_run

end Process

end MTFind2
