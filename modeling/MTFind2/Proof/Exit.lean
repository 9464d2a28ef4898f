import MTFind2.Proof.Answers

/-!
# When `main` has returned

`exit_clean`: the program ends with nothing left to run. Every worker, every call and every
thread has come to its end, and neither a service nor the proxy is locked. The tasks are whole
rounds of 15, each still in a queue, with a client that has been sent nothing, or handed to a
service in a call that has returned.
-/

namespace MTFind2

open Run SearchProxy

namespace Service

variable {κ : Type} {A : κ} {req : SearchRequest} {S : List ContentSource} {s : Service κ}

/-- A call that has returned leaves no thread running. -/
theorem finished_returned (h : CallInv A req S (NamedFrom S.length) s) (hret : s.phase = .returned)
    {i : ℕ} {t : Thread κ} (ht : s.pool.threads i = some t) : t.phase = .finished := by
  obtain ⟨-, -, d, hc, hp⟩ := h
  simp only [CallerOK, hret] at hc
  obtain ⟨rfl, hend⟩ := hc
  have hrange := hp.range ht
  have he := hend (i - S.length) (by omega)
  rw [Nat.add_sub_cancel' hrange.1] at he
  simpa [ended, ht] using he

end Service

/-- The tasks of the round that is going on. -/
def MockPhase.submitted : MockPhase → ℕ
  | .submitting i => i
  | .notStarted | .looping | .sleeping | .ended => 0

namespace Process

variable {env : Environment} {s s' : Process} {a : Action} {as : List Action}

/-- The tasks submitted are whole rounds, and those of the round that is going on. -/
def Rounds (s : Process) : Prop :=
  s.mockThread.submitted ≤ searchRequestCount ∧
    ∃ k, s.searchProxy.submitted.length = searchRequestCount * k + s.mockThread.submitted

/-- Only a call of `query()` submits a task. -/
theorem submitted_eq {p p' : SearchProxy ℕ ℕ ℕ} {prog : Program ℕ ℕ} {e : Event ℕ ℕ ℕ}
    (h : p.step prog e = some p') (he : e.submission = none) : p'.submitted = p.submitted := by
  cases SearchProxy.step_cases prog h with
  | query => cases he
  | addThrow | addCheck | addPush | start | startAbort | stopBegin | stopReturn => rfl
  | loop | draw | takeNone | take | hand | done => rfl

theorem rounds_step (hI : Inv env s) (h : Rounds s) (hs : s.step env a = some s') : Rounds s' := by
  obtain ⟨hle, k, hk⟩ := h
  cases step_cases hs with
  | interrupt | joinMock | caller | thread => exact ⟨hle, k, hk⟩
  | addThrow j p hm hrun => exact absurd hrun (hI.main.not_running hm)
  | addCheck j p hm hlt hp => exact ⟨hle, k, by rw [submitted_eq hp rfl]; exact hk⟩
  | addPush j p hm hp => exact ⟨hle, k, by rw [submitted_eq hp rfl]; exact hk⟩
  | start p hm hp => exact ⟨hle, k, by rw [submitted_eq hp rfl]; exact hk⟩
  | stopBegin p hm hp => exact ⟨hle, k, by rw [submitted_eq hp rfl]; exact hk⟩
  | stopReturn p hm hp => exact ⟨hle, k, by rw [submitted_eq hp rfl]; exact hk⟩
  | hand w service task action p hw hp => exact ⟨hle, k, by rw [submitted_eq hp rfl]; exact hk⟩
  | done w service task action p hw hret hp =>
    exact ⟨hle, k, by rw [submitted_eq hp rfl]; exact hk⟩
  | worker w x action p hw hhand hquery hp =>
    exact ⟨hle, k, by rw [submitted_eq hp rfl]; exact hk⟩
  | spawnMock j hm hj =>
    have hmock := hI.main.mock
    rw [hm] at hmock
    have hnot : s.mockThread = .notStarted := hmock
    rw [hnot] at hk
    exact ⟨Nat.zero_le _, k, hk⟩
  | mockLoop hm =>
    rw [hm] at hk
    refine ⟨?_, k, ?_⟩
    · split <;> exact Nat.zero_le _
    · split <;> exact hk
  | submit i p hm hlt hp =>
    rw [hm] at hk
    cases SearchProxy.step_cases env.program hp with
    | query client request =>
      refine ⟨hlt, k, ?_⟩
      simp only [MockPhase.submitted, List.length_append, List.length_singleton] at hk ⊢
      omega
  | roundDone i hm hi =>
    -- the round has 15 tasks
    rw [hm] at hk hle
    refine ⟨Nat.zero_le _, k + 1, ?_⟩
    simp only [MockPhase.submitted, searchRequestCount] at hk hle hi ⊢
    omega
  | wake hm =>
    rw [hm] at hk
    exact ⟨Nat.zero_le _, k, hk⟩

/-- What every state of a run is like. -/
structure Sound (env : Environment) (s : Process) : Prop where
  inv : Inv env s
  apart : ∀ n, Apart env s n
  rounds : Rounds s

theorem sound_step (h : Sound env s) (hs : s.step env a = some s') : Sound env s' :=
  ⟨inv_step h.inv hs, apart_step h.inv h.apart hs, rounds_step h.inv h.rounds hs⟩

theorem sound_init : Sound env (init env) :=
  ⟨inv_init, fun _ => apart_init, Nat.zero_le _, 0, rfl⟩

theorem sound_run (h : exec (step env) (init env) as = some s) : Sound env s :=
  exec_inv sound_step sound_init h

/-! ## The end -/

/-- A call that has returned leaves no thread running. -/
theorem finished_of_returned (h : exec (step env) (init env) as = some s) {n i : ℕ}
    {t : Thread ℕ} (ht : s.pool.threads (n, i) = some t) (hret : s.hasReturned n = true) :
    t.phase = .finished := by
  obtain ⟨hI, hA⟩ := apart_run h
  obtain ⟨-, call, hc⟩ := (hA n).client_eq ht
  rw [hasReturned_iff env] at hret
  rcases Service.callInv_run (P := NamedFrom env.contentSources.length) .init
    (fun hp _ => hp.spawn _) (fun hp hs => hp.step hs) (ofCall_move as n) (exec_callState h n) with
    hinit | hinv
  · rw [hinit] at hret
    cases hret
  · refine Service.finished_returned hinv hret (i := i) ?_
    rw [callState_some hc]
    exact ht

/-- **Nothing is left to run**, and no task is left half done. -/
structure CleanExit (env : Environment) (s : Process) : Prop where
  workers : s.searchProxy.threadPool = []
  calls : ∀ n call, s.calls n = some call → call.phase = .returned
  threads : ∀ n i t, s.pool.threads (n, i) = some t → t.phase = .finished
  /-- Each `m_content_sources_lock` is free. -/
  locks : ∀ (k : ℕ) (service : SearchService), s.searchServices[k]? = some service →
    service.locked = false
  /-- `m_search_services_lock` is free, and the proxy is stopped. -/
  stopping : s.searchProxy.stopping = false
  keepRunning : s.searchProxy.keepRunning = false
  /-- The tasks submitted are whole rounds. -/
  rounds : searchRequestCount ∣ s.searchProxy.submitted.length
  /-- Each is in a queue, or was handed to a service. -/
  tasks : (s.searchProxy.submitted : Multiset (SearchTask ℕ ℕ)) =
    s.searchProxy.queued + s.searchProxy.handedTasks
  /-- The clients of the tasks in the queues have been sent nothing. -/
  queued : ∀ task ∈ s.searchProxy.queued, (s.pool.clients task.client).received = []
  /-- The calls for the others have returned. -/
  handed : ∀ task ∈ s.searchProxy.handedTasks, s.hasReturned task.ticket = true
  /-- No thread can move any more. -/
  final : ∀ a, a ≠ .interrupt → s.step env a = none

/-- A queued task has no call. -/
theorem Inv.calls_queued (hI : Inv env s) {task : SearchTask ℕ ℕ}
    (ht : task ∈ s.searchProxy.queued) : s.calls task.ticket = none := by
  cases hc : s.calls task.ticket with
  | none => rfl
  | some call =>
    obtain ⟨hticket, hhanded⟩ := hI.calls.handed _ call hc
    have hnodup := hI.conserved.nodup
    rw [Multiset.map_add, Multiset.nodup_add] at hnodup
    have hleft : task.ticket ∈
        (s.searchProxy.queued + s.searchProxy.holding).map SearchTask.ticket :=
      Multiset.mem_map_of_mem _ (Multiset.mem_add.2 (.inl ht))
    have hmem : call.task ∈ s.searchProxy.handedTasks := List.mem_map.2 ⟨_, hhanded, rfl⟩
    have hright : task.ticket ∈ s.searchProxy.handedTasks.map SearchTask.ticket := by
      rw [← hticket]
      exact Multiset.mem_map_of_mem _ hmem
    exact absurd hright (Multiset.disjoint_left.1 hnodup.2.2 hleft)

/-- When `main` has returned, all workers are gone, and all calls and threads have ended. -/
theorem ended_of_returned (h : exec (step env) (init env) as = some s)
    (hret : s.mainThread = .returned) : s.searchProxy.threadPool = [] ∧
      (∀ n call, s.calls n = some call → call.phase = .returned) ∧
      ∀ n i t, s.pool.threads (n, i) = some t → t.phase = .finished := by
  obtain ⟨hI, hA⟩ := apart_run h
  have hlife := hI.main.lifecycle
  rw [hret] at hlife
  have hstands : s.searchProxy.Stands false false _ [] [] := hlife
  have hpool : s.searchProxy.threadPool = [] := workers_eq_nil.1 hstands.workers
  -- without workers no call is active
  have hcalls : ∀ n call, s.calls n = some call → call.phase = .returned := by
    intro n call hc
    by_contra hactive
    obtain ⟨w, hw⟩ := hI.calls.active n call hc hactive
    unfold Querying at hw
    rw [hpool] at hw
    cases hw
  refine ⟨hpool, hcalls, ?_⟩
  intro n i t ht
  obtain ⟨-, call, hc⟩ := (hA n).client_eq ht
  exact finished_of_returned h ht (by simp [hasReturned, hc, hcalls n call hc])

/-- **When `main` has returned**, no thread can move any more. -/
theorem final_of_returned (h : exec (step env) (init env) as = some s)
    (hret : s.mainThread = .returned) (ha : a ≠ .interrupt) : s.step env a = none := by
  obtain ⟨hpool, hcalls, hthreads⟩ := ended_of_returned h hret
  have hended : s.mockThread = .ended := by
    have hmock := (inv_run h).main.mock
    rw [hret] at hmock
    exact hmock
  cases hstep : s.step env a with
  | none => rfl
  | some s' =>
    exfalso
    cases step_cases hstep with
    | interrupt => exact ha rfl
    | addThrow k p hm | addCheck k p hm | spawnMock k hm | addPush k p hm | start p hm
    | joinMock hm | stopBegin p hm | stopReturn p hm =>
      rw [hret] at hm
      cases hm
    | mockLoop hm | submit i p hm | roundDone i hm | wake hm =>
      rw [hended] at hm
      cases hm
    | hand w service task action p hw | done w service task action p hw
    | worker w x action p hw =>
      rw [hpool] at hw
      cases hw
    | caller n call service t hc hk ht =>
      have hphase : (s.view env n call service.contentSources service.locked).phase =
          .returned := hcalls n call hc
      rw [Service.stepCaller, hphase] at ht
      cases ht
    | thread n i pool hi =>
      obtain ⟨t, c, p, ht, hs, -⟩ := System.step_cases hi
      rw [hthreads n i t ht] at hs
      cases hs

/-- **`main` returns with nothing left to run**, in every run of the program. -/
theorem exit_clean (h : exec (step env) (init env) as = some s)
    (hret : s.mainThread = .returned) : CleanExit env s := by
  obtain ⟨hI, hA, hrounds⟩ := sound_run h
  obtain ⟨hpool, hcalls, hthreads⟩ := ended_of_returned h hret
  have hended : s.mockThread = .ended := by
    have hmock := hI.main.mock
    rw [hret] at hmock
    exact hmock
  have hlife := hI.main.lifecycle
  rw [hret] at hlife
  have hstands : s.searchProxy.Stands false false _ [] [] := hlife
  refine ⟨hpool, hcalls, hthreads, ?_, hstands.stopping, hstands.keepRunning, ?_, ?_, ?_, ?_,
    fun a ha => final_of_returned h hret ha⟩
  · intro k service hk
    by_contra hlocked
    obtain ⟨n, call, hc, -, hholds⟩ :=
      (hI.services.locked k service hk).1 (by simpa using hlocked)
    rw [hcalls n call hc] at hholds
    cases hholds
  · obtain ⟨-, k, hk⟩ := hrounds
    rw [hended] at hk
    exact ⟨k, hk⟩
  · have hsum := hI.conserved.sum
    have hholding : s.searchProxy.holding = 0 := by simp [holding, hpool]
    rwa [hholding, add_zero] at hsum
  · intro task ht
    have hsub := hI.submitted_of_queued ht
    have hclient := ((hA task.ticket).fresh (hI.calls_queued ht)).1
    rw [(hI.numbered task hsub).1, hclient]
    rfl
  · intro task ht
    obtain ⟨x, hx, rfl⟩ := List.mem_map.1 ht
    obtain ⟨call, hc, -⟩ := hI.calls.called x hx
    have hc' : s.calls x.2.ticket = some call := hc
    simp [hasReturned, hc', hcalls _ call hc']

/-- The program is interrupted, and its main thread begins to stop the proxy. -/
def sampleStop : List Action := sampleCalls ++ [.interrupt, .mock, .mock, .main, .main]

def sampleExit : List Action := sampleStop ++ [.worker 0 .loop, .main]

def sampleExited : Process :=
  (exec (step sampleEnvironment) (init sampleEnvironment) sampleExit).get (by decide +kernel)

theorem sampleExited_run :
    exec (step sampleEnvironment) (init sampleEnvironment) sampleExit = some sampleExited :=
  (Option.some_get _).symm

theorem exit_clean_sample : CleanExit sampleEnvironment sampleExited :=
  exit_clean sampleExited_run (by decide +kernel)

end Process

end MTFind2
