import MTFind2.Proof.Lifecycle
import MTFind2.Spec.Main

/-!
# The steps of the process, and its main thread

`Process.Step` lists the steps of the program, one constructor for each (`step_cases`).
Where the main thread is says everything about the lifecycle of the proxy (`MainOK`,
`mainOK_step`): the program never starts a proxy that runs, and each service has one
worker (`MainOK.worker_eq`).
-/

namespace MTFind2

open Run SearchProxy

/-- The `.txt` files of the directory, as sources. -/
def Environment.contentSources (env : Environment) : List ContentSource :=
  (env.data.filter DirectoryEntry.isSample).map DirectoryEntry.contentSource

/-- **Every service gets the sources of all `.txt` files.** -/
theorem addSampleContentSources_replicate (data : List DirectoryEntry) (n : ℕ)
    (sources : List ContentSource) :
    addSampleContentSources data (List.replicate n ⟨sources, false⟩) =
      List.replicate n ⟨sources ++ (data.filter DirectoryEntry.isSample).map
        DirectoryEntry.contentSource, false⟩ := by
  induction data generalizing sources with
  | nil => simp [addSampleContentSources]
  | cons entry data ih =>
    by_cases h : entry.isSample = true
    · have hadd : (List.replicate n (⟨sources, false⟩ : SearchService)).map
          (fun service => service.addContentSource entry.contentSource) =
          List.replicate n ⟨sources ++ [entry.contentSource], false⟩ := List.map_replicate
      have hstep : addSampleContentSources (entry :: data) (List.replicate n ⟨sources, false⟩) =
          addSampleContentSources data
            (List.replicate n ⟨sources ++ [entry.contentSource], false⟩) := by
        rw [← hadd]
        simp [addSampleContentSources, h]
      rw [hstep, ih, List.filter_cons_of_pos h]
      simp
    · have hstep : addSampleContentSources (entry :: data) (List.replicate n ⟨sources, false⟩) =
          addSampleContentSources data (List.replicate n ⟨sources, false⟩) := by
        simp [addSampleContentSources, h]
      rw [hstep, ih, List.filter_cons_of_neg h]

theorem Environment.searchServices_eq (env : Environment) :
    env.searchServices = List.replicate env.hardwareConcurrency ⟨env.contentSources, false⟩ := by
  unfold searchServices contentSources
  rw [addSampleContentSources_replicate, List.nil_append]

namespace Process

variable {env : Environment} {s s' : Process} {a : Action}

/-- The steps of the process. -/
inductive Step (env : Environment) (s : Process) : Action → Process → Prop
  | interrupt : Step env s .interrupt { s with keepRunning := false }
  | addThrow (k : ℕ) (p : SearchProxy ℕ ℕ ℕ) (hm : s.mainThread = .adding k)
      (hk : s.searchProxy.keepRunning = true) :
      Step env s .main { s with searchProxy := { p with aborted := true } }
  | addCheck (k : ℕ) (p : SearchProxy ℕ ℕ ℕ) (hm : s.mainThread = .adding k)
      (hlt : k < s.searchServices.length)
      (hp : s.searchProxy.step env.program (.addCheck k) = some p) :
      Step env s .main { s with searchProxy := p, mainThread := .pushing k }
  | spawnMock (k : ℕ) (hm : s.mainThread = .adding k) (hk : s.searchServices.length ≤ k) :
      Step env s .main { s with mockThread := .looping, mainThread := .starting }
  | addPush (k : ℕ) (p : SearchProxy ℕ ℕ ℕ) (hm : s.mainThread = .pushing k)
      (hp : s.searchProxy.step env.program (.addPush k) = some p) :
      Step env s .main { s with searchProxy := p, mainThread := .adding (k + 1) }
  | start (p : SearchProxy ℕ ℕ ℕ) (hm : s.mainThread = .starting)
      (hp : s.searchProxy.step env.program .start = some p) :
      Step env s .main { s with searchProxy := p, mainThread := .joining }
  | joinMock (hm : s.mainThread = .joining) (hmock : s.mockThread = .ended) :
      Step env s .main { s with mainThread := .stopping }
  | stopBegin (p : SearchProxy ℕ ℕ ℕ) (hm : s.mainThread = .stopping)
      (hp : s.searchProxy.step env.program .stopBegin = some p) :
      Step env s .main { s with searchProxy := p, mainThread := .joiningWorkers }
  | stopReturn (p : SearchProxy ℕ ℕ ℕ) (hm : s.mainThread = .joiningWorkers)
      (hp : s.searchProxy.step env.program .stopReturn = some p) :
      Step env s .main { s with searchProxy := p, mainThread := .returned }
  | mockLoop (hm : s.mockThread = .looping) : Step env s .mock
      { s with mockThread := if s.keepRunning then .submitting 0 else .ended }
  | submit (i : ℕ) (p : SearchProxy ℕ ℕ ℕ) (hm : s.mockThread = .submitting i)
      (hlt : i < searchRequestCount)
      (hp : s.searchProxy.step env.program
        (.query s.searchProxy.submitted.length s.searchProxy.submitted.length) = some p) :
      Step env s .mock { s with searchProxy := p, mockThread := .submitting (i + 1) }
  | roundDone (i : ℕ) (hm : s.mockThread = .submitting i) (hi : searchRequestCount ≤ i) :
      Step env s .mock { s with mockThread := .sleeping }
  | wake (hm : s.mockThread = .sleeping) : Step env s .mock { s with mockThread := .looping }
  | hand (w : ℕ) (service : ℕ) (task : SearchTask ℕ ℕ) (action : WorkerAction)
      (p : SearchProxy ℕ ℕ ℕ) (hw : s.searchProxy.threadPool[w]? = some ⟨service, .handing task⟩)
      (hp : s.searchProxy.step env.program (.worker w action) = some p) :
      Step env s (.worker w action) { s with
        searchProxy := p
        calls := Function.update s.calls task.ticket (some ⟨service, task, .called, []⟩) }
  | done (w : ℕ) (service : ℕ) (task : SearchTask ℕ ℕ) (action : WorkerAction)
      (p : SearchProxy ℕ ℕ ℕ) (hw : s.searchProxy.threadPool[w]? = some ⟨service, .querying task⟩)
      (hret : s.hasReturned task.ticket = true)
      (hp : s.searchProxy.step env.program (.worker w action) = some p) :
      Step env s (.worker w action) { s with searchProxy := p }
  | worker (w : ℕ) (x : Worker ℕ ℕ ℕ) (action : WorkerAction) (p : SearchProxy ℕ ℕ ℕ)
      (hw : s.searchProxy.threadPool[w]? = some x) (hhand : ∀ task, x.phase ≠ .handing task)
      (hquery : ∀ task, x.phase ≠ .querying task)
      (hp : s.searchProxy.step env.program (.worker w action) = some p) :
      Step env s (.worker w action) { s with searchProxy := p }
  | caller (n : ℕ) (call : QueryCall) (service : SearchService) (t : Service ℕ)
      (hc : s.calls n = some call) (hk : s.searchServices[call.service]? = some service)
      (ht : (s.view env n call service.contentSources service.locked).stepCaller = some t) :
      Step env s (.caller n) (s.store n call t)
  | thread (n i : ℕ) (pool : System (ℕ × ℕ) ℕ) (hi : s.pool.step (n, i) = some pool) :
      Step env s (.thread n i) { s with pool }

theorem stepMain_cases (h : s.stepMain env = some s') : Step env s .main s' := by
  unfold stepMain at h
  split at h
  · rename_i k hm
    split at h
    · rename_i hlt
      obtain ⟨p, hp, h⟩ := Option.map_eq_some_iff.1 h
      split at h
      · rename_i hk
        cases h
        exact .addThrow k p hm hk
      · cases h
        exact .addCheck k p hm hlt hp
    · rename_i hk
      cases h
      exact .spawnMock k hm (by omega)
  · rename_i k hm
    obtain ⟨p, hp, h⟩ := Option.map_eq_some_iff.1 h
    cases h
    exact .addPush k p hm hp
  · rename_i hm
    obtain ⟨p, hp, h⟩ := Option.map_eq_some_iff.1 h
    cases h
    exact .start p hm hp
  · rename_i hm
    split at h
    · rename_i hmock
      cases h
      exact .joinMock hm hmock
    · cases h
  · rename_i hm
    obtain ⟨p, hp, h⟩ := Option.map_eq_some_iff.1 h
    cases h
    exact .stopBegin p hm hp
  · rename_i hm
    obtain ⟨p, hp, h⟩ := Option.map_eq_some_iff.1 h
    cases h
    exact .stopReturn p hm hp
  · cases h

theorem stepMock_cases (h : s.stepMock env = some s') : Step env s .mock s' := by
  unfold stepMock at h
  split at h
  · rename_i hm
    cases h
    exact .mockLoop hm
  · rename_i i hm
    split at h
    · rename_i hlt
      obtain ⟨p, hp, h⟩ := Option.map_eq_some_iff.1 h
      cases h
      exact .submit i p hm hlt hp
    · rename_i hi
      cases h
      exact .roundDone i hm (by omega)
  · rename_i hm
    cases h
    exact .wake hm
  · cases h
  · cases h

theorem stepWorker_cases {w : ℕ} {action : WorkerAction} (h : s.stepWorker env w action = some s') :
    Step env s (.worker w action) s' := by
  obtain ⟨p, hp, h⟩ := Option.bind_eq_some_iff.1 h
  have hw : ∃ x, s.searchProxy.threadPool[w]? = some x := by
    unfold SearchProxy.step at hp
    split at hp
    · cases hp
    · obtain ⟨x, hx, -⟩ := Option.bind_eq_some_iff.1 hp
      exact ⟨x, hx⟩
  obtain ⟨⟨service, phase⟩, hx⟩ := hw
  rw [hx] at h
  cases phase with
  | handing task =>
    cases h
    exact .hand w service task action p hx hp
  | querying task =>
    dsimp only at h
    split at h
    · rename_i hret
      cases h
      exact .done w service task action p hx hret hp
    · cases h
  | looping | drawing | taking | exited =>
    cases h
    exact .worker w _ action p hx (fun task h => by cases h) (fun task h => by cases h) hp

/-- **What a step does**, one case for each. -/
theorem step_cases (h : s.step env a = some s') : Step env s a s' := by
  unfold step at h
  split at h
  · cases h
  cases a with
  | interrupt =>
    cases h
    exact .interrupt
  | main => exact stepMain_cases h
  | mock => exact stepMock_cases h
  | worker w action => exact stepWorker_cases h
  | caller n =>
    obtain ⟨call, hc, h⟩ := Option.bind_eq_some_iff.1 h
    obtain ⟨service, hk, h⟩ := Option.bind_eq_some_iff.1 h
    obtain ⟨t, ht, h⟩ := Option.map_eq_some_iff.1 h
    cases h
    exact .caller n call service t hc hk ht
  | thread n i =>
    obtain ⟨pool, hi, h⟩ := Option.map_eq_some_iff.1 h
    cases h
    exact .thread n i pool hi

end Process

/-! ## The lifecycle of the proxy -/

namespace SearchProxy

variable {σ κ ρ : Type} {p p' : SearchProxy σ κ ρ} {running stopping : Bool}
  {services adding workers : List σ}

/-- What the lifecycle calls read and write has these values, and no worker was destroyed. -/
structure Stands (p : SearchProxy σ κ ρ) (running stopping : Bool)
    (services adding workers : List σ) : Prop where
  keepRunning : p.keepRunning = running
  stopping : p.stopping = stopping
  searchServices : p.searchServices = services
  adding : p.adding = adding
  workers : p.workers = workers
  aborted : p.aborted = false

theorem Stands.same (h : p.Stands running stopping services adding workers)
    (hs : SameLifecycle p p') : p'.Stands running stopping services adding workers :=
  ⟨hs.keepRunning.trans h.keepRunning, hs.stopping.trans h.stopping,
    hs.searchServices.trans h.searchServices, hs.adding.trans h.adding, hs.workers.trans h.workers,
    hs.aborted.trans h.aborted⟩

variable {prog : Program κ ρ} [DecidableEq σ]

/-- A call of `query()` and a step of a worker leave the lifecycle as it is. -/
theorem same_query {client : κ} {request : ρ} (h : p.step prog (.query client request) = some p') :
    SameLifecycle p p' := by
  cases lifecycle_cases h with
  | same _ _ _ _ hsame => exact hsame

theorem same_worker {w : ℕ} {action : WorkerAction}
    (h : p.step prog (.worker w action) = some p') : SameLifecycle p p' := by
  cases lifecycle_cases h with
  | same _ _ _ _ hsame => exact hsame

end SearchProxy

/-- The lifecycle of the proxy at each point of the main thread, with `N` services. -/
def MainPhase.Lifecycle (N : ℕ) (p : SearchProxy ℕ ℕ ℕ) : MainPhase → Prop
  | .adding k => k ≤ N ∧ p.Stands false false (List.range k) [] []
  | .pushing k => k < N ∧ p.Stands false false (List.range k) [k] []
  | .starting => p.Stands false false (List.range N) [] []
  | .joining | .stopping => p.Stands true false (List.range N) [] (List.range N)
  | .joiningWorkers => p.Stands false true (List.range N) [] (List.range N)
  | .returned => p.Stands false false (List.range N) [] []

/-- Where the mock thread can be at each point of the main thread. -/
def MainPhase.Mock (mock : MockPhase) : MainPhase → Prop
  | .adding _ | .pushing _ => mock = .notStarted
  | .starting | .joining => mock ≠ .notStarted
  | .stopping | .joiningWorkers | .returned => mock = .ended

/-- Where the lifecycle is the same, so is what the main thread knows of it. -/
theorem MainPhase.Lifecycle.same {N : ℕ} {p p' : SearchProxy ℕ ℕ ℕ} {m : MainPhase}
    (h : m.Lifecycle N p) (hs : SameLifecycle p p') : m.Lifecycle N p' := by
  cases m with
  | adding k => exact ⟨h.1, h.2.same hs⟩
  | pushing k => exact ⟨h.1, h.2.same hs⟩
  | starting | joining | stopping | joiningWorkers | returned => exact Stands.same h hs

namespace Process

variable {env : Environment} {s s' : Process} {a : Action}

/-- **What the main thread knows.** -/
structure MainOK (env : Environment) (s : Process) : Prop where
  services : s.searchServices.length = env.hardwareConcurrency
  lifecycle : s.mainThread.Lifecycle env.hardwareConcurrency s.searchProxy
  mock : s.mainThread.Mock s.mockThread

theorem mainOK_init : MainOK env (init env) where
  services := by simp [init, env.searchServices_eq]
  lifecycle := ⟨Nat.zero_le _, rfl, rfl, rfl, rfl, rfl, rfl⟩
  mock := rfl

/-- While the mock thread is in its loop, the main thread has not stopped the proxy. -/
theorem MainOK.mock_moves (h : MainOK env s) {mock : MockPhase} (hm : s.mockThread ≠ .notStarted)
    (hm' : s.mockThread ≠ .ended) (hmock : mock ≠ .notStarted) :
    s.mainThread.Mock mock := by
  have hold := h.mock
  unfold MainPhase.Mock at hold ⊢
  cases hmain : s.mainThread <;> rw [hmain] at hold
  case adding | pushing => exact absurd hold hm
  case starting | joining => exact hmock
  case stopping | joiningWorkers | returned => exact absurd hold hm'

/-- No service is added to a running proxy. -/
theorem MainOK.not_running (h : MainOK env s) {k : ℕ} (hm : s.mainThread = .adding k) :
    s.searchProxy.keepRunning ≠ true := by
  have hlife := h.lifecycle
  rw [hm] at hlife
  simp [hlife.2.keepRunning]

/-- **Every step keeps what the main thread knows.** -/
theorem mainOK_step (hM : MainOK env s) (h : s.step env a = some s') : MainOK env s' := by
  have ⟨hlen, hlife, hmock⟩ := hM
  cases step_cases h with
  | interrupt => exact ⟨hlen, hlife, hmock⟩
  | addThrow k p hm hk => exact absurd hk (hM.not_running hm)
  | addCheck k p hm hlt hp =>
    rw [hm] at hlife hmock
    obtain ⟨hk, hs⟩ := hlife
    refine ⟨hlen, ?_, hmock⟩
    cases SearchProxy.step_cases env.program hp with
    | addThrow _ hrun =>
      rw [hs.keepRunning] at hrun
      cases hrun
    | addCheck _ hrun =>
      exact ⟨by omega, hs.keepRunning, hs.stopping, hs.searchServices, by simp [hs.adding],
        hs.workers, hs.aborted⟩
  | spawnMock k hm hk =>
    rw [hm] at hlife
    obtain ⟨hkN, hs⟩ := hlife
    obtain rfl : k = env.hardwareConcurrency := by omega
    exact ⟨hlen, hs, by simp [MainPhase.Mock]⟩
  | addPush k p hm hp =>
    rw [hm] at hlife hmock
    obtain ⟨hk, hs⟩ := hlife
    refine ⟨hlen, ?_, hmock⟩
    cases SearchProxy.step_cases env.program hp with
    | addPush _ hmem hstop =>
      exact ⟨hk, hs.keepRunning, hs.stopping,
        by simp only [hs.searchServices, List.range_succ], by simp [hs.adding], hs.workers,
        hs.aborted⟩
  | start p hm hp =>
    rw [hm] at hlife hmock
    have hs : s.searchProxy.Stands false false _ [] [] := hlife
    refine ⟨hlen, ?_, hmock⟩
    cases SearchProxy.step_cases env.program hp with
    | start hstop hpool =>
      refine ⟨rfl, hs.stopping, hs.searchServices, hs.adding, ?_, hs.aborted⟩
      unfold workers
      rw [map_service_looping]
      exact hs.searchServices
    | startAbort hstop hpool => exact absurd (workers_eq_nil.1 hs.workers) hpool
  | joinMock hm hended =>
    rw [hm] at hlife
    exact ⟨hlen, hlife, hended⟩
  | stopBegin p hm hp =>
    rw [hm] at hlife hmock
    have hs : s.searchProxy.Stands true false _ [] _ := hlife
    refine ⟨hlen, ?_, hmock⟩
    cases SearchProxy.step_cases env.program hp with
    | stopBegin hstop =>
      exact ⟨rfl, rfl, hs.searchServices, hs.adding, hs.workers, hs.aborted⟩
  | stopReturn p hm hp =>
    rw [hm] at hlife hmock
    have hs : s.searchProxy.Stands false true _ [] _ := hlife
    refine ⟨hlen, ?_, hmock⟩
    cases SearchProxy.step_cases env.program hp with
    | stopReturn hstop hall =>
      exact ⟨hs.keepRunning, rfl, hs.searchServices, hs.adding, rfl, hs.aborted⟩
  | mockLoop hm =>
    refine ⟨hlen, hlife, MainOK.mock_moves ⟨hlen, hlife, hmock⟩ (by simp [hm]) (by simp [hm]) ?_⟩
    split <;> simp
  | submit i p hm hlt hp =>
    exact ⟨hlen, hlife.same (same_query hp),
      MainOK.mock_moves ⟨hlen, hlife, hmock⟩ (by simp [hm]) (by simp [hm]) (by simp)⟩
  | roundDone i hm hi =>
    exact ⟨hlen, hlife,
      MainOK.mock_moves ⟨hlen, hlife, hmock⟩ (by simp [hm]) (by simp [hm]) (by simp)⟩
  | wake hm =>
    exact ⟨hlen, hlife,
      MainOK.mock_moves ⟨hlen, hlife, hmock⟩ (by simp [hm]) (by simp [hm]) (by simp)⟩
  | hand w service task action p hw hp | done w service task action p hw hret hp
  | worker w x action p hw hhand hquery hp =>
    exact ⟨hlen, hlife.same (same_worker hp), hmock⟩
  | caller n call service t hc hk ht =>
    exact ⟨by simpa [store] using hlen, hlife, hmock⟩
  | thread n i pool hi => exact ⟨hlen, hlife, hmock⟩

/-- Where the proxy has workers, they are those of the services. -/
theorem MainOK.workers_eq (h : MainOK env s) : s.searchProxy.workers = [] ∨
    s.searchProxy.workers = List.range env.hardwareConcurrency := by
  have hlife := h.lifecycle
  cases hm : s.mainThread <;> rw [hm] at hlife
  case adding | pushing => exact .inl hlife.2.workers
  case starting | returned => exact .inl (Stands.workers hlife)
  case joining | stopping | joiningWorkers => exact .inr (Stands.workers hlife)

/-- The workers serve the services one by one. -/
theorem MainOK.worker_eq (h : MainOK env s) {w : ℕ} {x : Worker ℕ ℕ ℕ}
    (hw : s.searchProxy.threadPool[w]? = some x) :
    w < env.hardwareConcurrency ∧ x.service = w := by
  have hindex : s.searchProxy.workers[w]? = some x.service := by
    rw [workers, List.getElem?_map, hw]
    rfl
  rcases h.workers_eq with h | h
  · rw [h] at hindex
    cases hindex
  · rw [h] at hindex
    obtain ⟨hlt, heq⟩ := List.getElem?_eq_some_iff.1 hindex
    rw [List.getElem_range] at heq
    exact ⟨by simpa using hlt, heq.symm⟩

/-- What the main thread knows makes the proxy manned: a running proxy has its workers. -/
theorem MainOK.manned (h : MainOK env s) : s.searchProxy.Sane ∧ s.searchProxy.Manned := by
  have hlife := h.lifecycle
  cases hm : s.mainThread <;> rw [hm] at hlife
  case adding k | pushing k =>
    obtain ⟨-, hs⟩ := hlife
    have hpool := workers_eq_nil.1 hs.workers
    refine ⟨⟨fun _ => hs.keepRunning, fun _ _ => hpool, ?_⟩, hs.aborted, fun hrun => ?_⟩
    · rw [hs.workers]
      exact List.nil_prefix
    · rw [hs.keepRunning] at hrun
      cases hrun
  case starting | returned =>
    have hs : s.searchProxy.Stands false false _ [] [] := hlife
    have hpool := workers_eq_nil.1 hs.workers
    refine ⟨⟨fun _ => hs.keepRunning, fun _ _ => hpool, ?_⟩, hs.aborted, fun hrun => ?_⟩
    · rw [hs.workers]
      exact List.nil_prefix
    · rw [hs.keepRunning] at hrun
      cases hrun
  case joining | stopping =>
    have hs : s.searchProxy.Stands true false _ [] _ := hlife
    have hworkers := hs.workers.trans hs.searchServices.symm
    refine ⟨⟨fun hstop => ?_, fun hrun => ?_, ?_⟩, hs.aborted, fun _ => .inl hworkers⟩
    · rw [hs.stopping] at hstop
      cases hstop
    · rw [hs.keepRunning] at hrun
      cases hrun
    · rw [hworkers]
  case joiningWorkers =>
    have hs : s.searchProxy.Stands false true _ [] _ := hlife
    have hworkers := hs.workers.trans hs.searchServices.symm
    refine ⟨⟨fun _ => hs.keepRunning, fun _ hstop => ?_, ?_⟩, hs.aborted, fun _ => .inl hworkers⟩
    · rw [hs.stopping] at hstop
      cases hstop
    · rw [hworkers]

end Process

end MTFind2
