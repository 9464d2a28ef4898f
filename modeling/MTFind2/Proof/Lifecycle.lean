import MTFind2.Proof.Proxy

/-!
# The workers of a search proxy

`start()` gives each registered service a worker and `stop()` joins them. But
`start()` does not ask whether the proxy runs, and `add_search_service` asks before it
takes the lock.

* `sane_step`: what every step keeps: the pool is empty once stopped, and its workers are
  those of the first services of the list.
* `manned_step`: as long as `start()` finds no workers, and no service is pushed while the
  proxy runs except by a call that leaves others in progress, no worker is destroyed
  and each service has one.
* `oneWorkerEach_iff`: both conditions are needed.
-/

namespace MTFind2

open Run

namespace SearchProxy

variable {σ κ ρ : Type} {prog : Program κ ρ} {s s' : SearchProxy σ κ ρ} {e : Event σ κ ρ}

/-- The services that have a worker, in the order of the pool. -/
def workers (s : SearchProxy σ κ ρ) : List σ := s.threadPool.map Worker.service

/-- A worker keeps its service. -/
theorem workers_setPhase_eq {w : ℕ} {x : Worker σ κ ρ} (hw : s.threadPool[w]? = some x)
    (phase : WorkerPhase κ ρ) : (s.setPhase w x phase).workers = s.workers := by
  have hservice : s.workers[w]? = some x.service := by
    rw [workers, List.getElem?_map, hw]
    rfl
  obtain ⟨hlt, hx⟩ := List.getElem?_eq_some_iff.1 hservice
  unfold workers setPhase
  rw [List.map_set]
  show s.workers.set w x.service = s.workers
  rw [← hx]
  exact List.set_getElem_self _

/-- Two states agree on everything that the lifecycle calls read and write. -/
structure SameLifecycle (s s' : SearchProxy σ κ ρ) : Prop where
  keepRunning : s'.keepRunning = s.keepRunning
  searchServices : s'.searchServices = s.searchServices
  workers : s'.workers = s.workers
  stopping : s'.stopping = s.stopping
  adding : s'.adding = s.adding
  aborted : s'.aborted = s.aborted

/-- `start()` makes one worker for each service, in their order. -/
theorem map_service_looping (services : List σ) :
    (services.map fun service => (⟨service, .looping⟩ : Worker σ κ ρ)).map Worker.service =
      services := by
  rw [List.map_map]
  exact List.map_id services

/-- The pool is empty if it has no workers. -/
theorem workers_eq_nil : s.workers = [] ↔ s.threadPool = [] := List.map_eq_nil_iff

variable [DecidableEq σ]

/-- The steps as the lifecycle sees them: a call to `query()`, a worker and an
`add_search_service` that throws change nothing. -/
inductive LifecycleStep (s : SearchProxy σ κ ρ) : Event σ κ ρ → SearchProxy σ κ ρ → Prop
  | same (e : Event σ κ ρ) (s' : SearchProxy σ κ ρ) (he : e ≠ .start)
      (he' : ∀ service, e ≠ .addPush service) (h : SameLifecycle s s') : LifecycleStep s e s'
  | addCheck (service : σ) (h : s.keepRunning = false) :
      LifecycleStep s (.addCheck service) { s with adding := s.adding ++ [service] }
  | addPush (service : σ) (h : service ∈ s.adding) (hs : s.stopping = false) :
      LifecycleStep s (.addPush service) { s with
        adding := s.adding.erase service
        searchServices := s.searchServices ++ [service] }
  | start (hs : s.stopping = false) (hp : s.threadPool = []) : LifecycleStep s .start { s with
      keepRunning := true
      threadPool := s.searchServices.map fun service => ⟨service, .looping⟩ }
  | startAbort (hs : s.stopping = false) (hp : s.threadPool ≠ []) :
      LifecycleStep s .start { s with keepRunning := true, aborted := true }
  | stopBegin (hs : s.stopping = false) :
      LifecycleStep s .stopBegin { s with keepRunning := false, stopping := true }
  | stopReturn (hs : s.stopping = true) :
      LifecycleStep s .stopReturn { s with threadPool := [], stopping := false }

theorem lifecycle_cases (h : s.step prog e = some s') : LifecycleStep s e s' := by
  cases step_cases prog h with
  | query client request =>
    exact .same _ _ (by simp) (by simp) ⟨rfl, rfl, rfl, rfl, rfl, rfl⟩
  | addThrow service hk => exact .same _ _ (by simp) (by simp) ⟨rfl, rfl, rfl, rfl, rfl, rfl⟩
  | addCheck service hk => exact .addCheck service hk
  | addPush service hmem hs => exact .addPush service hmem hs
  | start hs hp => exact .start hs hp
  | startAbort hs hp => exact .startAbort hs hp
  | stopBegin hs => exact .stopBegin hs
  | stopReturn hs hp => exact .stopReturn hs
  | loop w x hw | draw w x p hw | takeNone w x key j hw | done w x task hw =>
    exact .same _ _ (by simp) (by simp) ⟨rfl, rfl, workers_setPhase_eq hw _, rfl, rfl, rfl⟩
  | take w x key j task rest hw | hand w x task hw =>
    exact .same _ _ (by simp) (by simp) ⟨rfl, rfl, workers_setPhase_eq hw _, rfl, rfl, rfl⟩

/-- **What every step keeps.** -/
structure Sane (s : SearchProxy σ κ ρ) : Prop where
  stopping : s.stopping = true → s.keepRunning = false
  stopped : s.keepRunning = false → s.stopping = false → s.threadPool = []
  workers : s.workers <+: s.searchServices

theorem sane_step (hS : s.Sane) (h : s.step prog e = some s') : s'.Sane := by
  obtain ⟨hstopping, hstopped, hworkers⟩ := hS
  cases lifecycle_cases h with
  | same _ _ _ _ hsame =>
    refine ⟨?_, ?_, ?_⟩
    · rw [hsame.stopping, hsame.keepRunning]
      exact hstopping
    · rw [hsame.stopping, hsame.keepRunning, ← workers_eq_nil, hsame.workers, workers_eq_nil]
      exact hstopped
    · rw [hsame.workers, hsame.searchServices]
      exact hworkers
  | addCheck service hk => exact ⟨hstopping, hstopped, hworkers⟩
  | addPush service hmem hs =>
    exact ⟨hstopping, hstopped, hworkers.trans (List.prefix_append _ _)⟩
  | start hs hp =>
    refine ⟨?_, fun hk => ?_, ?_⟩
    · rw [hs]
      exact fun h => by cases h
    · cases hk
    · unfold workers
      rw [map_service_looping]
  | startAbort hs hp =>
    refine ⟨?_, fun hk => ?_, hworkers⟩
    · rw [hs]
      exact fun h => by cases h
    · cases hk
  | stopBegin hs => exact ⟨fun _ => rfl, fun _ h => (by cases h), hworkers⟩
  | stopReturn hs =>
    exact ⟨fun h => (by cases h), fun _ _ => rfl, List.nil_prefix⟩

omit [DecidableEq σ] in
theorem sane_init : (init : SearchProxy σ κ ρ).Sane :=
  ⟨fun h => (by cases h), fun _ _ => rfl, List.nil_prefix⟩

theorem sane_run {es : List (Event σ κ ρ)} (h : exec (step prog) init es = some s) : s.Sane :=
  exec_inv (I := Sane) sane_step sane_init h

/-! ## One worker for each service -/

/-- **A running proxy has exactly one worker per registered service**: no joinable thread has been
destroyed, the workers of a running proxy in which no call is in progress are those of its services,
a stopped one has none, and a call that throws leaves the services as they are. -/
structure OneWorkerEach (prog : Program κ ρ) (s : SearchProxy σ κ ρ) : Prop where
  noAbort : s.aborted = false
  running : s.keepRunning = true → s.adding = [] → s.stopping = false →
    s.workers = s.searchServices
  stopped : s.keepRunning = false → s.stopping = false → s.threadPool = []
  throws : s.keepRunning = true → ∀ service t, s.step prog (.addCheck service) = some t →
    t.searchServices = s.searchServices

/-- `start()` finds no workers, and no call pushes its service while the proxy runs, unless others
are still in progress after it. -/
def Orderly (s : SearchProxy σ κ ρ) (e : Event σ κ ρ) : Prop :=
  (e = .start → s.threadPool = []) ∧
    ∀ service, e = .addPush service → s.keepRunning = true → s.adding.erase service ≠ []

/-- No thread was destroyed, and each service of a running proxy has its worker, or there are calls
in progress. -/
def Manned (s : SearchProxy σ κ ρ) : Prop :=
  s.aborted = false ∧ (s.keepRunning = true → s.workers = s.searchServices ∨ s.adding ≠ [])

/-- **Orderly steps keep the proxy manned.** -/
theorem manned_step (hS : s.Sane) (hM : s.Manned) (ho : Orderly s e) (h : s.step prog e = some s') :
    s'.Manned := by
  obtain ⟨habort, hrun⟩ := hM
  cases lifecycle_cases h with
  | same _ _ _ _ hsame =>
    refine ⟨hsame.aborted.trans habort, ?_⟩
    rw [hsame.keepRunning, hsame.workers, hsame.searchServices, hsame.adding]
    exact hrun
  | addCheck service hk => exact ⟨habort, fun h => (by rw [hk] at h; cases h)⟩
  | addPush service hmem hs =>
    exact ⟨habort, fun hk => .inr (ho.2 service rfl hk)⟩
  | start hs hp =>
    exact ⟨habort, fun _ => .inl (map_service_looping s.searchServices)⟩
  | startAbort hs hp => exact absurd (ho.1 rfl) hp
  | stopBegin hs => exact ⟨habort, fun h => (by cases h)⟩
  | stopReturn hs =>
    refine ⟨habort, fun h => ?_⟩
    rw [hS.stopping hs] at h
    cases h

theorem oneWorkerEach_of_manned (hS : s.Sane) (hM : s.Manned) : OneWorkerEach prog s := by
  refine ⟨hM.1, ?_, hS.stopped, ?_⟩
  · intro hk hadding _
    rcases hM.2 hk with h | h
    · exact h
    · exact absurd hadding h
  · intro hk service t ht
    cases lifecycle_cases ht with
    | same _ _ _ _ hsame => exact hsame.searchServices
    | addCheck _ hk' => rfl

/-- **A step that is not orderly** destroys a worker, or leaves a service without one. -/
theorem orderly_of_oneWorkerEach (hS : s.Sane) (h : s.step prog e = some s')
    (hone : OneWorkerEach prog s') : Orderly s e := by
  constructor
  · rintro rfl
    cases lifecycle_cases h with
    | same _ _ he => exact absurd rfl he
    | start hs hp => exact hp
    | startAbort hs hp => exact absurd hone.noAbort (by simp)
  · rintro service rfl hk herase
    cases lifecycle_cases h with
    | same _ _ _ he => exact absurd rfl (he service)
    | addPush _ hmem hs =>
      -- there are as many workers as before, and one service more
      have hworkers : s.workers = s.searchServices ++ [service] := hone.running hk herase hs
      have hle := hS.workers.length_le
      rw [hworkers, List.length_append, List.length_singleton] at hle
      omega

/-- **Every state of a run has one worker per service exactly if** every step of the run is
orderly. -/
theorem oneWorkerEach_iff {es : List (Event σ κ ρ)} (h : exec (step prog) init es = some s) :
    (∀ bs t, bs <+: es → exec (step prog) init bs = some t → OneWorkerEach prog t) ↔
      Along (step prog) Orderly init es := by
  constructor
  · intro hone
    refine along_of_at_step ?_
    intro bs e cs t hes ht
    rw [hes] at h
    obtain ⟨t', ht', h⟩ := exec_append.1 h
    obtain rfl : t = t' := by
      rw [ht] at ht'
      exact Option.some.inj ht'
    obtain ⟨u, hu, -⟩ := exec_cons.1 h
    have hprefix : bs ++ [e] <+: es := ⟨cs, by rw [hes]; simp⟩
    exact orderly_of_oneWorkerEach (sane_run ht) hu
      (hone _ u hprefix (exec_append.2 ⟨t, ht, exec_singleton.2 hu⟩))
  · rintro horderly bs t ⟨cs, rfl⟩ ht
    have hinit : (init : SearchProxy σ κ ρ).Manned := ⟨rfl, fun h => (by cases h)⟩
    have hmanned : t.Sane ∧ t.Manned := by
      refine horderly.left.inv (I := fun s => s.Sane ∧ s.Manned) ?_
        ⟨sane_init, hinit⟩ ht
      rintro s e s' ⟨hS, hM⟩ ho hs
      exact ⟨sane_step hS hs, manned_step hS hM ho hs⟩
    exact oneWorkerEach_of_manned hmanned.1 hmanned.2

/-- A service is added and the proxy is started and stopped. -/
def orderlyEvents : List (Event Unit Unit Bool) :=
  [.addCheck (), .addPush (), .start, .stopBegin, .worker 0 .loop, .stopReturn]

theorem oneWorkerEach_iff_orderly :
    (∀ bs t, bs <+: orderlyEvents → exec (step twoRequests) init bs = some t →
      OneWorkerEach twoRequests t) ↔
      Along (step twoRequests) Orderly init orderlyEvents :=
  oneWorkerEach_iff (s := (exec (step twoRequests) init orderlyEvents).get (by decide +kernel))
    (Option.some_get _).symm

/-- A service is added, and the proxy is started twice. -/
def startedTwice : List (Event Unit Unit Bool) := [.addCheck (), .addPush (), .start, .start]

/-- A service passes the check, and is pushed after the start. -/
def addedLate : List (Event Unit Unit Bool) := [.addCheck (), .start, .addPush ()]

/-- The second start destroys a running worker, and a service that is pushed late has no worker. -/
theorem lifecycle_broken :
    (∃ s, exec (step twoRequests) init startedTwice = some s ∧ s.aborted = true ∧
      ¬ OneWorkerEach twoRequests s) ∧
    ∃ s, exec (step twoRequests) init addedLate = some s ∧ s.keepRunning = true ∧
      s.adding = [] ∧ s.stopping = false ∧ s.searchServices = [()] ∧ s.workers = [] ∧
      ¬ OneWorkerEach twoRequests s := by
  refine ⟨⟨(exec (step twoRequests) init startedTwice).get (by decide +kernel),
    (Option.some_get _).symm, by decide +kernel, ?_⟩,
    ⟨(exec (step twoRequests) init addedLate).get (by decide +kernel),
    (Option.some_get _).symm, by decide +kernel, by decide +kernel, by decide +kernel,
    by decide +kernel, by decide +kernel, ?_⟩⟩
  · intro h
    exact absurd h.noAbort (by decide +kernel)
  · intro h
    exact absurd (h.running (by decide +kernel) (by decide +kernel) (by decide +kernel))
      (by decide +kernel)

end SearchProxy

end MTFind2
