import MTFind2.Proof.Shutdown

/-!
# Every request can be served

While the proxy runs, its first worker alone can bring any request that waits to its answer:
it goes round its loop with draws for the class of the request until it takes it.

* `Attended`: no worker of a running proxy has left its loop.
* `exists_taking`, `exists_handing`: the worker gets to the queue of any class, and to any
  task in it, without a look at the tasks that are older.
* `exists_returned`: the call for a task gets to its end without a step of anybody else.
* `can_answer`: so from every state of every run every request can be answered, while all older
  ones of its class wait.
-/

namespace MTFind2

open Run SearchProxy

namespace SearchProxy

variable {σ κ ρ : Type} {prog : Program κ ρ} {p p' : SearchProxy σ κ ρ} {e : Event σ κ ρ}

/-- No worker of a running proxy has left its loop. -/
def Attended (p : SearchProxy σ κ ρ) : Prop :=
  p.aborted = false → p.keepRunning = true → ∀ x ∈ p.threadPool, x.hasExited = false

theorem attended_setPhase (h : p.Attended) {w : ℕ} {x : Worker σ κ ρ} (phase : WorkerPhase κ ρ)
    (hphase : p.keepRunning = true → phase ≠ .exited) : (p.setPhase w x phase).Attended := by
  intro ha hk y hy
  rcases List.mem_or_eq_of_mem_set hy with hy | rfl
  · exact h ha hk y hy
  · cases phase with
    | exited => exact absurd rfl (hphase hk)
    | looping | drawing | taking | handing | querying => rfl

/-- **Workers leave their loops only when the proxy is stopped.** -/
theorem attended_step [DecidableEq σ] (h : p.Attended) (hs : p.step prog e = some p') :
    p'.Attended := by
  cases step_cases prog hs with
  | query | addThrow | addCheck | addPush => exact h
  | start hs hp =>
    intro _ _ x hx
    obtain ⟨service, -, rfl⟩ := List.mem_map.1 hx
    rfl
  | startAbort => exact fun ha => by cases ha
  | stopBegin => exact fun _ hk => by cases hk
  | stopReturn => exact fun _ _ x hx => absurd hx List.not_mem_nil
  | loop w x hw hx =>
    refine attended_setPhase h _ ?_
    intro hk
    rw [if_pos hk]
    simp
  | draw | takeNone | done => exact attended_setPhase h _ fun _ => by simp
  | take w x key j task rest => exact attended_setPhase h (.handing task) fun _ => by simp
  | hand w x task => exact attended_setPhase h (.querying task) fun _ => by simp

/-- The worker that moves is in its new phase. -/
theorem getElem?_setPhase {w : ℕ} {x : Worker σ κ ρ} (hw : p.threadPool[w]? = some x)
    (phase : WorkerPhase κ ρ) : (p.setPhase w x phase).threadPool[w]? = some { x with phase } := by
  obtain ⟨hlt, -⟩ := List.getElem?_eq_some_iff.1 hw
  simp [setPhase, hlt]

end SearchProxy

/-- The number that a worker draws to get to the queue for a key. -/
def drawFor : SubscriptionType → ℚ
  | .premium => 0
  | .standard => 1

theorem drawnKey_drawFor (key : SubscriptionType) : drawnKey (drawFor key) = key := by
  cases key <;> decide +kernel

/-- The steps of the workers and of the calls they make. -/
def Action.serves : Action → Bool
  | .worker _ _ | .caller _ | .thread _ _ => true
  | .interrupt | .main | .mock => false

namespace Process

variable {env : Environment} {s s' t : Process} {a : Action} {as : List Action} {n : ℕ}

/-- A step of the process is a step of its proxy, or leaves it as it is. -/
theorem proxy_step (h : Inv env s) (hs : s.step env a = some s') :
    s'.searchProxy = s.searchProxy ∨
      ∃ e, s.searchProxy.step env.program e = some s'.searchProxy := by
  cases step_cases hs with
  | interrupt | spawnMock | joinMock | mockLoop | roundDone | wake | caller | thread =>
    exact .inl rfl
  | addThrow k p hm hk => exact absurd hk (h.main.not_running hm)
  | addCheck k p hm hlt hp => exact .inr ⟨_, hp⟩
  | addPush k p hm hp | start p hm hp | stopBegin p hm hp | stopReturn p hm hp =>
    exact .inr ⟨_, hp⟩
  | submit i p hm hlt hp => exact .inr ⟨_, hp⟩
  | hand w k task action p hw hp | done w k task action p hw hret hp
  | worker w x action p hw hhand hquery hp => exact .inr ⟨_, hp⟩

/-! ## While the proxy runs -/

/-- What every state of a run is like, with its workers. -/
structure Staffed (env : Environment) (s : Process) : Prop extends Live env s where
  attended : s.searchProxy.Attended

theorem staffed_step (h : Staffed env s) (hs : s.step env a = some s') : Staffed env s' := by
  refine ⟨live_step h.toLive hs, ?_⟩
  rcases proxy_step h.inv hs with heq | ⟨e, he⟩
  · rw [heq]
    exact h.attended
  · exact attended_step h.attended he

theorem staffed_run (h : exec (step env) (init env) as = some s) : Staffed env s :=
  exec_inv staffed_step ⟨live_init, fun _ hk => by cases hk⟩ h

/-- The proxy runs: the main thread has started it, and has not begun to stop it. -/
structure Serving (env : Environment) (s : Process) : Prop extends Staffed env s where
  running : s.searchProxy.keepRunning = true

/-- What the main thread, the mock thread and the signal handler are responsible for is the same. -/
structure SameControl (s t : Process) : Prop where
  main : t.mainThread = s.mainThread
  mock : t.mockThread = s.mockThread
  keepRunning : t.keepRunning = s.keepRunning
  submitted : t.searchProxy.submitted = s.searchProxy.submitted
  running : t.searchProxy.keepRunning = s.searchProxy.keepRunning

theorem sameControl_step (ha : a.serves = true) (hs : s.step env a = some s') :
    SameControl s s' := by
  cases step_cases hs with
  | interrupt | addThrow | addCheck | spawnMock | addPush | start | joinMock => cases ha
  | stopBegin | stopReturn | mockLoop | submit | roundDone | wake => cases ha
  | hand w k task action p hw hp | done w k task action p hw hret hp
  | worker w x action p hw hhand hquery hp =>
    exact ⟨rfl, rfl, rfl, submitted_eq hp rfl, (same_worker hp).keepRunning⟩
  | caller n call service t hc hk ht => exact ⟨rfl, rfl, rfl, rfl, rfl⟩
  | thread n i pool hi => exact ⟨rfl, rfl, rfl, rfl, rfl⟩

/-- The workers and the calls they make lead from `s` to `t`. -/
def Works (env : Environment) (s t : Process) : Prop :=
  Leads (step env) (fun a => a.serves = true) s t

theorem Works.control (h : Works env s t) : SameControl s t := by
  refine Leads.inv (I := SameControl s) ?_ ⟨rfl, rfl, rfl, rfl, rfl⟩ h
  intro u a v hu ha hs
  have hv := sameControl_step ha hs
  exact ⟨hv.main.trans hu.main, hv.mock.trans hu.mock, hv.keepRunning.trans hu.keepRunning,
    hv.submitted.trans hu.submitted, hv.running.trans hu.running⟩

theorem Works.serving (h : Works env s t) (hs : Serving env s) : Serving env t :=
  ⟨Leads.inv (I := Staffed env) (fun hi _ hv => staffed_step hi hv) hs.toStaffed h,
    h.control.running.trans hs.running⟩

/-- A running proxy has its workers, whether or not the mock thread has ended. -/
theorem Serving.stands (h : Serving env s) : s.searchProxy.Stands true false
    (List.range env.hardwareConcurrency) [] (List.range env.hardwareConcurrency) := by
  have hlife := h.inv.main.lifecycle
  have hrun := h.running
  unfold MainPhase.Lifecycle at hlife
  split at hlife
  case h_4 | h_5 => exact hlife
  case h_1 | h_2 =>
    rw [hlife.2.keepRunning] at hrun
    cases hrun
  case h_3 | h_6 | h_7 =>
    rw [hlife.keepRunning] at hrun
    cases hrun

theorem Serving.exists_worker (h : Serving env s) (hcores : 0 < env.hardwareConcurrency) :
    ∃ x, s.searchProxy.threadPool[0]? = some x ∧ x.phase ≠ .exited := by
  have hlen : s.searchProxy.threadPool.length = env.hardwareConcurrency := by
    have hworkers := congrArg List.length h.stands.workers
    rwa [workers, List.length_map, List.length_range] at hworkers
  have hlt : 0 < s.searchProxy.threadPool.length := by omega
  refine ⟨s.searchProxy.threadPool[0], List.getElem?_eq_getElem hlt, ?_⟩
  intro hphase
  have hex := h.attended h.inv.aborted h.stands.keepRunning _ (List.getElem_mem hlt)
  rw [Worker.hasExited, hphase] at hex
  cases hex

/-! ## The call for a task gets to its end -/

/-- **A call can be brought to its end by itself**, on short texts and with non-empty queries. -/
theorem exists_returned_call (henv : env.Tame) (h : Live env s) {call : QueryCall}
    (hc : s.calls n = some call) : ∃ t, Works env s t ∧ t.searchProxy = s.searchProxy ∧
      t.hasReturned n = true := by
  have hreach : ∃ t, Leads (step env) (fun a => a.serves = true) s t ∧
      (Live env t ∧ t.searchProxy = s.searchProxy ∧ t.calls n ≠ none) ∧
      t.hasReturned n = true := by
    refine exists_reach
      (I := fun t => Live env t ∧ t.searchProxy = s.searchProxy ∧ t.calls n ≠ none)
      (μ := fun t => (t.callState env n).rank n (env.request n) env.contentSources) ?_
      ⟨h, rfl, by simp [hc]⟩
    rintro u ⟨hl, hproxy, hsome⟩ hret
    obtain ⟨c, hc⟩ := Option.ne_none_iff_exists'.1 hsome
    have hactive : c.phase ≠ .returned := by
      intro hphase
      exact hret (by simp [hasReturned, hc, hphase])
    obtain ⟨a, m, hm, hmove⟩ := call_progress hl hc hactive
    obtain ⟨v, hv⟩ := Option.ne_none_iff_exists'.1 hmove
    have hcall := ofCall_move [a] n m (by simp [hm])
    have hstep := (callState_step hl.inv hl.apart hv n).2 m hm
    have hrank := (Service.ready_step (hl.ready n) hstep fun _ => hcall).2 (henv.limits n)
    rw [if_pos hcall] at hrank
    have hkept : a.serves = true ∧ v.searchProxy = u.searchProxy ∧ v.calls n ≠ none := by
      cases step_cases hv with
      | interrupt | addThrow | addCheck | spawnMock | addPush | start | joinMock => cases hm
      | stopBegin | stopReturn | mockLoop | submit | roundDone | wake => cases hm
      | hand | done | worker => cases hm
      | caller k d service t hd hk ht =>
        refine ⟨rfl, rfl, ?_⟩
        by_cases hn : n = k
        · simp [store, hn]
        · simp [store, hn, hc]
      | thread k i pool hi => exact ⟨rfl, rfl, hsome⟩
    exact ⟨a, v, hkept.1, hv, ⟨live_step hl hv, hkept.2.1.trans hproxy, hkept.2.2⟩, by omega⟩
  obtain ⟨t, ht, ⟨-, hproxy, -⟩, hret⟩ := hreach
  exact ⟨t, ht, hproxy, hret⟩

/-! ## The worker gets to the queue of a class -/

/-- A worker outside of a call takes a step of the proxy. -/
theorem step_worker_eq (h : Inv env s) {w : ℕ} {x : Worker ℕ ℕ ℕ} (action : WorkerAction)
    {p : SearchProxy ℕ ℕ ℕ} (hw : s.searchProxy.threadPool[w]? = some x)
    (hp : s.searchProxy.workerStep env.program w x x.phase action = some p)
    (hhand : ∀ task, x.phase ≠ .handing task) (hquery : ∀ task, x.phase ≠ .querying task) :
    s.step env (.worker w action) = some { s with searchProxy := p } := by
  have hproxy : s.searchProxy.step env.program (.worker w action) = some p := by
    simp [SearchProxy.step, h.aborted, hw, hp]
  obtain ⟨service, phase⟩ := x
  simp only [step, h.aborted, stepWorker, hproxy, hw, Option.bind_some]
  cases phase with
  | handing task => exact absurd rfl (hhand task)
  | querying task => exact absurd rfl (hquery task)
  | looping | drawing | taking | exited => simp

/-- A worker hands its task over, and is in the call for it. -/
theorem exists_handed (h : Inv env s) {w service : ℕ} {task : SearchTask ℕ ℕ}
    (hw : s.searchProxy.threadPool[w]? = some ⟨service, .handing task⟩) :
    ∃ t, s.step env (.worker w .hand) = some t ∧ t.searchProxy.queues = s.searchProxy.queues ∧
      t.searchProxy.threadPool[w]? = some ⟨service, .querying task⟩ ∧
      t.calls task.ticket ≠ none := by
  let p : SearchProxy ℕ ℕ ℕ :=
    { s.searchProxy.setPhase w ⟨service, .handing task⟩ (.querying task) with
      handed := s.searchProxy.handed ++ [(service, task)] }
  let calls := Function.update s.calls task.ticket (some ⟨service, task, .called, []⟩)
  have hstep : s.step env (.worker w .hand) = some { s with searchProxy := p, calls } := by
    simp [step, stepWorker, SearchProxy.step, workerStep, h.aborted, hw, p, calls]
  have hphase : p.threadPool[w]? = some ⟨service, .querying task⟩ := getElem?_setPhase hw _
  exact ⟨_, hstep, rfl, hphase, by simp [calls]⟩

/-- A worker takes a newest task of a queue. -/
theorem exists_take (h : Serving env s) {x : Worker ℕ ℕ ℕ} {key : SubscriptionType} {w : ℕ}
    (hw : s.searchProxy.threadPool[w]? = some x) (hx : x.phase = .taking key)
    (hne : s.searchProxy.queues key ≠ []) :
    ∃ t task, Works env s t ∧
      t.searchProxy.threadPool[w]? = some ⟨x.service, .handing task⟩ ∧
      (s.searchProxy.queues key : Multiset (SearchTask ℕ ℕ)) =
        task ::ₘ (t.searchProxy.queues key : Multiset (SearchTask ℕ ℕ)) ∧
      (∀ u ∈ s.searchProxy.queues key,
        timestamp env.program u ≤ timestamp env.program task) ∧
      ∀ k, k ≠ key → t.searchProxy.queues k = s.searchProxy.queues k := by
  obtain ⟨j, ⟨task, rest⟩, hpop⟩ :=
    PriorityQueue.exists_pop (@searchTaskCompare_iff _ _ env.program) hne
  let p : SearchProxy ℕ ℕ ℕ := { s.searchProxy.setPhase w x (.handing task) with
    queues := Function.update s.searchProxy.queues key rest }
  have hstep : s.step env (.worker w (.take j)) = some { s with searchProxy := p } := by
    refine step_worker_eq h.inv (.take j) hw ?_ (by simp [hx]) (by simp [hx])
    rw [hx]
    simp only [workerStep, if_neg hne, hpop, Option.map_some, p]
  have hphase : p.threadPool[w]? = some ⟨x.service, .handing task⟩ := getElem?_setPhase hw _
  have hrest : p.queues key = rest := Function.update_self ..
  have hother : ∀ k, k ≠ key → p.queues k = s.searchProxy.queues k :=
    fun k hk => Function.update_of_ne hk ..
  refine ⟨_, task, .single rfl hstep, hphase, ?_, ?_, hother⟩
  · rw [hrest]
    exact PriorityQueue.popAt_cons hpop
  · obtain ⟨-, htop, -⟩ := PriorityQueue.popAt_eq_some.1 hpop
    exact (PriorityQueue.isTop_iff searchTaskCompare_iff).1 htop

/-- Worker 0 is about to take a task for `key`, and the queue is as in `s`. -/
def Taking (key : SubscriptionType) (s t : Process) : Prop :=
  t.searchProxy.queues key = s.searchProxy.queues key ∧
    ∃ x, t.searchProxy.threadPool[0]? = some x ∧ x.phase = .taking key

variable {x : Worker ℕ ℕ ℕ} {key : SubscriptionType}

theorem exists_taking_drawing (h : Serving env s) (hw : s.searchProxy.threadPool[0]? = some x)
    (hx : x.phase = .drawing) (key : SubscriptionType) : ∃ t, Works env s t ∧ Taking key s t := by
  have hstep := step_worker_eq h.inv (.draw (drawFor key)) hw (by rw [hx]; rfl)
    (by simp [hx]) (by simp [hx])
  rw [drawnKey_drawFor] at hstep
  exact ⟨_, .single rfl hstep, rfl, _, getElem?_setPhase hw _, rfl⟩

theorem exists_taking_looping (h : Serving env s) (hw : s.searchProxy.threadPool[0]? = some x)
    (hx : x.phase = .looping) (key : SubscriptionType) : ∃ t, Works env s t ∧ Taking key s t := by
  have hstep := step_worker_eq h.inv .loop hw (by rw [hx]; rfl) (by simp [hx])
    (by simp [hx])
  rw [h.stands.keepRunning, if_pos rfl] at hstep
  have hworks : Works env s _ := .single rfl hstep
  obtain ⟨t, ht, htaking⟩ :=
    exists_taking_drawing (hworks.serving h) (getElem?_setPhase hw _) rfl key
  exact ⟨t, hworks.trans ht, htaking⟩

/-- The worker ends the call that it is in. -/
theorem exists_taking_querying (henv : env.Tame) (h : Serving env s)
    {service : ℕ} {task : SearchTask ℕ ℕ}
    (hw : s.searchProxy.threadPool[0]? = some ⟨service, .querying task⟩)
    (key : SubscriptionType) : ∃ t, Works env s t ∧ Taking key s t := by
  obtain ⟨call, hc, -⟩ := h.inv.calls.called _ (h.inv.calls.querying 0 service task hw)
  obtain ⟨u, hu, hproxy, hret⟩ := exists_returned_call henv h.toLive hc
  have hserving := hu.serving h
  have hw' : u.searchProxy.threadPool[0]? = some ⟨service, .querying task⟩ := by rw [hproxy, hw]
  have hstep : u.step env (.worker 0 .done) =
      some { u with
        searchProxy := u.searchProxy.setPhase 0 ⟨service, .querying task⟩ .looping } := by
    have hret' : u.hasReturned task.ticket = true := hret
    simp [step, stepWorker, SearchProxy.step, workerStep, hserving.inv.aborted, hw', hret']
  have hworks : Works env s _ := hu.trans (.single rfl hstep)
  obtain ⟨t, ht, hqueue, htaking⟩ :=
    exists_taking_looping (hworks.serving h) (getElem?_setPhase hw' _) rfl key
  refine ⟨t, hworks.trans ht, ?_, htaking⟩
  rw [hqueue]
  exact congrArg (fun p => p.queues key) hproxy

/-- The worker hands its task over. -/
theorem exists_taking_handing (henv : env.Tame) (h : Serving env s)
    {service : ℕ} {task : SearchTask ℕ ℕ}
    (hw : s.searchProxy.threadPool[0]? = some ⟨service, .handing task⟩)
    (key : SubscriptionType) : ∃ t, Works env s t ∧ Taking key s t := by
  obtain ⟨u, hstep, hqueues, hw', -⟩ := exists_handed h.inv hw
  have hworks : Works env s u := .single rfl hstep
  obtain ⟨t, ht, hqueue, htaking⟩ := exists_taking_querying henv (hworks.serving h) hw' key
  exact ⟨t, hworks.trans ht, hqueue.trans (congrFun hqueues key), htaking⟩

/-- **The worker gets to the queue of any class**, and leaves that queue as it is on the way. -/
theorem exists_taking (henv : env.Tame) (hcores : 0 < env.hardwareConcurrency) (h : Serving env s)
    (key : SubscriptionType) : ∃ t, Works env s t ∧ Taking key s t := by
  obtain ⟨⟨service, phase⟩, hw, hexited⟩ := h.exists_worker hcores
  cases phase with
  | looping => exact exists_taking_looping h hw rfl key
  | drawing => exact exists_taking_drawing h hw rfl key
  | handing task => exact exists_taking_handing henv h hw key
  | querying task => exact exists_taking_querying henv h hw key
  | exited => exact absurd rfl hexited
  | taking k =>
    by_cases hk : k = key
    · subst hk
      exact ⟨s, .refl s, rfl, _, hw, rfl⟩
    · by_cases hq : s.searchProxy.queues k = []
      · -- nothing to take in the other queue
        have hstep := step_worker_eq h.inv (.take 0) hw
          (by simp only [workerStep, hq, if_pos]; rfl) (by simp) (by simp)
        have hworks : Works env s _ := .single rfl hstep
        obtain ⟨t, ht, hqueue, htaking⟩ :=
          exists_taking_looping (hworks.serving h) (getElem?_setPhase hw _) rfl key
        exact ⟨t, hworks.trans ht, hqueue, htaking⟩
      · -- a task from the other queue, which is served first
        obtain ⟨u, task, hworks, hw', -, -, hother⟩ := exists_take h hw rfl hq
        obtain ⟨t, ht, hqueue, htaking⟩ :=
          exists_taking_handing henv (hworks.serving h) hw' key
        exact ⟨t, hworks.trans ht, hqueue.trans (hother key (Ne.symm hk)), htaking⟩

/-! ## The worker gets to any task -/

/-- **Any task in a queue can be taken**, and all older ones are left in it: a task is only taken
before this one if it is at least as new. -/
theorem exists_handing (henv : env.Tame) (hcores : 0 < env.hardwareConcurrency)
    {task : SearchTask ℕ ℕ} (h : Serving env s) (htask : task ∈ s.searchProxy.queues key) :
    ∃ (t : Process) (w service : ℕ), Works env s t ∧
      t.searchProxy.threadPool[w]? = some ⟨service, .handing task⟩ ∧
      ∀ u ∈ s.searchProxy.queues key,
        timestamp env.program u < timestamp env.program task → u ∈ t.searchProxy.queues key := by
  induction hlen : (s.searchProxy.queues key).length using Nat.strong_induction_on
    generalizing s with
  | _ n ih =>
    obtain ⟨s₁, hworks₁, hqueue, x, hw, hx⟩ := exists_taking henv hcores h key
    have hne : s₁.searchProxy.queues key ≠ [] := by
      rw [hqueue]
      exact List.ne_nil_of_mem htask
    obtain ⟨s₂, first, hworks₂, hw', hcons, htop, -⟩ := exists_take (hworks₁.serving h) hw hx hne
    have hworks : Works env s s₂ := hworks₁.trans hworks₂
    rw [hqueue] at hcons htop
    have hstays : ∀ u ∈ s.searchProxy.queues key, u ≠ first → u ∈ s₂.searchProxy.queues key := by
      intro u hu hne
      rw [← Multiset.mem_coe, hcons] at hu
      exact (Multiset.mem_cons.1 hu).resolve_left hne
    have holder : ∀ u, timestamp env.program u < timestamp env.program task → u ≠ first := by
      rintro u hlt rfl
      exact absurd (htop task htask) (not_le.2 hlt)
    by_cases hfirst : first = task
    · rw [hfirst] at hw'
      exact ⟨s₂, 0, x.service, hworks, hw', fun u hu hlt => hstays u hu (holder u hlt)⟩
    · have hlt : (s₂.searchProxy.queues key).length < n := by
        have hcard := congrArg Multiset.card hcons
        simp only [Multiset.coe_card, Multiset.card_cons] at hcard
        omega
      obtain ⟨t, w, service, ht, hheld, hkept⟩ := ih _ hlt (hworks.serving h)
        (hstays task htask (Ne.symm hfirst)) rfl
      exact ⟨t, w, service, hworks.trans ht, hheld,
        fun u hu hnow => hkept u (hstays u hu (holder u hnow)) hnow⟩

/-- Request `n` waits in the queue of its class. -/
def Waiting (env : Environment) (s : Process) (n : ℕ) : Prop :=
  (⟨n, n, n⟩ : SearchTask ℕ ℕ) ∈ s.searchProxy.queues (env.program.subscriptionType n)

instance : Decidable (s.Waiting env n) := inferInstanceAs (Decidable (_ ∈ _))

/-- Request `b` is one of the class of request `a`, made later by their time stamps. -/
def Overtakes (env : Environment) (b a : ℕ) : Prop :=
  env.program.subscriptionType b = env.program.subscriptionType a ∧
    (env.draws a).now < (env.draws b).now

theorem request_timestamp (env : Environment) (n : ℕ) :
    (env.request n).timestamp = (env.draws n).now := by
  simp [Environment.request, SearchRequest.createRandom, Dictionary.randomWord]

/-- **Where a request is**: it waits, a worker holds it, or a call was made for it. -/
theorem Inv.submitted_cases (h : Inv env s) (hn : n < s.searchProxy.submitted.length) :
    s.Waiting env n ∨
      (∃ w service : ℕ, s.searchProxy.threadPool[w]? = some ⟨service, .handing ⟨n, n, n⟩⟩) ∨
      s.calls n ≠ none := by
  have htickets : n ∈ s.searchProxy.submitted.map SearchTask.ticket := by
    rw [h.conserved.tickets]
    exact List.mem_range.2 hn
  obtain ⟨task, htask, hticket⟩ := List.mem_map.1 htickets
  obtain rfl : task = ⟨n, n, n⟩ := by
    rw [← hticket]
    exact (h.submitted_eq htask).1
  have hmem : (⟨n, n, n⟩ : SearchTask ℕ ℕ) ∈
      (s.searchProxy.submitted : Multiset (SearchTask ℕ ℕ)) := htask
  rw [h.conserved.sum] at hmem
  rcases Multiset.mem_add.1 hmem with hmem | hhanded
  · rcases Multiset.mem_add.1 hmem with hqueued | hheld
    · left
      have hkey : ∃ key, (⟨n, n, n⟩ : SearchTask ℕ ℕ) ∈ s.searchProxy.queues key := by
        rcases Multiset.mem_add.1 hqueued with hq | hq
        · exact ⟨.premium, hq⟩
        · exact ⟨.standard, hq⟩
      obtain ⟨key, hkey⟩ := hkey
      have hclass : env.program.subscriptionType n = key := h.conserved.classes key _ hkey
      rwa [Waiting, hclass]
    · right
      left
      obtain ⟨⟨service, phase⟩, hx, hholding⟩ := List.mem_filterMap.1 hheld
      obtain ⟨w, hw⟩ := List.getElem?_of_mem hx
      cases phase with
      | handing task =>
        cases hholding
        exact ⟨w, service, hw⟩
      | looping | drawing | taking | querying | exited => cases hholding
  · right
    right
    obtain ⟨x, hx, hxtask⟩ := List.mem_map.1 hhanded
    obtain ⟨call, hc, -⟩ := h.calls.called x hx
    rw [hxtask] at hc
    simp [hc]

/-- A call for a request that was handed over gets to its end, and no queue changes. -/
theorem exists_returned_handed (henv : env.Tame) (h : Serving env s) (hc : s.calls n ≠ none) :
    ∃ t, Works env s t ∧ t.hasReturned n = true ∧
      t.searchProxy.queues = s.searchProxy.queues := by
  obtain ⟨call, hcall⟩ := Option.ne_none_iff_exists'.1 hc
  obtain ⟨t, ht, hproxy, hret⟩ := exists_returned_call henv h.toLive hcall
  exact ⟨t, ht, hret, by rw [hproxy]⟩

/-- A request that a worker holds is handed over. -/
theorem exists_returned_held (henv : env.Tame) (h : Serving env s) {w service : ℕ}
    (hw : s.searchProxy.threadPool[w]? = some ⟨service, .handing ⟨n, n, n⟩⟩) :
    ∃ t, Works env s t ∧ t.hasReturned n = true ∧
      t.searchProxy.queues = s.searchProxy.queues := by
  obtain ⟨u, hstep, hqueues, -, hcalls⟩ := exists_handed h.inv hw
  have hworks : Works env s u := .single rfl hstep
  obtain ⟨t, ht, hret, hsame⟩ := exists_returned_handed henv (hworks.serving h) hcalls
  exact ⟨t, hworks.trans ht, hret, hsame.trans hqueues⟩

/-- **A request submitted can be answered**, while all older ones of its class wait. -/
theorem exists_returned_request (henv : env.Tame) (hcores : 0 < env.hardwareConcurrency)
    (h : Serving env s) (hn : n < s.searchProxy.submitted.length) :
    ∃ t, Works env s t ∧ t.hasReturned n = true ∧
      ∀ a, Overtakes env n a → s.Waiting env a → t.Waiting env a := by
  rcases h.inv.submitted_cases hn with hwaits | ⟨w, service, hw⟩ | hc
  · obtain ⟨u, w, service, hu, hw, holder⟩ := exists_handing henv hcores h hwaits
    obtain ⟨t, ht, hret, hsame⟩ := exists_returned_held henv (hu.serving h) hw
    refine ⟨t, hu.trans ht, hret, ?_⟩
    rintro a ⟨hclass, hnow⟩ ha
    unfold Waiting at ha ⊢
    rw [← hclass] at ha ⊢
    rw [hsame]
    refine holder _ ha ?_
    simpa only [timestamp, Environment.program, request_timestamp] using hnow
  · obtain ⟨t, ht, hret, hsame⟩ := exists_returned_held henv h hw
    exact ⟨t, ht, hret, fun a _ ha => by rwa [Waiting, hsame]⟩
  · obtain ⟨t, ht, hret, hsame⟩ := exists_returned_handed henv h hc
    exact ⟨t, ht, hret, fun a _ ha => by rwa [Waiting, hsame]⟩

/-- **Every request can be answered**, on short texts and with non-empty queries: from every state
of every run in which the proxy runs, the workers and their calls alone can bring any request that
was submitted to its answer, while every older request of its class that waits goes on waiting. -/
theorem can_answer (henv : env.Tame) (hcores : 0 < env.hardwareConcurrency)
    (h : exec (step env) (init env) as = some s) (hrun : s.searchProxy.keepRunning = true)
    (hn : n < s.searchProxy.submitted.length) :
    ∃ bs t, (∀ a ∈ bs, a.serves = true) ∧ exec (step env) s bs = some t ∧
      t.hasReturned n = true ∧ ∀ a, Overtakes env n a → s.Waiting env a → t.Waiting env a := by
  obtain ⟨t, ht, hret, holder⟩ :=
    exists_returned_request henv hcores ⟨staffed_run h, hrun⟩ hn
  obtain ⟨bs, hbs, hexec⟩ := ht.exists_exec
  exact ⟨bs, t, hbs, hexec, hret, holder⟩

theorem can_answer_sample :
    ∃ bs t, (∀ a ∈ bs, a.serves = true) ∧ exec (step sampleEnvironment) sampleProcess bs = some t ∧
      t.hasReturned 12 = true ∧
      ∀ a, Overtakes sampleEnvironment 12 a → sampleProcess.Waiting sampleEnvironment a →
        t.Waiting sampleEnvironment a :=
  can_answer sampleEnvironment_tame Nat.one_pos sampleProcess_run (by decide +kernel)
    (by decide +kernel)

end Process

end MTFind2
