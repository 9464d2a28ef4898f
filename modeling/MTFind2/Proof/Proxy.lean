import MTFind2.Lib.Run
import MTFind2.Spec.Proxy

/-!
# The search proxy loses no request

`Step` lists the steps of the proxy, one constructor for each. The invariant
(`Conserved`) is that the tasks submitted are those in the two queues, those held by
a worker and those handed to a service, each in one place.

* `conserved_step`, `conserved_run`: the invariant is kept.
* `worker_progress`, `leaves_queue`: a worker is never stuck, and a task leaves a queue
  only when a worker takes it.
* `quiet_step`, `quiet_run`: without workers no task leaves a queue.
* `nothing_lost`: what follows for every run.
* `take_newest`, `take_least_iff`: the task taken is a newest one of its queue, so it is
  an oldest one only if all have one time stamp; `oldest_first_iff`: the same over runs.
-/

namespace MTFind2

open Run PriorityQueue

/-- The client and the request that a step submits. -/
def Event.submission {σ κ ρ : Type} : Event σ κ ρ → Option (κ × ρ)
  | .query client request => some (client, request)
  | _ => none

namespace SearchProxy

variable {σ κ ρ : Type} (prog : Program κ ρ) {s s' : SearchProxy σ κ ρ} {e : Event σ κ ρ}

section Steps

variable [DecidableEq σ]

/-- The steps of the proxy. -/
inductive Step (s : SearchProxy σ κ ρ) : Event σ κ ρ → SearchProxy σ κ ρ → Prop
  | query (client : κ) (request : ρ) : Step s (.query client request) { s with
      queues := Function.update s.queues (prog.subscriptionType client)
        (s.queues (prog.subscriptionType client) ++ [⟨client, request, s.submitted.length⟩])
      submitted := s.submitted ++ [⟨client, request, s.submitted.length⟩] }
  | addThrow (service : σ) (h : s.keepRunning = true) : Step s (.addCheck service) s
  | addCheck (service : σ) (h : s.keepRunning = false) :
      Step s (.addCheck service) { s with adding := s.adding ++ [service] }
  | addPush (service : σ) (h : service ∈ s.adding) (hs : s.stopping = false) :
      Step s (.addPush service) { s with
        adding := s.adding.erase service
        searchServices := s.searchServices ++ [service] }
  | start (hs : s.stopping = false) (hp : s.threadPool = []) : Step s .start { s with
      keepRunning := true
      threadPool := s.searchServices.map fun service => ⟨service, .looping⟩ }
  | startAbort (hs : s.stopping = false) (hp : s.threadPool ≠ []) :
      Step s .start { s with keepRunning := true, aborted := true }
  | stopBegin (hs : s.stopping = false) :
      Step s .stopBegin { s with keepRunning := false, stopping := true }
  | stopReturn (hs : s.stopping = true) (hp : s.threadPool.all Worker.hasExited = true) :
      Step s .stopReturn { s with threadPool := [], stopping := false }
  | loop (w : ℕ) (x : Worker σ κ ρ) (hw : s.threadPool[w]? = some x) (hx : x.phase = .looping) :
      Step s (.worker w .loop) (s.setPhase w x (if s.keepRunning then .drawing else .exited))
  | draw (w : ℕ) (x : Worker σ κ ρ) (p : ℚ) (hw : s.threadPool[w]? = some x)
      (hx : x.phase = .drawing) :
      Step s (.worker w (.draw p)) (s.setPhase w x (.taking (drawnKey p)))
  | takeNone (w : ℕ) (x : Worker σ κ ρ) (key : SubscriptionType) (j : ℕ)
      (hw : s.threadPool[w]? = some x) (hx : x.phase = .taking key) (hq : s.queues key = []) :
      Step s (.worker w (.take j)) (s.setPhase w x .looping)
  | take (w : ℕ) (x : Worker σ κ ρ) (key : SubscriptionType) (j : ℕ) (task : SearchTask κ ρ)
      (rest : List (SearchTask κ ρ)) (hw : s.threadPool[w]? = some x) (hx : x.phase = .taking key)
      (hpop : popAt (SearchTaskCompare prog) (s.queues key) j = some (task, rest)) :
      Step s (.worker w (.take j))
        { s.setPhase w x (.handing task) with queues := Function.update s.queues key rest }
  | hand (w : ℕ) (x : Worker σ κ ρ) (task : SearchTask κ ρ) (hw : s.threadPool[w]? = some x)
      (hx : x.phase = .handing task) : Step s (.worker w .hand)
        { s.setPhase w x (.querying task) with handed := s.handed ++ [(x.service, task)] }
  | done (w : ℕ) (x : Worker σ κ ρ) (task : SearchTask κ ρ) (hw : s.threadPool[w]? = some x)
      (hx : x.phase = .querying task) : Step s (.worker w .done) (s.setPhase w x .looping)

theorem workerStep_cases {w : ℕ} {x : Worker σ κ ρ} {phase : WorkerPhase κ ρ}
    {action : WorkerAction} (hw : s.threadPool[w]? = some x) (hx : x.phase = phase)
    (h : s.workerStep prog w x phase action = some s') : Step prog s (.worker w action) s' := by
  cases phase with
  | looping =>
    cases action with
    | loop => cases h; exact .loop w x hw hx
    | _ => cases h
  | drawing =>
    cases action with
    | draw p => cases h; exact .draw w x p hw hx
    | _ => cases h
  | taking key =>
    cases action with
    | take j =>
      simp only [workerStep] at h
      split at h
      · rename_i hq
        cases h
        exact .takeNone w x key j hw hx hq
      · obtain ⟨⟨task, rest⟩, hpop, h⟩ := Option.map_eq_some_iff.1 h
        cases h
        exact .take w x key j task rest hw hx hpop
    | _ => cases h
  | handing task =>
    cases action with
    | hand => cases h; exact .hand w x task hw hx
    | _ => cases h
  | querying task =>
    cases action with
    | done => cases h; exact .done w x task hw hx
    | _ => cases h
  | exited => cases action <;> cases h

/-- **What a step does**, one case for each. -/
theorem step_cases (h : s.step prog e = some s') : Step prog s e s' := by
  unfold step at h
  split at h
  · cases h
  cases e with
  | query client request =>
    cases h
    exact .query client request
  | addCheck service =>
    dsimp only at h
    split at h
    · rename_i hk
      cases h
      exact .addThrow service hk
    · rename_i hk
      cases h
      exact .addCheck service (by simpa using hk)
  | addPush service =>
    dsimp only at h
    split at h
    · rename_i hk
      cases h
      exact .addPush service hk.1 hk.2
    · cases h
  | start =>
    dsimp only at h
    split at h
    · cases h
    · rename_i hs
      have hs' : s.stopping = false := by simpa using hs
      split at h
      · rename_i hp
        cases h
        exact .start hs' hp
      · rename_i hp
        cases h
        exact .startAbort hs' hp
  | stopBegin =>
    dsimp only at h
    split at h
    · cases h
    · rename_i hs
      cases h
      exact .stopBegin (by simpa using hs)
  | stopReturn =>
    dsimp only at h
    split at h
    · rename_i hs
      rw [Bool.and_eq_true] at hs
      cases h
      exact .stopReturn hs.1 hs.2
    · cases h
  | worker w action =>
    obtain ⟨x, hw, hs⟩ := Option.bind_eq_some_iff.1 h
    exact workerStep_cases prog hw rfl hs

end Steps

/-! ## No request is lost -/

/-- The tasks in the two queues. -/
def queued (s : SearchProxy σ κ ρ) : Multiset (SearchTask κ ρ) :=
  (s.queues .premium : Multiset _) + (s.queues .standard : Multiset _)

/-- The tasks taken and not yet handed over. -/
def holding (s : SearchProxy σ κ ρ) : Multiset (SearchTask κ ρ) :=
  (s.threadPool.filterMap Worker.holding : List _)

/-- The tasks handed to a service. -/
def handedTasks (s : SearchProxy σ κ ρ) : Multiset (SearchTask κ ρ) :=
  (s.handed.map Prod.snd : List _)

/-- **The invariant of the proxy.** -/
structure Conserved (s : SearchProxy σ κ ρ) : Prop where
  sum : (s.submitted : Multiset (SearchTask κ ρ)) = s.queued + s.holding + s.handedTasks
  tickets : s.submitted.map SearchTask.ticket = List.range s.submitted.length
  classes : ∀ key, ∀ task ∈ s.queues key, prog.subscriptionType task.client = key
  workers : ∀ x ∈ s.threadPool, x.service ∈ s.searchServices
  services : ∀ h ∈ s.handed, h.1 ∈ s.searchServices

theorem queued_update (queues : SubscriptionType → List (SearchTask κ ρ)) (key : SubscriptionType)
    (q : List (SearchTask κ ρ)) :
    ({ s with queues := Function.update queues key q } : SearchProxy σ κ ρ).queued +
        (queues key : Multiset _) =
      ({ s with queues } : SearchProxy σ κ ρ).queued + (q : Multiset _) := by
  cases key <;> simp only [queued, Function.update_self, ne_eq, reduceCtorEq, not_false_eq_true,
    Function.update_of_ne]
  · abel
  · abel

theorem holding_setPhase {w : ℕ} {x : Worker σ κ ρ} (hw : s.threadPool[w]? = some x)
    (phase : WorkerPhase κ ρ) : (s.setPhase w x phase).holding + (x.holding.toList : Multiset _) =
      s.holding + (({ x with phase } : Worker σ κ ρ).holding.toList : Multiset _) :=
  filterMap_set _ hw

variable {prog}

/-- The services of the workers stay registered. -/
theorem workers_setPhase (h : ∀ x ∈ s.threadPool, x.service ∈ s.searchServices) {w : ℕ}
    {x : Worker σ κ ρ} (hw : s.threadPool[w]? = some x) (phase : WorkerPhase κ ρ) :
    ∀ y ∈ (s.setPhase w x phase).threadPool, y.service ∈ s.searchServices := by
  intro y hy
  rcases List.mem_or_eq_of_mem_set hy with hy | rfl
  · exact h y hy
  · exact h x (List.mem_of_getElem? hw)

/-- A queue whose tasks belong to its class can be replaced by another. -/
theorem classes_update {queues : SubscriptionType → List (SearchTask κ ρ)}
    (h : ∀ key, ∀ task ∈ queues key, prog.subscriptionType task.client = key)
    {key : SubscriptionType} {q : List (SearchTask κ ρ)}
    (hq : ∀ task ∈ q, prog.subscriptionType task.client = key) :
    ∀ k, ∀ task ∈ Function.update queues key q k, prog.subscriptionType task.client = k := by
  intro k task ht
  by_cases hk : k = key
  · subst hk
    rw [Function.update_self] at ht
    exact hq task ht
  · rw [Function.update_of_ne hk] at ht
    exact h k task ht

/-- A worker that moves without a task keeps the invariant. -/
theorem conserved_setPhase (hI : Conserved prog s) {w : ℕ} {x : Worker σ κ ρ}
    (hw : s.threadPool[w]? = some x) {phase : WorkerPhase κ ρ} (hx : x.holding = none)
    (hphase : ({ x with phase } : Worker σ κ ρ).holding = none) :
    Conserved prog (s.setPhase w x phase) := by
  have hhold : (s.setPhase w x phase).holding = s.holding := by
    have h := holding_setPhase hw phase
    rw [hx, hphase] at h
    simpa using h
  refine ⟨?_, hI.tickets, hI.classes, workers_setPhase hI.workers hw phase, hI.services⟩
  have hsum := hI.sum
  rw [← hhold] at hsum
  exact hsum

/-- A task submitted is added to the queue of its client's type. -/
theorem conserved_query (hI : Conserved prog s) {task : SearchTask κ ρ}
    (hticket : task.ticket = s.submitted.length) :
    Conserved prog { s with
      queues := Function.update s.queues (prog.subscriptionType task.client)
        (s.queues (prog.subscriptionType task.client) ++ [task])
      submitted := s.submitted ++ [task] } := by
  set key := prog.subscriptionType task.client with hkey
  refine ⟨?_, ?_, ?_, hI.workers, hI.services⟩
  · have hq := queued_update (s := s) s.queues key (s.queues key ++ [task])
    rw [← Multiset.coe_add, ← add_assoc, add_right_comm] at hq
    have hq' := add_right_cancel hq
    have hsum := hI.sum
    calc ((s.submitted ++ [task] : List _) : Multiset (SearchTask κ ρ))
        = s.queued + s.holding + s.handedTasks + {task} := by rw [← Multiset.coe_add, hsum]; rfl
      _ = s.queued + {task} + s.holding + s.handedTasks := by abel
      _ = _ := by
        have hq'' : ({ s with queues := Function.update s.queues key (s.queues key ++ [task]) } :
            SearchProxy σ κ ρ).queued = s.queued + {task} := hq'
        rw [← hq'']
        rfl
  · simp [hI.tickets, hticket, List.range_succ]
  · refine classes_update hI.classes fun t ht => ?_
    rcases List.mem_append.1 ht with ht | ht
    · exact hI.classes _ t ht
    · rw [List.mem_singleton.1 ht]

/-- A task taken moves from its queue to the worker. -/
theorem conserved_take (hI : Conserved prog s) {w : ℕ} {x : Worker σ κ ρ}
    (hw : s.threadPool[w]? = some x) (hx : x.holding = none) {key : SubscriptionType}
    {task : SearchTask κ ρ} {rest : List (SearchTask κ ρ)}
    (hpop : (s.queues key : Multiset (SearchTask κ ρ)) = task ::ₘ (rest : Multiset _)) :
    Conserved prog
      { s.setPhase w x (.handing task) with queues := Function.update s.queues key rest } := by
  set s' : SearchProxy σ κ ρ :=
    { s.setPhase w x (.handing task) with queues := Function.update s.queues key rest } with hs'
  have hhold : (s.setPhase w x (.handing task)).holding = s.holding + {task} := by
    have h := holding_setPhase hw (.handing task)
    rw [hx] at h
    simpa [Worker.holding] using h
  have hq : s'.queued + {task} = s.queued := by
    have h := queued_update (s := s.setPhase w x (.handing task)) s.queues key rest
    rw [hpop, ← Multiset.singleton_add, ← add_assoc] at h
    exact add_right_cancel h
  refine ⟨?_, hI.tickets, ?_, workers_setPhase hI.workers hw _, hI.services⟩
  · calc (s.submitted : Multiset (SearchTask κ ρ))
        = s.queued + s.holding + s.handedTasks := hI.sum
      _ = s'.queued + (s.holding + {task}) + s.handedTasks := by rw [← hq]; abel
      _ = s'.queued + s'.holding + s'.handedTasks := by rw [← hhold]; rfl
  · refine classes_update hI.classes fun t ht => hI.classes key t ?_
    have hmem : t ∈ (s.queues key : Multiset (SearchTask κ ρ)) := by
      rw [hpop]
      exact Multiset.mem_cons_of_mem ht
    exact hmem

/-- A task handed over moves from the worker to its service. -/
theorem conserved_hand (hI : Conserved prog s) {w : ℕ} {x : Worker σ κ ρ}
    (hw : s.threadPool[w]? = some x) {task : SearchTask κ ρ} (hx : x.holding = some task) :
    Conserved prog
      { s.setPhase w x (.querying task) with handed := s.handed ++ [(x.service, task)] } := by
  set s' : SearchProxy σ κ ρ :=
    { s.setPhase w x (.querying task) with handed := s.handed ++ [(x.service, task)] } with hs'
  have hhold : (s.setPhase w x (.querying task)).holding + {task} = s.holding := by
    have h := holding_setPhase hw (.querying task)
    rw [hx] at h
    simpa [Worker.holding] using h
  have hhanded : s'.handedTasks = s.handedTasks + {task} := by
    simp only [handedTasks, hs', List.map_append, List.map_singleton, ← Multiset.coe_add]
    rfl
  refine ⟨?_, hI.tickets, hI.classes, workers_setPhase hI.workers hw _, ?_⟩
  · calc (s.submitted : Multiset (SearchTask κ ρ))
        = s.queued + s.holding + s.handedTasks := hI.sum
      _ = s.queued + (s.setPhase w x (.querying task)).holding + (s.handedTasks + {task}) := by
        rw [← hhold]; abel
      _ = s'.queued + s'.holding + s'.handedTasks := by rw [hhanded]; rfl
  · intro y hy
    rcases List.mem_append.1 hy with hy | hy
    · exact hI.services y hy
    · rw [List.mem_singleton.1 hy]
      exact hI.workers x (List.mem_of_getElem? hw)

/-- A pool whose workers hold nothing can be replaced by another. -/
theorem conserved_pool (hI : Conserved prog s) (hhold : s.holding = 0) (pool : List (Worker σ κ ρ))
    (hpool : pool.filterMap Worker.holding = [])
    (hservices : ∀ x ∈ pool, x.service ∈ s.searchServices) (running stopping : Bool) :
    Conserved prog { s with keepRunning := running, threadPool := pool, stopping } := by
  refine ⟨?_, hI.tickets, hI.classes, hservices, hI.services⟩
  calc (s.submitted : Multiset (SearchTask κ ρ))
      = s.queued + 0 + s.handedTasks := by rw [← hhold]; exact hI.sum
    _ = _ := by simp only [holding, hpool]; rfl

theorem conserved_init : Conserved prog (init : SearchProxy σ κ ρ) :=
  ⟨rfl, rfl, by simp [init], by simp [init], by simp [init]⟩

variable [DecidableEq σ]

/-- **One step keeps the invariant.** -/
theorem conserved_step (hI : Conserved prog s) (h : s.step prog e = some s') :
    Conserved prog s' := by
  cases step_cases prog h with
  | query client request =>
    have hticket : (⟨client, request, s.submitted.length⟩ : SearchTask κ ρ).ticket =
        s.submitted.length := rfl
    exact conserved_query hI hticket
  | addThrow service hk => exact hI
  | addCheck service hk => exact ⟨hI.sum, hI.tickets, hI.classes, hI.workers, hI.services⟩
  | addPush service hk hs =>
    exact ⟨hI.sum, hI.tickets, hI.classes, fun x hx => List.mem_append_left _ (hI.workers x hx),
      fun x hx => List.mem_append_left _ (hI.services x hx)⟩
  | start hs hp =>
    refine conserved_pool hI (by simp [holding, hp]) _ ?_ ?_ true s.stopping
    · rw [List.filterMap_map]
      exact List.filterMap_eq_nil_iff.2 fun _ _ => rfl
    · intro x hx
      obtain ⟨service, hservice, rfl⟩ := List.mem_map.1 hx
      exact hservice
  | startAbort hs hp => exact ⟨hI.sum, hI.tickets, hI.classes, hI.workers, hI.services⟩
  | stopBegin hs => exact ⟨hI.sum, hI.tickets, hI.classes, hI.workers, hI.services⟩
  | stopReturn hs hp =>
    -- a worker that has left its loop holds nothing
    have hnone : s.threadPool.filterMap Worker.holding = [] := by
      refine List.filterMap_eq_nil_iff.2 fun x hx => ?_
      have hex := List.all_eq_true.1 hp x hx
      unfold Worker.hasExited at hex
      unfold Worker.holding
      cases hphase : x.phase with
      | handing task =>
        rw [hphase] at hex
        cases hex
      | _ => rfl
    exact conserved_pool hI (by simp [holding, hnone]) [] rfl
      (fun x hx => absurd hx List.not_mem_nil) s.keepRunning false
  | loop w x hw hx =>
    refine conserved_setPhase hI hw (by simp [Worker.holding, hx]) ?_
    cases s.keepRunning <;> rfl
  | draw w x p hw hx => exact conserved_setPhase hI hw (by simp [Worker.holding, hx]) rfl
  | takeNone w x key j hw hx hq => exact conserved_setPhase hI hw (by simp [Worker.holding, hx]) rfl
  | done w x task hw hx => exact conserved_setPhase hI hw (by simp [Worker.holding, hx]) rfl
  | take w x key j task rest hw hx hpop =>
    exact conserved_take hI hw (by simp [Worker.holding, hx]) (popAt_cons hpop)
  | hand w x task hw hx => exact conserved_hand hI hw (by simp [Worker.holding, hx])

theorem conserved_run {es : List (Event σ κ ρ)} (h : exec (step prog) init es = some s) :
    Conserved prog s :=
  exec_inv conserved_step conserved_init h

/-! ## What a step takes -/

/-- The time stamp of a task's request. -/
def timestamp (prog : Program κ ρ) (task : SearchTask κ ρ) : ℤ :=
  (prog.request task.request).timestamp

omit [DecidableEq σ] in
theorem searchTaskCompare_iff (lhs rhs : SearchTask κ ρ) :
    SearchTaskCompare prog lhs rhs ↔ timestamp prog lhs < timestamp prog rhs := Iff.rfl

/-- **A worker that has not left its loop can move.** -/
theorem worker_progress {w : ℕ} {x : Worker σ κ ρ} (ha : s.aborted = false)
    (hw : s.threadPool[w]? = some x) (hx : x.hasExited = false) :
    ∃ action, (s.step prog (.worker w action)).isSome = true := by
  have hstep : ∀ action, s.step prog (.worker w action) =
      s.workerStep prog w x x.phase action := by
    intro action
    simp [step, ha, hw]
  simp only [hstep]
  unfold Worker.hasExited at hx
  cases hphase : x.phase with
  | looping => exact ⟨.loop, rfl⟩
  | drawing => exact ⟨.draw 0, rfl⟩
  | taking key =>
    by_cases hq : s.queues key = []
    · exact ⟨.take 0, by simp [workerStep, hq]⟩
    · -- `top()` finds a maximal task
      obtain ⟨j, r, hpop⟩ := exists_pop (@searchTaskCompare_iff _ _ prog) hq
      exact ⟨.take j, by simp [workerStep, hq, hpop]⟩
  | handing task => exact ⟨.hand, rfl⟩
  | querying task => exact ⟨.done, rfl⟩
  | exited =>
    rw [hphase] at hx
    cases hx

/-- The step takes `task` from the queue for `key`. -/
def Takes (prog : Program κ ρ) (s : SearchProxy σ κ ρ) (e : Event σ κ ρ) (key : SubscriptionType)
    (task : SearchTask κ ρ) : Prop :=
  ∃ w j x rest, e = .worker w (.take j) ∧ s.threadPool[w]? = some x ∧ x.phase = .taking key ∧
    popAt (SearchTaskCompare prog) (s.queues key) j = some (task, rest)

/-- **A task leaves a queue only when it is taken.** -/
theorem leaves_queue (h : s.step prog e = some s') (key : SubscriptionType) :
    (∃ task, Takes prog s e key task ∧
      (s.queues key : Multiset (SearchTask κ ρ)) = task ::ₘ (s'.queues key : Multiset _)) ∨
    s.queues key <+: s'.queues key := by
  cases step_cases prog h with
  | query client request =>
    right
    by_cases hk : key = prog.subscriptionType client
    · subst hk
      simp
    · simp [Function.update_of_ne hk]
  | take w x k j task rest hw hx hpop =>
    by_cases hk : key = k
    · subst hk
      refine .inl ⟨task, ⟨w, j, x, rest, rfl, hw, hx, hpop⟩, ?_⟩
      simpa using popAt_cons hpop
    · right
      simp [Function.update_of_ne hk]
  | addThrow | addCheck | addPush | start | startAbort | stopBegin | stopReturn =>
    exact .inr List.prefix_rfl
  | loop | draw | takeNone | hand | done => exact .inr List.prefix_rfl

/-! ## A stopped proxy serves nothing -/

/-- **Without workers and without `start()`**, a step takes no task from a queue. -/
theorem quiet_step (hp : s.threadPool = []) (he : e ≠ .start) (h : s.step prog e = some s') :
    s'.threadPool = [] ∧ (∀ key, s.queues key <+: s'.queues key) ∧ s'.handed = s.handed := by
  have hnone : ∀ (w : ℕ) (x : Worker σ κ ρ), s.threadPool[w]? ≠ some x := by
    intro w x hw
    rw [hp] at hw
    cases hw
  have hqueues : ∀ key, s.queues key <+: s'.queues key := by
    intro key
    rcases leaves_queue h key with ⟨task, ⟨w, j, x, rest, -, hw, -⟩, -⟩ | hprefix
    · exact absurd hw (hnone w x)
    · exact hprefix
  have hrest : s'.threadPool = [] ∧ s'.handed = s.handed := by
    cases step_cases prog h with
    | query | addThrow | addCheck | addPush | stopBegin => exact ⟨hp, rfl⟩
    | stopReturn => exact ⟨rfl, rfl⟩
    | start | startAbort => exact absurd rfl he
    | loop w x hw | draw w x p hw | takeNone w x key j hw | take w x key j task rest hw
    | hand w x task hw | done w x task hw => exact absurd hw (hnone w x)
  exact ⟨hrest.1, hqueues, hrest.2⟩

/-- **No task leaves a queue** while there are no workers and `start()` is not called. -/
theorem quiet_run {es : List (Event σ κ ρ)} (hp : s.threadPool = []) (he : .start ∉ es)
    (h : exec (step prog) s es = some s') :
    s'.threadPool = [] ∧ (∀ key, s.queues key <+: s'.queues key) ∧ s'.handed = s.handed := by
  induction es generalizing s with
  | nil => cases h; exact ⟨hp, fun key => List.prefix_rfl, rfl⟩
  | cons e es ih =>
    obtain ⟨u, hu, h⟩ := exec_cons.1 h
    have hne : e ≠ .start := fun heq => he (heq ▸ List.mem_cons_self)
    obtain ⟨hp', hq', hh'⟩ := quiet_step hp hne hu
    obtain ⟨hp'', hq'', hh''⟩ := ih hp' (fun hmem => he (List.mem_cons_of_mem _ hmem)) h
    exact ⟨hp'', fun key => (hq' key).trans (hq'' key), hh''.trans hh'⟩

/-! ## Every run -/

/-- **No request is lost or duplicated.** -/
structure NothingLost (prog : Program κ ρ) (es : List (Event σ κ ρ)) (s : SearchProxy σ κ ρ) :
    Prop where
  /-- The submitted tasks are those of the calls of `query()`. -/
  calls : s.submitted.map (fun task => (task.client, task.request)) = es.filterMap Event.submission
  /-- They are in the queues, with a worker, or handed over. -/
  sum : (s.submitted : Multiset (SearchTask κ ρ)) = s.queued + s.holding + s.handedTasks
  /-- Each occurrence is in one place only. -/
  once : ((s.queued + s.holding + s.handedTasks).map SearchTask.ticket).Nodup
  /-- An occurrence is handed to one service, with the client and request it was submitted with. -/
  handed : ∀ h ∈ s.handed, h.2 ∈ s.submitted ∧ h.1 ∈ s.searchServices ∧
    ∀ h' ∈ s.handed, h'.2.ticket = h.2.ticket → h' = h
  /-- A queue holds tasks of clients of its type. -/
  classes : ∀ key, ∀ task ∈ s.queues key, prog.subscriptionType task.client = key
  /-- After `stop()` has returned no task leaves a queue until the next `start()`. -/
  stopped : ∀ s₁, s.step prog .stopReturn = some s₁ → ∀ es s₂, .start ∉ es →
    exec (step prog) s₁ es = some s₂ →
      (∀ key, s₁.queues key <+: s₂.queues key) ∧ s₂.handed = s₁.handed

theorem submitted_run {es : List (Event σ κ ρ)} (h : exec (step prog) s es = some s') :
    s'.submitted.map (fun task => (task.client, task.request)) =
      s.submitted.map (fun task => (task.client, task.request)) ++
        es.filterMap Event.submission := by
  induction es generalizing s with
  | nil => cases h; simp
  | cons e es ih =>
    obtain ⟨u, hu, h⟩ := exec_cons.1 h
    rw [ih h, List.filterMap_cons]
    cases step_cases prog hu <;> simp [Event.submission, setPhase]

/-- **The proxy neither loses nor duplicates requests**, in every run. -/
theorem nothing_lost {es : List (Event σ κ ρ)} (h : exec (step prog) init es = some s) :
    NothingLost prog es s := by
  have hI := conserved_run h
  have honce : ((s.queued + s.holding + s.handedTasks).map SearchTask.ticket).Nodup := by
    rw [← hI.sum, Multiset.map_coe, hI.tickets]
    exact List.nodup_range
  have hmem : ∀ x ∈ s.handed, x.2 ∈ s.submitted := by
    intro x hx
    have hx' : x.2 ∈ (s.submitted : Multiset (SearchTask κ ρ)) := by
      rw [hI.sum]
      exact Multiset.mem_add.2 (.inr (List.mem_map_of_mem hx))
    exact hx'
  -- two entries of the log with one ticket are one entry
  have hhanded : (s.handed.map fun x => x.2.ticket).Nodup := by
    rw [Multiset.map_add] at honce
    have h := (Multiset.nodup_add.1 honce).2.1
    simpa [handedTasks, Function.comp_def] using h
  have hunique : ∀ x ∈ s.handed, ∀ y ∈ s.handed, y.2.ticket = x.2.ticket → y = x := by
    intro x hx y hy he
    exact List.inj_on_of_nodup_map hhanded hy hx he
  constructor
  · exact submitted_run h
  · exact hI.sum
  · exact honce
  · intro x hx
    exact ⟨hmem x hx, hI.services x hx, hunique x hx⟩
  · exact hI.classes
  · intro s₁ hs₁ es s₂ hes hs₂
    cases step_cases prog hs₁ with
    | stopReturn hs hp => exact (quiet_run rfl hes hs₂).2

/-- A Premium client with an older and a newer request. -/
def twoRequests : Program Unit Bool where
  subscriptionType _ := .premium
  request newer := if newer then ⟨1, ⟨[98], by decide⟩, 2⟩ else ⟨0, ⟨[97], by decide⟩, 1⟩

/-- Both requests are queued and the only worker is about to take one of them. -/
def twoQueued : List (Event Unit Unit Bool) :=
  [.addCheck (), .addPush (), .start, .query () false, .query () true, .worker 0 .loop,
    .worker 0 (.draw 0)]

def twoQueuedProxy : SearchProxy Unit Unit Bool :=
  (exec (step twoRequests) init twoQueued).get (by decide +kernel)

theorem nothing_lost_twoQueued : NothingLost twoRequests twoQueued twoQueuedProxy :=
  nothing_lost (Option.some_get _).symm

/-! ## The order of service -/

section Order

omit [DecidableEq σ]

variable (prog)

/-- A task taken is at least as old as every task of its queue. -/
def OldestFirst (s : SearchProxy σ κ ρ) (e : Event σ κ ρ) : Prop :=
  ∀ key task, Takes prog s e key task →
    ∀ u ∈ s.queues key, timestamp prog task ≤ timestamp prog u

/-- A task is taken only from a queue whose tasks have one time stamp. -/
def AllEqual (s : SearchProxy σ κ ρ) (e : Event σ κ ρ) : Prop :=
  ∀ key, (∃ task, Takes prog s e key task) →
    ∀ u ∈ s.queues key, ∀ v ∈ s.queues key, timestamp prog u = timestamp prog v

variable {prog}

/-- **The task taken is a newest one of its queue.** -/
theorem take_newest {key : SubscriptionType} {task : SearchTask κ ρ}
    (h : Takes prog s e key task) : task ∈ s.queues key ∧
      ∀ u ∈ s.queues key, timestamp prog u ≤ timestamp prog task := by
  obtain ⟨w, j, x, rest, -, -, -, hpop⟩ := h
  obtain ⟨hj, htop, -⟩ := popAt_eq_some.1 hpop
  exact ⟨List.mem_of_getElem? hj, (isTop_iff searchTaskCompare_iff).1 htop⟩

/-- **It is an oldest one only if all have one time stamp.** -/
theorem take_least_iff {key : SubscriptionType} {task : SearchTask κ ρ}
    (h : Takes prog s e key task) :
    (∀ u ∈ s.queues key, timestamp prog task ≤ timestamp prog u) ↔
      ∀ u ∈ s.queues key, ∀ v ∈ s.queues key, timestamp prog u = timestamp prog v := by
  obtain ⟨w, j, x, rest, -, -, -, hpop⟩ := h
  obtain ⟨hj, htop, -⟩ := popAt_eq_some.1 hpop
  exact pop_least_iff searchTaskCompare_iff (List.mem_of_getElem? hj) htop

theorem oldestFirst_step : OldestFirst prog s e ↔ AllEqual prog s e := by
  constructor
  · rintro hold key ⟨task, htake⟩
    exact (take_least_iff htake).1 (hold key task htake)
  · intro heq key task htake
    exact (take_least_iff htake).2 (heq key ⟨task, htake⟩)

end Order

/-- **Oldest first, exactly**: a run serves each class oldest first if and only if tasks are taken
only from queues whose tasks have one time stamp. -/
theorem oldest_first_iff (prog : Program κ ρ) (es : List (Event σ κ ρ)) :
    Along (step prog) (OldestFirst prog) init es ↔ Along (step prog) (AllEqual prog) init es :=
  along_congr fun _ _ => oldestFirst_step

/-- The worker takes the newer request while the older one waits. -/
theorem newer_overtakes : ¬ Along (step twoRequests) (OldestFirst twoRequests) init
    (twoQueued ++ [.worker 0 (.take 1)]) := by
  intro h
  have hlast : OldestFirst twoRequests twoQueuedProxy (.worker 0 (.take 1)) :=
    h.at_step (Option.some_get _).symm
  have htake : Takes twoRequests twoQueuedProxy (.worker 0 (.take 1)) .premium ⟨(), true, 1⟩ :=
    ⟨0, 1, ⟨(), .taking .premium⟩, [⟨(), false, 0⟩], rfl, by decide +kernel, rfl, by decide +kernel⟩
  have hle := hlast .premium _ htake ⟨(), false, 0⟩ (by decide +kernel)
  exact absurd hle (by decide)

end SearchProxy

end MTFind2
