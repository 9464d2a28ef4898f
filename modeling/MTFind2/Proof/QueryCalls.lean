import MTFind2.Proof.Process
import MTFind2.Proof.Query

/-!
# The calls of the process

Every task of the program has its number, and at most one call of `query`.

* `CallsOK`: the calls are those of the tasks handed over, each made by the worker of
  its service.
* `ServicesOK`: all services have the same sources, and one is locked while a call
  holds it.
* `inv_step`: every step keeps both, and what the main thread knows.
* `one_call_each`: so each service works on one task at a time, and its lock is never
  waited for.
-/

namespace MTFind2

open Run SearchProxy

namespace SearchProxy

section Querying

variable {σ κ ρ : Type} {prog : Program κ ρ} {p p' : SearchProxy σ κ ρ} {w : ℕ}
  {x : Worker σ κ ρ} {phase : WorkerPhase κ ρ} {k : σ} {task : SearchTask κ ρ}

/-- Worker `w`, of service `k`, is in the call of `query` for the task. -/
def Querying (p : SearchProxy σ κ ρ) (w : ℕ) (k : σ) (task : SearchTask κ ρ) : Prop :=
  p.threadPool[w]? = some ⟨k, .querying task⟩

/-- When worker `w` moves, the others stay in their calls. -/
theorem querying_setPhase (hw : p.threadPool[w]? = some x) (w' : ℕ) :
    (p.setPhase w x phase).Querying w' k task ↔
      (w' ≠ w ∧ p.Querying w' k task) ∨ (w' = w ∧ x.service = k ∧ phase = .querying task) := by
  obtain ⟨hlt, -⟩ := List.getElem?_eq_some_iff.1 hw
  unfold Querying setPhase
  dsimp only
  by_cases h : w' = w
  · subst h
    simp [hlt]
  · rw [List.getElem?_set_ne (Ne.symm h)]
    simp [h]

/-- A worker that moves outside of a call changes none. -/
theorem querying_setPhase_same (hw : p.threadPool[w]? = some x)
    (hx : ∀ task, x.phase ≠ .querying task) (hphase : ∀ task, phase ≠ .querying task) (w' : ℕ) :
    (p.setPhase w x phase).Querying w' k task ↔ p.Querying w' k task := by
  rw [querying_setPhase hw]
  constructor
  · rintro (h | h)
    · exact h.2
    · exact absurd h.2.2 (hphase task)
  · intro h
    refine .inl ⟨?_, h⟩
    rintro rfl
    have heq : x = ⟨k, .querying task⟩ := Option.some.inj (hw.symm.trans h)
    exact hx task (by rw [heq])

variable [DecidableEq σ]

/-- A step of worker `w` is one of its phase. -/
theorem step_worker {action : WorkerAction} (hw : p.threadPool[w]? = some x)
    (h : p.step prog (.worker w action) = some p') :
    p.workerStep prog w x x.phase action = some p' := by
  unfold step at h
  split at h
  · cases h
  · obtain ⟨y, hy, h⟩ := Option.bind_eq_some_iff.1 h
    rw [hw] at hy
    cases hy
    exact h

/-- A worker about to hand its task over does so. -/
theorem step_handing {action : WorkerAction} (hw : p.threadPool[w]? = some ⟨k, .handing task⟩)
    (h : p.step prog (.worker w action) = some p') :
    p' = { p.setPhase w ⟨k, .handing task⟩ (.querying task) with
      handed := p.handed ++ [(k, task)] } := by
  have hs := step_worker hw h
  cases action <;> cases hs
  rfl

/-- A worker in a call leaves it. -/
theorem step_querying {action : WorkerAction} (hw : p.threadPool[w]? = some ⟨k, .querying task⟩)
    (h : p.step prog (.worker w action) = some p') :
    p' = p.setPhase w ⟨k, .querying task⟩ .looping := by
  have hs := step_worker hw h
  cases action <;> cases hs
  rfl

/-- **Every other step leaves the calls as they are.** -/
theorem querying_step {e : Event σ κ ρ} (h : p.step prog e = some p')
    (hhand : ∀ w action y task, e = .worker w action → p.threadPool[w]? = some y →
      y.phase ≠ .handing task ∧ y.phase ≠ .querying task) :
    p'.handed = p.handed ∧ ∀ w k task, p'.Querying w k task ↔ p.Querying w k task := by
  cases step_cases prog h with
  | query | addThrow | addCheck | addPush | startAbort | stopBegin =>
    exact ⟨rfl, fun _ _ _ => Iff.rfl⟩
  | start hs hp =>
    refine ⟨rfl, fun w k task => ?_⟩
    unfold Querying
    rw [hp]
    simp
  | stopReturn hs hp =>
    refine ⟨rfl, fun w k task => ?_⟩
    -- the workers have left their loops
    constructor
    · intro hq
      cases hq
    · intro hq
      have hex := List.all_eq_true.1 hp _ (List.mem_of_getElem? hq)
      cases hex
  | loop w x hw hx =>
    refine ⟨rfl, fun w' k task => querying_setPhase_same hw (by simp [hx]) ?_ w'⟩
    intro task
    split <;> simp
  | draw w x q hw hx =>
    exact ⟨rfl, fun w' k task => querying_setPhase_same hw (by simp [hx]) (by simp) w'⟩
  | takeNone w x key j hw hx hq =>
    exact ⟨rfl, fun w' k task => querying_setPhase_same hw (by simp [hx]) (by simp) w'⟩
  | take w x key j task rest hw hx hpop =>
    exact ⟨rfl, fun w' k task => querying_setPhase_same hw (by simp [hx]) (by simp) w'⟩
  | hand w x task hw hx => exact absurd hx (hhand w _ x task rfl hw).1
  | done w x task hw hx => exact absurd hx (hhand w _ x task rfl hw).2

end Querying

variable {σ κ ρ : Type} {prog : Program κ ρ} {p : SearchProxy σ κ ρ}

/-- Every task is in one place. -/
theorem Conserved.nodup (h : Conserved prog p) :
    ((p.queued + p.holding + p.handedTasks).map SearchTask.ticket).Nodup := by
  rw [← h.sum, Multiset.map_coe, h.tickets]
  exact List.nodup_range

/-- A task handed over was submitted. -/
theorem Conserved.submitted_of_handed (h : Conserved prog p) {x : σ × SearchTask κ ρ}
    (hx : x ∈ p.handed) : x.2 ∈ p.submitted := by
  have hmem : x.2 ∈ (p.submitted : Multiset (SearchTask κ ρ)) := by
    rw [h.sum]
    exact Multiset.mem_add.2 (.inr (List.mem_map_of_mem hx))
  exact hmem

/-- A task that a worker holds has not been handed over. -/
theorem Conserved.not_handed (h : Conserved prog p) {w : ℕ} {k : σ} {task : SearchTask κ ρ}
    (hw : p.threadPool[w]? = some ⟨k, .handing task⟩) {x : σ × SearchTask κ ρ}
    (hx : x ∈ p.handed) : x.2.ticket ≠ task.ticket := by
  intro heq
  have hnodup := h.nodup
  rw [Multiset.map_add, Multiset.nodup_add] at hnodup
  have hheld : task ∈ p.holding := List.mem_filterMap.2 ⟨_, List.mem_of_getElem? hw, rfl⟩
  have hleft : task.ticket ∈ (p.queued + p.holding).map SearchTask.ticket :=
    Multiset.mem_map_of_mem _ (Multiset.mem_add.2 (.inr hheld))
  have hright : task.ticket ∈ p.handedTasks.map SearchTask.ticket := by
    rw [← heq]
    exact Multiset.mem_map_of_mem _ (List.mem_map_of_mem hx)
  exact Multiset.disjoint_left.1 hnodup.2.2 hleft hright

end SearchProxy

namespace Process

variable {env : Environment} {s s' : Process} {a : Action}

/-- Task `n` is that of client and request `n`. -/
def Numbered (p : SearchProxy ℕ ℕ ℕ) : Prop :=
  ∀ task ∈ p.submitted, task.client = task.ticket ∧ task.request = task.ticket

/-- **The calls of `query`** are those of the tasks handed over, each made by a worker. -/
structure CallsOK (p : SearchProxy ℕ ℕ ℕ) (calls : ℕ → Option QueryCall) : Prop where
  handed : ∀ n call, calls n = some call →
    call.task.ticket = n ∧ (call.service, call.task) ∈ p.handed
  called : ∀ h ∈ p.handed, ∃ call, calls h.2.ticket = some call ∧ call.service = h.1 ∧
    call.task = h.2
  active : ∀ n call, calls n = some call → call.phase ≠ .returned →
    ∃ w, p.Querying w call.service call.task
  querying : ∀ w k task, p.Querying w k task → (k, task) ∈ p.handed

theorem callsOK_init : CallsOK SearchProxy.init fun _ => none where
  handed n call h := by cases h
  called h hh := absurd hh List.not_mem_nil
  active n call h := by cases h
  querying w k task h := by cases h

variable {p p' : SearchProxy ℕ ℕ ℕ} {calls : ℕ → Option QueryCall}

theorem CallsOK.same (h : CallsOK p calls) (hh : p'.handed = p.handed)
    (hq : ∀ w k task, p'.Querying w k task ↔ p.Querying w k task) : CallsOK p' calls where
  handed n call hc := by
    rw [hh]
    exact h.handed n call hc
  called x hx := h.called x (by rwa [hh] at hx)
  active n call hc hret := by
    obtain ⟨w, hw⟩ := h.active n call hc hret
    exact ⟨w, (hq w _ _).2 hw⟩
  querying w k task hw := by
    rw [hh]
    exact h.querying w k task ((hq w k task).1 hw)

/-- A worker hands its task over and enters the call. -/
theorem CallsOK.hand (h : CallsOK p calls) (hI : Conserved env.program p) {w k : ℕ}
    {task : SearchTask ℕ ℕ} (hw : p.threadPool[w]? = some ⟨k, .handing task⟩) :
    CallsOK { p.setPhase w ⟨k, .handing task⟩ (.querying task) with
        handed := p.handed ++ [(k, task)] }
      (Function.update calls task.ticket (some ⟨k, task, .called, []⟩)) := by
  set p' : SearchProxy ℕ ℕ ℕ := { p.setPhase w ⟨k, .handing task⟩ (.querying task) with
    handed := p.handed ++ [(k, task)] }
  have hq : ∀ w' k' task', p'.Querying w' k' task' ↔ (w' ≠ w ∧ p.Querying w' k' task') ∨
      (w' = w ∧ k = k' ∧ WorkerPhase.querying task = .querying task') := fun w' k' task' =>
    querying_setPhase hw w'
  have hnew : p'.handed = p.handed ++ [(k, task)] := rfl
  refine ⟨?_, ?_, ?_, ?_⟩
  · intro n call hc
    rw [hnew]
    by_cases hn : n = task.ticket
    · subst hn
      rw [Function.update_self] at hc
      cases hc
      exact ⟨rfl, by simp⟩
    · rw [Function.update_of_ne hn] at hc
      exact ⟨(h.handed n call hc).1, List.mem_append_left _ (h.handed n call hc).2⟩
  · intro x hx
    rw [hnew] at hx
    rcases List.mem_append.1 hx with hx | hx
    · rw [Function.update_of_ne (hI.not_handed hw hx)]
      exact h.called x hx
    · rw [List.mem_singleton.1 hx]
      exact ⟨_, Function.update_self .., rfl, rfl⟩
  · intro n call hc hret
    by_cases hn : n = task.ticket
    · subst hn
      rw [Function.update_self] at hc
      cases hc
      exact ⟨w, (hq _ _ _).2 (.inr ⟨rfl, rfl, rfl⟩)⟩
    · rw [Function.update_of_ne hn] at hc
      obtain ⟨w', hw'⟩ := h.active n call hc hret
      refine ⟨w', (hq _ _ _).2 (.inl ⟨?_, hw'⟩)⟩
      rintro rfl
      cases hw.symm.trans hw'
  · intro w' k' task' hw'
    rw [hnew]
    rcases (hq _ _ _).1 hw' with ⟨-, hold⟩ | ⟨-, rfl, hphase⟩
    · exact List.mem_append_left _ (h.querying _ _ _ hold)
    · cases hphase
      simp

/-- A worker leaves a call that has returned. -/
theorem CallsOK.done (h : CallsOK p calls) {w k : ℕ} {task : SearchTask ℕ ℕ}
    (hw : p.threadPool[w]? = some ⟨k, .querying task⟩)
    (hret : (calls task.ticket).map QueryCall.phase = some .returned) :
    CallsOK (p.setPhase w ⟨k, .querying task⟩ .looping) calls := by
  refine ⟨h.handed, h.called, ?_, ?_⟩
  · intro n call hc hactive
    obtain ⟨w', hw'⟩ := h.active n call hc hactive
    refine ⟨w', (querying_setPhase hw w').2 (.inl ⟨?_, hw'⟩)⟩
    rintro rfl
    -- the call that `w` is in is the one that has returned
    have heq : call.task = task := by
      cases hw.symm.trans hw'
      rfl
    rw [← heq, (h.handed n call hc).1, hc] at hret
    exact hactive (Option.some.inj hret)
  · intro w' k' task' hw'
    rcases (querying_setPhase hw w').1 hw' with ⟨-, hold⟩ | ⟨-, -, hphase⟩
    · exact h.querying _ _ _ hold
    · cases hphase

/-- A call goes on. -/
theorem CallsOK.move (h : CallsOK p calls) {n : ℕ} {call : QueryCall} (hc : calls n = some call)
    (hactive : call.phase ≠ .returned) (phase : QueryPhase) (threads : List (Option ℕ)) :
    CallsOK p (Function.update calls n (some { call with phase, threads })) := by
  refine ⟨?_, ?_, ?_, h.querying⟩
  · intro m c hm
    by_cases hmn : m = n
    · subst hmn
      rw [Function.update_self] at hm
      cases hm
      exact h.handed m call hc
    · rw [Function.update_of_ne hmn] at hm
      exact h.handed m c hm
  · intro x hx
    obtain ⟨c, hcalls, hservice, htask⟩ := h.called x hx
    by_cases hmn : x.2.ticket = n
    · subst hmn
      rw [hcalls] at hc
      cases hc
      exact ⟨_, Function.update_self .., hservice, htask⟩
    · exact ⟨c, by rw [Function.update_of_ne hmn, hcalls], hservice, htask⟩
  · intro m c hm hret
    by_cases hmn : m = n
    · subst hmn
      rw [Function.update_self] at hm
      cases hm
      exact h.active m call hc hactive
    · rw [Function.update_of_ne hmn] at hm
      exact h.active m c hm hret

/-! ## The locks of the services -/

end Process

/-- The call is inside the critical section of `m_content_sources_lock`. -/
def QueryPhase.holds : QueryPhase → Bool
  | .spawning _ | .joining _ => true
  | .called | .returned => false

namespace Process

variable {env : Environment} {s s' : Process} {a : Action} {p p' : SearchProxy ℕ ℕ ℕ}
  {calls : ℕ → Option QueryCall}

/-- **The services**: all have the same sources, and one is locked while a call holds it. -/
structure ServicesOK (env : Environment) (services : List SearchService)
    (calls : ℕ → Option QueryCall) : Prop where
  sources : ∀ (k : ℕ) (service : SearchService), services[k]? = some service →
    service.contentSources = env.contentSources
  locked : ∀ (k : ℕ) (service : SearchService), services[k]? = some service →
    (service.locked = true ↔
      ∃ n call, calls n = some call ∧ call.service = k ∧ call.phase.holds = true)

theorem servicesOK_init : ServicesOK env env.searchServices fun _ => none := by
  have hmem : ∀ (k : ℕ) (service : SearchService), env.searchServices[k]? = some service →
      service = ⟨env.contentSources, false⟩ := by
    intro k service hk
    have h := List.mem_of_getElem? hk
    rw [env.searchServices_eq] at h
    exact (List.mem_replicate.1 h).2
  refine ⟨?_, ?_⟩
  · intro k service hk
    rw [hmem k service hk]
  · intro k service hk
    rw [hmem k service hk]
    simp

/-- **A service is in one call at a time.** -/
theorem CallsOK.unique (h : CallsOK p calls)
    (hp : ∀ (w : ℕ) (x : Worker ℕ ℕ ℕ), p.threadPool[w]? = some x → x.service = w)
    {n m : ℕ} {c d : QueryCall}
    (hc : calls n = some c) (hd : calls m = some d) (hcret : c.phase ≠ .returned)
    (hdret : d.phase ≠ .returned) (hservice : c.service = d.service) : n = m := by
  obtain ⟨w, hw⟩ := h.active n c hc hcret
  obtain ⟨w', hw'⟩ := h.active m d hd hdret
  obtain rfl : c.service = w := hp w _ hw
  obtain rfl : d.service = w' := hp w' _ hw'
  rw [hservice] at hw
  have heq : (⟨d.service, .querying c.task⟩ : Worker ℕ ℕ ℕ) = ⟨d.service, .querying d.task⟩ :=
    Option.some.inj (hw.symm.trans hw')
  have htask : c.task = d.task := by
    injection heq with _ hphase
    injection hphase
  rw [← (h.handed n c hc).1, ← (h.handed m d hd).1, htask]

/-- A step of a caller has the lock, or takes it. -/
theorem caller_holds {κ : Type} [DecidableEq κ] {v t : Service κ} (hs : v.step .caller = some t)
    (hv : v.phase.holds = true → v.locked = true) :
    v.locked = v.phase.holds ∧ t.locked = t.phase.holds ∧
      v.phase ≠ .returned := by
  cases Service.step_cases hs with
  | acquire hp hl => simp [hp, hl, QueryPhase.holds]
  | spawned hp => simp [hp, QueryPhase.holds, hv]
  | spawn source rest hp => simp [hp, QueryPhase.holds, hv, Service.spawn]
  | join k i hp => simp [hp, QueryPhase.holds, hv]
  | notJoinable k hp => simp [hp, QueryPhase.holds, hv]
  | release k hp => simp [hp, QueryPhase.holds, hv]

/-- A call that has not got the lock adds no holder. -/
theorem ServicesOK.hand {services : List SearchService} (h : ServicesOK env services calls)
    {n k : ℕ} {task : SearchTask ℕ ℕ} (hn : calls n = none) :
    ServicesOK env services (Function.update calls n (some ⟨k, task, .called, []⟩)) := by
  refine ⟨h.sources, ?_⟩
  intro k' service hk
  rw [h.locked k' service hk]
  constructor
  · rintro ⟨m, c, hm, hrest⟩
    refine ⟨m, c, ?_, hrest⟩
    rw [Function.update_of_ne, hm]
    rintro rfl
    rw [hn] at hm
    cases hm
  · rintro ⟨m, c, hm, hservice, hholds⟩
    by_cases hmn : m = n
    · subst hmn
      rw [Function.update_self] at hm
      cases hm
      cases hholds
    · rw [Function.update_of_ne hmn] at hm
      exact ⟨m, c, hm, hservice, hholds⟩

/-- A step of a caller leaves its service locked exactly if it holds it. -/
theorem ServicesOK.move {services : List SearchService} (h : ServicesOK env services calls)
    {n : ℕ} {call : QueryCall} (hc : calls n = some call) {phase : QueryPhase}
    {threads : List (Option ℕ)} {locked : Bool} (hlocked : locked = phase.holds)
    (hunique : ∀ m c, calls m = some c → c.service = call.service →
      c.phase.holds = true → m = n) :
    ServicesOK env
      (services.modify call.service fun service => { service with locked })
      (Function.update calls n (some { call with phase, threads })) := by
  have hother : ∀ m c, calls m = some c → c.service ≠ call.service → m ≠ n := by
    rintro m c hm hne rfl
    rw [hm] at hc
    cases hc
    exact hne rfl
  refine ⟨?_, ?_⟩
  · intro k service hk
    rw [List.getElem?_modify] at hk
    obtain ⟨old, hold, rfl⟩ := Option.map_eq_some_iff.1 hk
    have := h.sources k old hold
    split <;> exact this
  · intro k service hk
    rw [List.getElem?_modify] at hk
    obtain ⟨old, hold, rfl⟩ := Option.map_eq_some_iff.1 hk
    by_cases hks : call.service = k
    · subst hks
      rw [if_pos rfl]
      simp only [hlocked]
      constructor
      · intro hholds
        exact ⟨n, _, Function.update_self .., rfl, hholds⟩
      · rintro ⟨m, c, hm, hservice, hholds⟩
        by_cases hmn : m = n
        · subst hmn
          rw [Function.update_self] at hm
          cases hm
          exact hholds
        · rw [Function.update_of_ne hmn] at hm
          exact absurd (hunique m c hm hservice hholds) hmn
    · rw [if_neg hks, h.locked k old hold]
      constructor
      · rintro ⟨m, c, hm, hservice, hholds⟩
        have hmn := hother m c hm (by rw [hservice]; exact Ne.symm hks)
        exact ⟨m, c, by rw [Function.update_of_ne hmn, hm], hservice, hholds⟩
      · rintro ⟨m, c, hm, hservice, hholds⟩
        by_cases hmn : m = n
        · subst hmn
          rw [Function.update_self] at hm
          cases hm
          exact absurd hservice hks
        · rw [Function.update_of_ne hmn] at hm
          exact ⟨m, c, hm, hservice, hholds⟩

/-! ## Every run -/

/-- **The invariant of the process**, but for what its threads have sent. -/
structure Inv (env : Environment) (s : Process) : Prop where
  main : MainOK env s
  conserved : Conserved env.program s.searchProxy
  numbered : Numbered s.searchProxy
  calls : CallsOK s.searchProxy s.calls
  services : ServicesOK env s.searchServices s.calls

theorem inv_init : Inv env (init env) where
  main := mainOK_init
  conserved := conserved_init
  numbered _ h := absurd h List.not_mem_nil
  calls := callsOK_init
  services := servicesOK_init

/-- The mock thread submits the tasks in the order of their numbers. -/
theorem numbered_step {prog : Program ℕ ℕ} {e : Event ℕ ℕ ℕ} (h : Numbered p)
    (hs : p.step prog e = some p')
    (he : ∀ client request, e = .query client request →
      client = p.submitted.length ∧ request = p.submitted.length) : Numbered p' := by
  cases SearchProxy.step_cases prog hs with
  | query client request =>
    obtain ⟨rfl, rfl⟩ := he client request rfl
    intro task ht
    rcases List.mem_append.1 ht with ht | ht
    · exact h task ht
    · rw [List.mem_singleton.1 ht]
      exact ⟨rfl, rfl⟩
  | addThrow | addCheck | addPush | start | startAbort | stopBegin | stopReturn => exact h
  | loop | draw | takeNone | take | hand | done => exact h

/-- A task submitted is that of its number, which is in range. -/
theorem Inv.submitted_eq (h : Inv env s) {task : SearchTask ℕ ℕ}
    (ht : task ∈ s.searchProxy.submitted) :
    task = ⟨task.ticket, task.ticket, task.ticket⟩ ∧
      task.ticket < s.searchProxy.submitted.length := by
  obtain ⟨hclient, hrequest⟩ := h.numbered task ht
  have hticket := List.mem_map_of_mem (f := SearchTask.ticket) ht
  rw [h.conserved.tickets] at hticket
  refine ⟨?_, List.mem_range.1 hticket⟩
  cases task with
  | mk client request ticket =>
    simp only at hclient hrequest
    rw [hclient, hrequest]

/-- **A call is that of its number.** -/
theorem Inv.task_eq (h : Inv env s) {n : ℕ} {call : QueryCall} (hc : s.calls n = some call) :
    call.task = ⟨n, n, n⟩ := by
  obtain ⟨rfl, hhanded⟩ := h.calls.handed n call hc
  exact (h.submitted_eq (h.conserved.submitted_of_handed hhanded)).1

/-- A call is that of a task submitted. -/
theorem Inv.call_lt (h : Inv env s) {n : ℕ} {call : QueryCall} (hc : s.calls n = some call) :
    n < s.searchProxy.submitted.length := by
  obtain ⟨rfl, hhanded⟩ := h.calls.handed n call hc
  exact (h.submitted_eq (h.conserved.submitted_of_handed hhanded)).2

/-- A task in a queue was submitted. -/
theorem Inv.submitted_of_queued (h : Inv env s) {task : SearchTask ℕ ℕ}
    (ht : task ∈ s.searchProxy.queued) : task ∈ s.searchProxy.submitted := by
  rw [← Multiset.mem_coe, h.conserved.sum]
  exact Multiset.mem_add.2 (.inl (Multiset.mem_add.2 (.inl ht)))

/-- No call was made for a task that a worker holds. -/
theorem Inv.calls_handing (h : Inv env s) {w k : ℕ} {task : SearchTask ℕ ℕ}
    (hw : s.searchProxy.threadPool[w]? = some ⟨k, .handing task⟩) :
    s.calls task.ticket = none := by
  cases hc : s.calls task.ticket with
  | none => rfl
  | some call =>
    obtain ⟨hticket, hhanded⟩ := h.calls.handed _ call hc
    exact absurd hticket (h.conserved.not_handed hw hhanded)

/-- A step of the proxy alone keeps the invariant, if it keeps what the main thread knows. -/
theorem Inv.proxy (h : Inv env s) {e : Event ℕ ℕ ℕ} (hp : s.searchProxy.step env.program e = some p)
    (he : ∀ client request, e = .query client request →
      client = s.searchProxy.submitted.length ∧ request = s.searchProxy.submitted.length)
    (hhand : ∀ w action y task, e = .worker w action → s.searchProxy.threadPool[w]? = some y →
      y.phase ≠ .handing task ∧ y.phase ≠ .querying task)
    {main : MainPhase} {mock : MockPhase}
    (hM : MainOK env { s with searchProxy := p, mainThread := main, mockThread := mock }) :
    Inv env { s with searchProxy := p, mainThread := main, mockThread := mock } := by
  obtain ⟨hhanded, hquerying⟩ := querying_step hp hhand
  exact ⟨hM, conserved_step h.conserved hp, numbered_step h.numbered hp he,
    h.calls.same hhanded hquerying, h.services⟩

/-- **Every step keeps the invariant.** -/
theorem inv_step (h : Inv env s) (hs : s.step env a = some s') : Inv env s' := by
  have hM := mainOK_step h.main hs
  cases step_cases hs with
  | interrupt => exact ⟨hM, h.conserved, h.numbered, h.calls, h.services⟩
  | addThrow k p hm hk => exact absurd hk (h.main.not_running hm)
  | addCheck k p hm hlt hp => exact h.proxy hp (by simp) (by simp) hM
  | addPush k p hm hp => exact h.proxy hp (by simp) (by simp) hM
  | start p hm hp => exact h.proxy hp (by simp) (by simp) hM
  | stopBegin p hm hp => exact h.proxy hp (by simp) (by simp) hM
  | stopReturn p hm hp => exact h.proxy hp (by simp) (by simp) hM
  | submit i p hm hlt hp =>
    refine h.proxy hp ?_ (by simp) hM
    intro client request he
    cases he
    exact ⟨rfl, rfl⟩
  | worker w x action p hw hhand hquery hp =>
    refine h.proxy hp (by simp) ?_ hM
    intro w' action' y task he hy
    cases he
    rw [hw] at hy
    cases hy
    exact ⟨hhand task, hquery task⟩
  | spawnMock | joinMock | mockLoop | roundDone | wake =>
    exact ⟨hM, h.conserved, h.numbered, h.calls, h.services⟩
  | hand w k task action p hw hp =>
    refine ⟨hM, conserved_step h.conserved hp, numbered_step h.numbered hp (by simp), ?_,
      h.services.hand (h.calls_handing hw)⟩
    rw [step_handing hw hp]
    exact h.calls.hand h.conserved hw
  | done w k task action p hw hret hp =>
    refine ⟨hM, conserved_step h.conserved hp, numbered_step h.numbered hp (by simp), ?_,
      h.services⟩
    rw [step_querying hw hp]
    exact h.calls.done hw (of_decide_eq_true hret)
  | caller n call service t hc hk ht =>
    have hlock : call.phase.holds = true → service.locked = true := fun hh =>
      (h.services.locked _ service hk).2 ⟨n, call, hc, rfl, hh⟩
    obtain ⟨-, ht', hactive⟩ := caller_holds (v := s.view env n call _ _) ht hlock
    refine ⟨hM, h.conserved, h.numbered, h.calls.move hc hactive _ _, ?_⟩
    refine h.services.move hc ht' ?_
    intro m c hm hservice hholds
    refine h.calls.unique (fun w x hw => (h.main.worker_eq hw).2) hm hc ?_ hactive hservice
    intro hret
    rw [hret] at hholds
    cases hholds
  | thread n i pool hi => exact ⟨hM, h.conserved, h.numbered, h.calls, h.services⟩

theorem inv_run {as : List Action} (h : exec (step env) (init env) as = some s) : Inv env s :=
  exec_inv inv_step inv_init h

/-- No worker was destroyed. -/
theorem Inv.aborted (h : Inv env s) : s.searchProxy.aborted = false := by
  have hlife := h.main.lifecycle
  cases hm : s.mainThread <;> rw [hm] at hlife
  case adding | pushing => exact hlife.2.aborted
  case starting | returned | joining | stopping | joiningWorkers => exact Stands.aborted hlife

/-- A service in an active call is locked exactly if that call holds it. -/
theorem Inv.locked_eq (h : Inv env s) {call : QueryCall} {service : SearchService}
    (hc : s.calls n = some call) (hactive : call.phase ≠ .returned)
    (hk : s.searchServices[call.service]? = some service) :
    service.locked = call.phase.holds := by
  rw [Bool.eq_iff_iff, h.services.locked _ service hk]
  constructor
  · rintro ⟨m, c, hm, hservice, hholds⟩
    have hret : c.phase ≠ .returned := by
      intro hret
      rw [hret] at hholds
      cases hholds
    obtain rfl : m = n := h.calls.unique (fun w x hw => (h.main.worker_eq hw).2) hm hc hret hactive
      hservice
    rw [hm] at hc
    cases hc
    exact hholds
  · exact fun hholds => ⟨n, call, hc, rfl, hholds⟩

/-- **Each service works on one task at a time**: no worker is destroyed and a running proxy has one
for each service, no two calls on a service are active, and a call that is before the lock finds it
free. -/
structure OneCallEach (env : Environment) (s : Process) : Prop where
  workers : OneWorkerEach env.program s.searchProxy
  running : s.searchProxy.keepRunning = true →
    s.searchProxy.workers = List.range env.hardwareConcurrency
  unique : ∀ n m c d, s.calls n = some c → s.calls m = some d → c.phase ≠ .returned →
    d.phase ≠ .returned → c.service = d.service → n = m
  unlocked : ∀ n call service, s.calls n = some call → call.phase = .called →
    s.searchServices[call.service]? = some service → service.locked = false

/-- **Each service works on one task at a time**, in every state of every run of the program. -/
theorem one_call_each {as : List Action} (h : exec (step env) (init env) as = some s) :
    OneCallEach env s := by
  have hI := inv_run h
  obtain ⟨hsane, hmanned⟩ := hI.main.manned
  refine ⟨oneWorkerEach_of_manned hsane hmanned, ?_, ?_, ?_⟩
  · intro hrun
    have hlife := hI.main.lifecycle
    cases hm : s.mainThread <;> rw [hm] at hlife
    case adding | pushing =>
      rw [hlife.2.keepRunning] at hrun
      cases hrun
    case starting | returned | joiningWorkers =>
      rw [Stands.keepRunning hlife] at hrun
      cases hrun
    case joining | stopping => exact Stands.workers hlife
  · intro n m c d hc hd hcret hdret hservice
    exact hI.calls.unique (fun w x hw => (hI.main.worker_eq hw).2) hc hd hcret hdret hservice
  · intro n call service hc hcalled hk
    have hlock := hI.locked_eq hc (by simp [hcalled]) hk
    rw [hlock, hcalled]
    rfl

/-! ### A run of the program -/

/-- A directory with one text of two lines, and a file with another extension. -/
def sampleData : List DirectoryEntry :=
  [⟨⟨[100, 47, 97, 46, 116, 120, 116], by decide⟩, true, ⟨[97, 98, 10, 98, 10], by decide⟩⟩,
    ⟨⟨[100, 47, 98, 46, 108, 105, 115, 116], by decide⟩, true, ⟨[98, 98, 10], by decide⟩⟩]

/-- A dictionary with the one word `b`. -/
def sampleDictionary : Dictionary := ⟨[.singleton 98]⟩

theorem sampleDictionary_pos : 0 < sampleDictionary.words.length := Nat.one_pos

/-- One service; every second client is Premium. -/
def sampleEnvironment : Environment where
  hardwareConcurrency := 1
  data := sampleData
  dictionary := sampleDictionary
  draws n := ⟨n % 2 == 0, ⟨0, sampleDictionary_pos⟩, n⟩

/-- The start, one round of requests, and the worker takes the last Premium task. -/
def sampleStart : List Action :=
  List.replicate 4 .main ++ List.replicate 17 .mock ++
    [.worker 0 .loop, .worker 0 (.draw 0), .worker 0 (.take 7), .worker 0 .hand]

/-- The call for it gets under way. -/
def sampleQuery : List Action := sampleStart ++ List.replicate 3 (.caller 14)

def sampleProcess : Process :=
  (exec (step sampleEnvironment) (init sampleEnvironment) sampleQuery).get (by decide +kernel)

theorem sampleProcess_run :
    exec (step sampleEnvironment) (init sampleEnvironment) sampleQuery = some sampleProcess :=
  (Option.some_get _).symm

theorem one_call_each_sample : OneCallEach sampleEnvironment sampleProcess :=
  one_call_each sampleProcess_run

end Process

end MTFind2
