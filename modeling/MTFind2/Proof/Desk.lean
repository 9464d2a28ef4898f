import MTFind2.Proof.Starving
import MTFind2.Spec.Desk

/-!
# The program is a desk for requests

`Process.desk` reads the state of the desk off a state of the program, and `Process.deskEvent`
says what a step is at the desk. All other steps leave the desk as it is (`desk_step`).

* The mock thread submits a request.
* A worker takes one: there are not more requests served than workers (`serving_le`), and it
  takes a newest one of its class.
* A call returns: the request is answered.

`refines_desk`: so the desk of a run of the program is at every moment the desk that its
events lead to, and what the clients have been sent is what it says.
-/

namespace MTFind2

open Run SearchProxy

namespace SearchProxy

variable {σ κ ρ : Type} {prog : Program κ ρ} {p p' : SearchProxy σ κ ρ} {e : Event σ κ ρ}

/-- The steps as the queues see them. -/
inductive QueueStep (prog : Program κ ρ) (p : SearchProxy σ κ ρ) :
    Event σ κ ρ → SearchProxy σ κ ρ → Prop
  | same (e : Event σ κ ρ) (p' : SearchProxy σ κ ρ) (hq : p'.queues = p.queues)
      (hs : p'.submitted = p.submitted) (hnone : ∀ key task, ¬ Takes prog p e key task) :
      QueueStep prog p e p'
  | query (client : κ) (request : ρ) (p' : SearchProxy σ κ ρ)
      (hq : p'.queues = Function.update p.queues (prog.subscriptionType client)
        (p.queues (prog.subscriptionType client) ++ [⟨client, request, p.submitted.length⟩]))
      (hs : p'.submitted = p.submitted ++ [⟨client, request, p.submitted.length⟩]) :
      QueueStep prog p (.query client request) p'
  | take (w j : ℕ) (p' : SearchProxy σ κ ρ) (key : SubscriptionType) (task : SearchTask κ ρ)
      (htake : Takes prog p (.worker w (.take j)) key task)
      (hcons : (p.queues key : Multiset (SearchTask κ ρ)) =
        task ::ₘ (p'.queues key : Multiset (SearchTask κ ρ)))
      (hother : ∀ k, k ≠ key → p'.queues k = p.queues k) (hs : p'.submitted = p.submitted) :
      QueueStep prog p (.worker w (.take j)) p'

theorem queue_cases [DecidableEq σ] (h : p.step prog e = some p') : QueueStep prog p e p' := by
  cases step_cases prog h with
  | query client request => exact .query client request _ rfl rfl
  | addThrow | addCheck | addPush | start | startAbort | stopBegin | stopReturn
  | loop | draw | hand | done =>
    refine .same _ _ rfl rfl ?_
    rintro key task ⟨w, j, x, rest, he, -⟩
    cases he
  | takeNone w x key j hw hx hq =>
    refine .same _ _ rfl rfl ?_
    rintro k task ⟨w', j', y, rest, he, hy, hk, hpop⟩
    cases he
    rw [hw] at hy
    cases hy
    rw [hx] at hk
    cases hk
    rw [hq] at hpop
    cases hpop
  | take w x key j task rest hw hx hpop =>
    refine .take w j _ key task ⟨w, j, x, rest, rfl, hw, hx, hpop⟩ ?_ ?_ rfl
    · simpa using PriorityQueue.popAt_cons hpop
    · exact fun k hk => Function.update_of_ne hk ..

end SearchProxy

namespace Process

variable {env : Environment} {s s' : Process} {a : Action} {as : List Action} {n : ℕ}

instance : DecidableRel (Overtakes env) := fun _ _ => inferInstanceAs (Decidable (_ ∧ _))

/-- How far request `n` has come. -/
def status (env : Environment) (s : Process) (n : ℕ) : RequestStatus :=
  if s.Waiting env n then .waiting else if s.hasReturned n then .answered else .serving

/-- **The desk behind a state of the program.** -/
def desk (env : Environment) (s : Process) : Desk :=
  ⟨(List.range s.searchProxy.submitted.length).map (s.status env)⟩

theorem desk_getElem? {status : RequestStatus} : (s.desk env).requests[n]? = some status ↔
    n < s.searchProxy.submitted.length ∧ s.status env n = status := by
  by_cases hn : n < s.searchProxy.submitted.length <;> simp [desk, hn]

theorem status_congr (hwaits : s'.Waiting env n ↔ s.Waiting env n)
    (hret : s'.hasReturned n = s.hasReturned n) : s'.status env n = s.status env n := by
  simp only [status, hwaits, hret]

/-- The desk depends on how many requests were submitted, and on how far each has come. -/
theorem desk_same (hlen : s'.searchProxy.submitted.length = s.searchProxy.submitted.length)
    (hstatus : ∀ m, s'.status env m = s.status env m) : s'.desk env = s.desk env := by
  have hfun : s'.status env = s.status env := funext hstatus
  simp only [desk, hlen, hfun]

/-- One request comes further. -/
theorem desk_set (hlen : s'.searchProxy.submitted.length = s.searchProxy.submitted.length)
    (hother : ∀ m, m ≠ n → s'.status env m = s.status env m) :
    s'.desk env = ⟨(s.desk env).requests.set n (s'.status env n)⟩ := by
  simp only [desk, hlen, Desk.mk.injEq]
  refine List.ext_getElem? fun m => ?_
  rw [List.getElem?_set]
  by_cases hm : n = m
  · subst hm
    by_cases hn : n < s.searchProxy.submitted.length <;> simp [hn]
  · by_cases hlt : m < s.searchProxy.submitted.length
    · simp [hm, hlt, hother m (Ne.symm hm)]
    · simp [hm, hlt]

/-! ## What the steps are at the desk -/

/-- The task that worker `w` takes with index `j`. -/
def taken (env : Environment) (s : Process) (w j : ℕ) : Option (SearchTask ℕ ℕ) :=
  (s.searchProxy.threadPool[w]?).bind fun x => match x.phase with
    | .taking key => (PriorityQueue.popAt (SearchTaskCompare env.program)
        (s.searchProxy.queues key) j).map Prod.fst
    | _ => none

theorem taken_eq_some {w j : ℕ} {task : SearchTask ℕ ℕ} : s.taken env w j = some task ↔
    ∃ key, Takes env.program s.searchProxy (.worker w (.take j)) key task := by
  constructor
  · intro h
    obtain ⟨x, hw, h⟩ := Option.bind_eq_some_iff.1 h
    split at h
    · rename_i key hx
      obtain ⟨r, hpop, rfl⟩ := Option.map_eq_some_iff.1 h
      exact ⟨key, w, j, x, r.2, rfl, hw, hx, hpop⟩
    · cases h
  · rintro ⟨key, w', j', x, rest, he, hw, hx, hpop⟩
    cases he
    simp [taken, hw, hx, hpop]

end Process

/-- All threads of the call are joined, and it is about to return. -/
def QueryCall.isReturning (call : QueryCall) : Bool :=
  match call.phase with
  | .joining k => decide (call.threads.length ≤ k)
  | _ => false

namespace Process

variable {env : Environment} {s s' : Process} {a : Action} {as : List Action} {n : ℕ}

/-- **What a step of the program is at the desk**: the mock thread submits a request, a worker takes
one out of its queue, or the call for one returns. -/
def deskEvent (env : Environment) (s : Process) : Action → Option DeskEvent
  | .mock =>
    match s.mockThread with
    | .submitting i => if i < searchRequestCount then some .submit else none
    | _ => none
  | .worker w (.take j) => (s.taken env w j).map fun task => .call task.ticket
  | .caller n => (s.calls n).bind fun call => if call.isReturning then some (.answer n) else none
  | _ => none

/-- The step from `s` to `s'` is the event `e` at the desk, or leaves it as it is. -/
def DeskStep (env : Environment) (s s' : Process) (e : Option DeskEvent) : Prop :=
  e.elim (s'.desk env = s.desk env) fun e =>
    (s.desk env).step env.hardwareConcurrency (Overtakes env) e = some (s'.desk env)

/-! ## As many are served as there are workers -/

/-- Worker `w` holds the task for request `n`, or is in the call for it. -/
def ServedBy (s : Process) (n w : ℕ) : Prop :=
  ∃ (service : ℕ) (phase : WorkerPhase ℕ ℕ),
    s.searchProxy.threadPool[w]? = some ⟨service, phase⟩ ∧
      (phase = .handing ⟨n, n, n⟩ ∨ phase = .querying ⟨n, n, n⟩)

theorem status_waiting (h : s.status env n = .waiting) : s.Waiting env n := by
  by_contra hnot
  unfold status at h
  rw [if_neg hnot] at h
  split at h <;> cases h

theorem status_answered (h : s.status env n = .answered) : s.hasReturned n = true := by
  unfold status at h
  split at h
  · cases h
  · split at h
    · assumption
    · cases h

theorem status_serving (h : s.status env n = .serving) :
    ¬ s.Waiting env n ∧ s.hasReturned n = false := by
  unfold status at h
  split at h
  · cases h
  · rename_i hwaits
    refine ⟨hwaits, ?_⟩
    split at h
    · cases h
    · rename_i hret
      simpa using hret

/-- **A request that is served is served by a worker.** -/
theorem exists_servedBy (h : Inv env s) (hn : n < s.searchProxy.submitted.length)
    (hs : s.status env n = .serving) : ∃ w < env.hardwareConcurrency, s.ServedBy n w := by
  obtain ⟨hwaits, hret⟩ := status_serving hs
  rcases h.submitted_cases hn with hw | ⟨w, service, hw⟩ | hc
  · exact absurd hw hwaits
  · exact ⟨w, (h.main.worker_eq hw).1, service, _, hw, .inl rfl⟩
  · obtain ⟨call, hcall⟩ := Option.ne_none_iff_exists'.1 hc
    have hactive : call.phase ≠ .returned := by
      intro hphase
      simp [hasReturned, hcall, hphase] at hret
    obtain ⟨w, hw⟩ := h.calls.active n call hcall hactive
    rw [h.task_eq hcall] at hw
    exact ⟨w, (h.main.worker_eq hw).1, _, _, hw, .inr rfl⟩

/-- A worker serves one request at a time. -/
theorem ServedBy.unique {m w : ℕ} (hn : s.ServedBy n w) (hm : s.ServedBy m w) : n = m := by
  obtain ⟨service, phase, hw, hphase⟩ := hn
  obtain ⟨service', phase', hw', hphase'⟩ := hm
  rw [hw] at hw'
  cases hw'
  rcases hphase with rfl | rfl
  · simpa using hphase'
  · simpa using hphase'

/-- **At most one request for each worker is served.** -/
theorem serving_le (h : Inv env s) :
    (s.desk env).requests.count .serving ≤ env.hardwareConcurrency := by
  let served := (Finset.range s.searchProxy.submitted.length).filter
    fun n => s.status env n = .serving
  have hcount : (s.desk env).requests.count .serving = served.card := by
    unfold desk List.count
    rw [List.countP_map, List.countP_eq_length_filter]
    rfl
  have hworker : ∀ n ∈ served, ∃ w < env.hardwareConcurrency, s.ServedBy n w := by
    intro n hn
    obtain ⟨hlt, hs⟩ := Finset.mem_filter.1 hn
    exact exists_servedBy h (Finset.mem_range.1 hlt) hs
  choose! worker hlt hby using hworker
  have hcard : served.card ≤ (Finset.range env.hardwareConcurrency).card := by
    refine Finset.card_le_card_of_injOn worker ?_ ?_
    · intro n hn
      exact Finset.mem_coe.2 (Finset.mem_range.2 (hlt n hn))
    · intro n hn m hm heq
      have hm' := hby m hm
      rw [← heq] at hm'
      exact (hby n hn).unique hm'
  rw [hcount]
  rwa [Finset.card_range] at hcard

/-! ## Every step is a step of the desk -/

/-- Where the queues and the calls that have returned are the same, so is the desk. -/
theorem desk_same_of (hq : s'.searchProxy.queues = s.searchProxy.queues)
    (hs : s'.searchProxy.submitted = s.searchProxy.submitted)
    (hret : ∀ m, s'.hasReturned m = s.hasReturned m) : s'.desk env = s.desk env := by
  refine desk_same (by rw [hs]) fun m => status_congr ?_ (hret m)
  unfold Waiting
  rw [hq]

/-- The mock thread submits a request. -/
theorem desk_submit {p : SearchProxy ℕ ℕ ℕ}
    (hp : s.searchProxy.step env.program
      (.query s.searchProxy.submitted.length s.searchProxy.submitted.length) = some p)
    {mock : MockPhase} :
    ({ s with searchProxy := p, mockThread := mock } : Process).desk env =
      ⟨(s.desk env).requests ++ [.waiting]⟩ := by
  set s' : Process := { s with searchProxy := p, mockThread := mock }
  let n := s.searchProxy.submitted.length
  have hq : s'.searchProxy.queues = Function.update s.searchProxy.queues
      (env.program.subscriptionType n)
      (s.searchProxy.queues (env.program.subscriptionType n) ++ [⟨n, n, n⟩]) ∧
      s'.searchProxy.submitted = s.searchProxy.submitted ++ [⟨n, n, n⟩] := by
    cases SearchProxy.step_cases env.program hp with
    | query client request => exact ⟨rfl, rfl⟩
  obtain ⟨hq, hs⟩ := hq
  have hnew : s'.status env n = .waiting := by
    simp [status, Waiting, hq]
  have hold : ∀ m ∈ List.range n, s'.status env m = s.status env m := by
    intro m hm
    have hne : m ≠ n := (List.mem_range.1 hm).ne
    have hwaits : s'.Waiting env m ↔ s.Waiting env m := by
      unfold Waiting
      rw [hq]
      by_cases hkey : env.program.subscriptionType m = env.program.subscriptionType n
      · simp [hkey, hne]
      · rw [Function.update_of_ne hkey]
    exact status_congr hwaits rfl
  simp only [desk, hs, List.length_append, List.length_singleton, List.range_succ, List.map_append,
    List.map_singleton, Desk.mk.injEq]
  rw [List.map_congr_left hold]
  exact congrArg (fun status => (List.range n).map (s.status env) ++ [status]) hnew

/-- A request taken from a queue is there once. -/
theorem Inv.taken (h : Inv env s) {key : SubscriptionType} {task : SearchTask ℕ ℕ}
    {rest : List (SearchTask ℕ ℕ)} (hcons : (s.searchProxy.queues key : Multiset (SearchTask ℕ ℕ)) =
      task ::ₘ (rest : Multiset (SearchTask ℕ ℕ))) : task ∉ rest := by
  have hnodup := h.conserved.nodup
  rw [add_assoc, Multiset.map_add] at hnodup
  have hqueued := (Multiset.nodup_add.1 hnodup).1
  have hle : (s.searchProxy.queues key : Multiset (SearchTask ℕ ℕ)) ≤ s.searchProxy.queued := by
    unfold queued
    cases key
    · exact Multiset.le_add_left _ _
    · exact Multiset.le_add_right _ _
  have hkey := Multiset.nodup_of_le (Multiset.map_le_map hle) hqueued
  rw [hcons, Multiset.map_cons, Multiset.nodup_cons] at hkey
  intro hmem
  exact hkey.1 (Multiset.mem_map_of_mem _ hmem)

/-- A request that a worker takes is one of the newest of its class. -/
theorem next_of_take {w j n : ℕ}
    (htake : Takes env.program s.searchProxy (.worker w (.take j))
      (env.program.subscriptionType n) ⟨n, n, n⟩)
    (hstatus : (s.desk env).requests[n]? = some .waiting) :
    (s.desk env).Next (Overtakes env) n := by
  refine ⟨hstatus, ?_⟩
  rintro m - hm ⟨hclass, hnow⟩
  have hmwaits := status_waiting (desk_getElem?.1 hm).2
  unfold Waiting at hmwaits
  rw [hclass] at hmwaits
  have hle := (take_newest htake).2 _ hmwaits
  simp only [timestamp, Environment.program, request_timestamp] at hle
  omega

/-- **A worker takes a request**: one of the newest of its class is called, and a worker was free
for it. -/
theorem desk_take (h : Inv env s) (h' : Inv env s') {w j : ℕ} {key : SubscriptionType}
    {task : SearchTask ℕ ℕ}
    (htake : Takes env.program s.searchProxy (.worker w (.take j)) key task)
    (hcons : (s.searchProxy.queues key : Multiset (SearchTask ℕ ℕ)) =
      task ::ₘ (s'.searchProxy.queues key : Multiset (SearchTask ℕ ℕ)))
    (hother : ∀ k, k ≠ key → s'.searchProxy.queues k = s.searchProxy.queues k)
    (hs : s'.searchProxy.submitted = s.searchProxy.submitted) (hcalls : s'.calls = s.calls) :
    (s.desk env).step env.hardwareConcurrency (Overtakes env) (.call task.ticket) =
      some (s'.desk env) := by
  have hret : ∀ m, s'.hasReturned m = s.hasReturned m := by
    intro m
    unfold hasReturned
    rw [hcalls]
  have hmem : task ∈ s.searchProxy.queues key := by
    rw [← Multiset.mem_coe, hcons]
    exact Multiset.mem_cons_self task _
  -- the task is that of its number
  have hsub : task ∈ s.searchProxy.submitted := h.submitted_of_queued (mem_queued hmem)
  obtain ⟨n, rfl⟩ : ∃ n, task = ⟨n, n, n⟩ := ⟨_, (h.submitted_eq hsub).1⟩
  have hkey : env.program.subscriptionType n = key := h.conserved.classes key _ hmem
  subst hkey
  have hwaits : s.Waiting env n := hmem
  have hgone : ¬ s'.Waiting env n := h.taken hcons
  have hnone : s.calls n = none := h.calls_waiting hwaits
  have hserving : s'.status env n = .serving := by
    simp [status, hgone, hasReturned, hcalls, hnone]
  have hdesk : s'.desk env = ⟨(s.desk env).requests.set n .serving⟩ := by
    rw [← hserving]
    refine desk_set (by rw [hs]) fun m hm => status_congr ?_ (hret m)
    unfold Waiting
    by_cases hk : env.program.subscriptionType m = env.program.subscriptionType n
    · rw [hk, ← Multiset.mem_coe, ← Multiset.mem_coe, hcons, Multiset.mem_cons]
      simp [hm]
    · rw [hother _ hk]
  have hlt := h.waiting_lt hwaits
  have hstatus : (s.desk env).requests[n]? = some .waiting :=
    desk_getElem?.2 ⟨hlt, by simp [status, hwaits]⟩
  -- there are not more requests served than workers afterwards, so there was one less before
  have hcapacity : (s.desk env).requests.count .serving < env.hardwareConcurrency := by
    have hle := serving_le h'
    obtain ⟨hlen, hget⟩ := List.getElem?_eq_some_iff.1 hstatus
    rw [hdesk, List.count_set hlen, hget] at hle
    simpa using hle
  rw [hdesk]
  exact if_pos ⟨next_of_take htake hstatus, hcapacity⟩

/-- A call that is about to return does so with the next step of its caller, and no other does. -/
theorem returning_iff {call : QueryCall} {sources : List ContentSource} {locked : Bool}
    {t : Service ℕ} (ht : (s.view env n call sources locked).stepCaller = some t) :
    t.phase = .returned ↔ call.isReturning = true := by
  cases Service.step_cases (m := .caller) ht with
  | acquire hp | spawned hp | spawn _ _ hp =>
    have hphase : call.phase = _ := hp
    simp [QueryCall.isReturning, hphase]
  | join k i hp hk | notJoinable k hp hk =>
    have hphase : call.phase = .joining k := hp
    have hlt : k < call.threads.length := (List.getElem?_eq_some_iff.1 hk).1
    simp [QueryCall.isReturning, hphase, hlt]
  | release k hp hk =>
    have hphase : call.phase = .joining k := hp
    have hle : call.threads.length ≤ k := List.getElem?_eq_none_iff.1 hk
    simp [QueryCall.isReturning, hphase, hle]

/-- **The caller moves**: if its call returns, the request is answered. -/
theorem desk_caller (h : Inv env s) {call : QueryCall} {service : SearchService} {t : Service ℕ}
    (hc : s.calls n = some call)
    (ht : (s.view env n call service.contentSources service.locked).stepCaller = some t) :
    DeskStep env s (s.store n call t) (s.deskEvent env (.caller n)) := by
  set s' := s.store n call t
  have hactive : call.phase ≠ .returned := by
    intro hphase
    have hview : (s.view env n call service.contentSources service.locked).phase = .returned :=
      hphase
    rw [Service.stepCaller, hview] at ht
    cases ht
  have hold : s.hasReturned n = false := by simp [hasReturned, hc, hactive]
  have hother : ∀ m, m ≠ n → s'.hasReturned m = s.hasReturned m := by
    intro m hm
    simp [s', store, hasReturned, hm]
  by_cases hret : t.phase = .returned
  · have hevent : s.deskEvent env (.caller n) = some (.answer n) := by
      simp [deskEvent, hc, (returning_iff ht).1 hret]
    have hnew : s'.hasReturned n = true := by simp [s', store, hasReturned, hret]
    have hgone : ¬ s.Waiting env n := by
      intro hwaits
      rw [h.calls_waiting hwaits] at hc
      cases hc
    have hstatus : (s.desk env).requests[n]? = some .serving :=
      desk_getElem?.2 ⟨h.call_lt hc, by simp [status, hgone, hold]⟩
    have hanswered : s'.status env n = .answered := by
      have hgone' : ¬ s'.Waiting env n := hgone
      simp [status, hgone', hnew]
    have hdesk : s'.desk env = ⟨(s.desk env).requests.set n .answered⟩ := by
      rw [← hanswered]
      exact desk_set rfl fun m hm => status_congr Iff.rfl (hother m hm)
    rw [hevent, DeskStep, Option.elim_some, hdesk]
    exact if_pos hstatus
  · have hevent : s.deskEvent env (.caller n) = none := by
      have hnot : ¬ call.isReturning = true := fun hr => hret ((returning_iff ht).2 hr)
      simp [deskEvent, hc, hnot]
    rw [hevent, DeskStep, Option.elim_none]
    refine desk_same_of rfl rfl ?_
    intro m
    by_cases hm : m = n
    · subst hm
      rw [hold]
      simp [s', store, hasReturned, hret]
    · exact hother m hm

/-- A step of the proxy that neither submits nor takes a task. -/
theorem desk_proxy {e : Event ℕ ℕ ℕ} (he : e.submission = none)
    (hnone : ∀ w j, e ≠ .worker w (.take j))
    (hp : s.searchProxy.step env.program e = some s'.searchProxy) (hcalls : s'.calls = s.calls) :
    s'.desk env = s.desk env := by
  generalize hp' : s'.searchProxy = p at hp
  cases queue_cases hp with
  | same _ _ hq hs =>
    refine desk_same_of (by rw [hp', hq]) (by rw [hp', hs]) fun m => ?_
    unfold hasReturned
    rw [hcalls]
  | query => cases he
  | take w j => exact absurd rfl (hnone w j)

/-- **A worker moves**: it may take a request. -/
theorem desk_worker (h : Inv env s) (h' : Inv env s') {w : ℕ} {action : WorkerAction}
    (hp : s.searchProxy.step env.program (.worker w action) = some s'.searchProxy)
    (hcalls : s'.calls = s.calls) :
    DeskStep env s s' (s.deskEvent env (.worker w action)) := by
  cases action with
  | loop | draw | hand | done => exact desk_proxy rfl (fun _ _ he => by cases he) hp hcalls
  | take j =>
    generalize hp' : s'.searchProxy = p at hp
    cases queue_cases hp with
    | same _ _ hq hs hnone =>
      have hevent : s.taken env w j = none := by
        rw [Option.eq_none_iff_forall_ne_some]
        intro task htask
        obtain ⟨key, htake⟩ := taken_eq_some.1 htask
        exact hnone key task htake
      simp only [deskEvent, hevent, Option.map_none, DeskStep, Option.elim_none]
      refine desk_same_of (by rw [hp', hq]) (by rw [hp', hs]) fun m => ?_
      unfold hasReturned
      rw [hcalls]
    | take _ _ _ key task htake hcons hother hs =>
      subst hp'
      have hevent : s.taken env w j = some task := taken_eq_some.2 ⟨key, htake⟩
      simp only [deskEvent, hevent, Option.map_some, DeskStep, Option.elim_some]
      exact desk_take h h' htake hcons hother hs hcalls

/-- **Every step of the program is the step of the desk that `deskEvent` says**, or leaves the desk
as it is. -/
theorem desk_step (h : Inv env s) (hs : s.step env a = some s') :
    DeskStep env s s' (s.deskEvent env a) := by
  have h' := inv_step h hs
  cases step_cases hs with
  | interrupt | spawnMock | joinMock | thread => exact rfl
  | addThrow k p hm hk => exact absurd hk (h.main.not_running hm)
  | addCheck k p hm hlt hp => exact desk_proxy rfl (fun _ _ he => by cases he) hp rfl
  | addPush k p hm hp | start p hm hp | stopBegin p hm hp | stopReturn p hm hp =>
    exact desk_proxy rfl (fun _ _ he => by cases he) hp rfl
  | done w k task action p hw hret hp => exact desk_worker h h' hp rfl
  | worker w x action p hw hhand hquery hp => exact desk_worker h h' hp rfl
  | mockLoop hm | wake hm =>
    simp only [deskEvent, hm]
    exact rfl
  | submit i p hm hlt hp =>
    simp only [deskEvent, hm, if_pos hlt]
    exact congrArg some (desk_submit hp).symm
  | roundDone i hm hi =>
    simp only [deskEvent, hm, if_neg (not_lt.2 hi)]
    exact rfl
  | hand w k task action p hw hp =>
    have hnone := h.calls_handing hw
    have hevent : s.deskEvent env (.worker w action) = none := by
      cases action with
      | loop | draw | hand | done => rfl
      | take j => simp [deskEvent, taken, hw]
    rw [hevent, DeskStep, Option.elim_none, step_handing hw hp]
    refine desk_same_of rfl rfl fun m => ?_
    by_cases hm : m = task.ticket
    · subst hm
      simp [hasReturned, hnone]
    · simp [hasReturned, hm]
  | caller n call service t hc hk ht => exact desk_caller h hc ht

/-! ## Every run is a run of the desk -/

/-- **The desk tells how far each request is, and what its client has been sent.** It waits in its
queue, with a client that has been sent nothing; or a worker serves it; or its call has returned,
and a Premium client has been sent the results of all sources, a Standard client its refusals. -/
structure Shows (env : Environment) (s : Process) (d : Desk) : Prop where
  length : d.requests.length = s.searchProxy.submitted.length
  waiting : ∀ n, d.requests[n]? = some .waiting →
    s.Waiting env n ∧ (s.pool.clients n).received = []
  serving : ∀ n, d.requests[n]? = some .serving →
    ∃ w < env.hardwareConcurrency, s.ServedBy n w
  answered : ∀ n, d.requests[n]? = some .answered → s.hasReturned n = true
  premium : ∀ n, d.requests[n]? = some .answered → (env.draws n).premium = true →
    s.delivered env n = env.answer n
  standard : ∀ n, d.requests[n]? = some .answered → (env.draws n).premium = false →
    (((s.pool.clients n).received.map Prod.snd : List Message) : Multiset Message) = env.refusal

theorem shows_desk (henv : env.Tame) (h : exec (step env) (init env) as = some s) :
    Shows env s (s.desk env) := by
  obtain ⟨hI, hA⟩ := apart_run h
  have hanswered : ∀ n, (s.desk env).requests[n]? = some .answered → s.hasReturned n = true :=
    fun n hn => status_answered (desk_getElem?.1 hn).2
  refine ⟨by simp [desk], ?_, ?_, hanswered, ?_, ?_⟩
  · intro n hn
    have hwaits := status_waiting (desk_getElem?.1 hn).2
    have hnone := hI.calls_waiting hwaits
    have hclient := ((hA n).fresh hnone).1
    rw [hclient]
    exact ⟨hwaits, rfl⟩
  · intro n hn
    obtain ⟨hlt, hserving⟩ := desk_getElem?.1 hn
    exact exists_servedBy hI hlt hserving
  · intro n hn hprem
    exact delivered_returned h hprem (henv.limits n) (hanswered n hn)
  · intro n hn hstd
    exact received_returned h hstd (hanswered n hn)

/-- **The program refines the desk**, on short texts and with non-empty queries: what the steps of a
run are at the desk is a run of the desk, which calls a newest request of a class and serves at most
as many at a time as there are cores; it ends at the desk that is read off the program's state, and
that tells how far each request is and what its client has been sent. -/
theorem refines_desk (henv : env.Tame) (h : exec (step env) (init env) as = some s) :
    exec (Desk.step env.hardwareConcurrency (Overtakes env)) Desk.init
        (events (step env) (deskEvent env) (init env) as) = some (s.desk env) ∧
      Shows env s (s.desk env) := by
  refine ⟨?_, shows_desk henv h⟩
  exact exec_events (I := Inv env) (π := desk env) inv_step desk_step inv_init h

theorem refines_desk_sample :
    exec (Desk.step sampleEnvironment.hardwareConcurrency (Overtakes sampleEnvironment)) Desk.init
        (events (step sampleEnvironment) (deskEvent sampleEnvironment) (init sampleEnvironment)
          sampleCalls) = some (sampleAnswered.desk sampleEnvironment) ∧
      Shows sampleEnvironment sampleAnswered (sampleAnswered.desk sampleEnvironment) :=
  refines_desk sampleEnvironment_tame sampleAnswered_run

end Process

end MTFind2
