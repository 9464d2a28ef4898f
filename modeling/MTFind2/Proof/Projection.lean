import MTFind2.Proof.QueryCalls

/-!
# Each call of the process is a call of its service

Seen from one task, a run of the whole program is a run of one call of `query` on a service
by itself: the other calls, the proxy and the main thread change nothing in between
(`callState_step`). So what holds for every interleaving of a call holds for the program.

* `Job.step_rename`: a thread does the same under every name.
* `apart_step`: the threads of a call serve its client, and nobody else does.
* `exec_callState`: the projection of a run to a call is the run of its moves in the call.
* `calls_independent`: so what a run makes of a task is what one call of `query` makes of it.
-/

namespace MTFind2

open Run

/-! ## Threads under other names -/

namespace Client

variable {ι ι' : Type} (f : ι → ι') (c : Client ι) (i : ι)

@[simp] theorem rename_credit : (c.rename f).credit = c.credit := rfl

@[simp] theorem rename_hasCredit : (c.rename f).hasCredit = c.hasCredit := rfl

@[simp] theorem rename_received :
    (c.rename f).received = c.received.map fun m => (f m.1, m.2) := rfl

theorem rename_receive (m : Message) :
    (c.rename f).receive (f i) m = (c.receive i m).rename f := by
  simp [rename, receive]

theorem rename_consumeCredit : (c.rename f).consumeCredit = c.consumeCredit.rename f := by
  unfold consumeCredit
  rw [rename_hasCredit]
  split <;> rfl

theorem rename_pushResponse (amount : UInt64) :
    (c.rename f).pushCreditRechargeResponse (f i) amount =
      (c.pushCreditRechargeResponse i amount).rename f := by
  unfold pushCreditRechargeResponse
  rw [rename_receive]
  dsimp only
  split <;> rfl

theorem rename_pushNotEnough (sem : Semaphore) : (c.rename f).pushNotEnoughCredit (f i) sem =
    ((c.pushNotEnoughCredit i sem).1.rename f, (c.pushNotEnoughCredit i sem).2) := by
  unfold pushNotEnoughCredit PaymentService.pushMessage
  rw [rename_receive]
  dsimp only
  rw [rename_pushResponse]
  rfl

theorem rename_pushResult (req : SearchRequest) (r : SearchResult) :
    (c.rename f).pushSearchResultFound (f i) req r =
      (c.pushSearchResultFound i req r).rename f :=
  rename_receive f c i _

/-- The results are those of the renamed threads. -/
theorem rename_results (req : SearchRequest) :
    (c.rename f).results req = (c.results req).map fun m => (f m.1, m.2) := by
  unfold results
  rw [rename_received, List.filterMap_map, List.map_filterMap]
  congr 1
  funext m
  simp [Option.map_map, Function.comp_def]

end Client

/-- **A thread does the same under every name.** -/
theorem Job.step_rename {ι ι' κ : Type} (f : ι → ι') (job : Job κ) (i : ι) (c : Client ι)
    (p : Phase) : job.step (f i) (c.rename f) p =
      (job.step i c p).map fun r => (r.1.rename f, r.2) := by
  cases p with
  | checking g => rfl
  | requesting g sem =>
    simp only [step, stepGiven, Client.rename_pushNotEnough, Option.map_some]
    rfl
  | waiting g sem =>
    simp only [step, stepGiven, Option.map_map]
    rfl
  | consuming g b =>
    simp only [step, stepGiven, Client.rename_consumeCredit, Option.map_some]
  | delivering g b =>
    simp only [step, stepGiven, Client.rename_pushResult, Option.map_some]
  | finished => rfl

/-! ## One call by itself -/

namespace Service

variable {clients : ℕ → Client ℕ} {A : ℕ} {req : SearchRequest} {S : List ContentSource}
  {s s' : Service ℕ} {m : Move}

/-- The caller leaves everything else as it is. -/
theorem caller_frame {κ : Type} [DecidableEq κ] {v t : Service κ} (hs : v.step .caller = some t) :
    t.client = v.client ∧ t.request = v.request ∧ t.contentSources = v.contentSources ∧
      t.pool.clients = v.pool.clients := by
  cases step_cases hs <;> exact ⟨rfl, rfl, rfl, rfl⟩

/-- The threads serve the client of the call. -/
def Serves (A : ℕ) (s : Service ℕ) : Prop :=
  s.client = A ∧ ∀ i t, s.pool.threads i = some t → t.job.client = A

theorem serves_step (h : Serves A s) (hs : s.step m = some s') : Serves A s' := by
  obtain ⟨hA, hthreads⟩ := h
  cases step_cases hs with
  | addContentSource | acquire | spawned | join | notJoinable | release => exact ⟨hA, hthreads⟩
  | spawn source rest hp =>
    refine ⟨hA, ?_⟩
    intro i t ht
    by_cases hi : i = s.threads.length
    · subst hi
      simp only [Service.spawn, Function.update_self, Option.some.injEq] at ht
      rw [← ht]
      exact hA
    · exact hthreads i t (by simpa [Service.spawn, hi] using ht)
  | thread i pool hi =>
    obtain ⟨t, c, p, ht, hstep, rfl⟩ := System.step_cases hi
    refine ⟨hA, ?_⟩
    intro j u hu
    by_cases hj : j = i
    · subst hj
      simp only [Function.update_self, Option.some.injEq] at hu
      rw [← hu]
      exact hthreads j t ht
    · exact hthreads j u (by simpa [hj] using hu)

theorem serves_init : Serves A (init clients S A req) := ⟨rfl, fun i t ht => by cases ht⟩

end Service

/-- The move that an action is in the call for task `n`. -/
def Action.move (n : ℕ) : Action → Option Move
  | .caller m => if m = n then some .caller else none
  | .thread m i => if m = n then some (.thread i) else none
  | .interrupt | .main | .mock | .worker _ _ => none

namespace Process

variable {env : Environment} {s s' : Process} {a : Action} {n : ℕ}

/-- **The call for task `n` by itself**: one that has not begun is before the lock. -/
def callState (env : Environment) (s : Process) (n : ℕ) : Service ℕ :=
  match s.calls n with
  | none => Service.init env.client env.contentSources n (env.request n)
  | some call => s.view env n call env.contentSources call.phase.holds

theorem callState_none (hc : s.calls n = none) : s.callState env n =
    Service.init env.client env.contentSources n (env.request n) := by
  simp only [callState, hc]

theorem callState_some {call : QueryCall} (hc : s.calls n = some call) :
    s.callState env n = s.view env n call env.contentSources call.phase.holds := by
  simp only [callState, hc]

/-- **The calls are apart**: a client is as it was made before its call has begun, and the threads
of a call serve its client. -/
structure Apart (env : Environment) (s : Process) (n : ℕ) : Prop where
  fresh : s.calls n = none → s.pool.clients n = env.client n ∧ ∀ i, s.pool.threads (n, i) = none
  serves : (s.callState env n).Serves n

theorem apart_init : Apart env (init env) n where
  fresh _ := ⟨rfl, fun _ => rfl⟩
  serves := Service.serves_init

/-- Only the call, the client and the threads of task `n` matter. -/
theorem callState_same (hI : Inv env s) (hcalls : s'.calls n = s.calls n)
    (hclient : s'.pool.clients n = s.pool.clients n)
    (hthreads : ∀ i, s'.pool.threads (n, i) = s.pool.threads (n, i)) :
    s'.callState env n = s.callState env n := by
  cases hc : s.calls n with
  | none => rw [callState_none hc, callState_none (hcalls.trans hc)]
  | some call =>
    rw [callState_some hc, callState_some (hcalls.trans hc)]
    simp only [view, hI.task_eq hc, hclient, hthreads]

/-- A call starts where a call by itself starts. -/
theorem callState_hand (hA : Apart env s n) (hn : s.calls n = none) {k : ℕ}
    (hcalls : s'.calls n = some ⟨k, ⟨n, n, n⟩, .called, []⟩) (hpool : s'.pool = s.pool) :
    s'.callState env n = s.callState env n := by
  obtain ⟨hclient, hthreads⟩ := hA.fresh hn
  have hclients : Function.update (env.client : ℕ → Client ℕ) n
      ((env.client n : Client (ℕ × ℕ)).rename Prod.snd) = fun k => (env.client k).fresh := by
    funext k
    by_cases hk : k = n
    · subst hk
      rw [Function.update_self]
      rfl
    · rw [Function.update_of_ne hk]
      rfl
  rw [callState_none hn, callState_some hcalls]
  simp only [view, hpool, hclient, hthreads, hclients, Service.init, System.init]
  rfl

/-- A step of the caller is one of the call by itself. -/
theorem callState_caller (hI : Inv env s) {call : QueryCall} {service : SearchService}
    {t : Service ℕ} (hc : s.calls n = some call)
    (hk : s.searchServices[call.service]? = some service)
    (ht : (s.view env n call service.contentSources service.locked).stepCaller = some t) :
    (s.callState env n).step .caller = some ((s.store n call t).callState env n) := by
  have htask := hI.task_eq hc
  have hlock : call.phase.holds = true → service.locked = true := fun hh =>
    (hI.services.locked _ service hk).2 ⟨n, call, hc, rfl, hh⟩
  obtain ⟨hlocked, ht', -⟩ := caller_holds (v := s.view env n call _ _) ht hlock
  have hlocked' : service.locked = call.phase.holds := hlocked
  rw [hI.services.sources _ service hk, hlocked'] at ht
  have hcalls : (s.store n call t).calls n =
      some { call with phase := t.phase, threads := t.threads } := Function.update_self ..
  rw [callState_some hc, callState_some hcalls]
  -- the new view is the state that the caller has reached
  have hview : (s.store n call t).view env n { call with phase := t.phase, threads := t.threads }
      env.contentSources t.phase.holds = t := by
    obtain ⟨hclient, hrequest, hsources, hclients⟩ := Service.caller_frame (v := s.view env n ..) ht
    rw [← ht']
    cases t with
    | mk client request contentSources locked phase threads pool =>
      cases pool
      simp only [view] at hclient hrequest hsources hclients
      subst hclient hrequest hsources hclients
      simp [view, store]
  rw [hview]
  exact ht

/-- A thread serves the client of its call. -/
theorem Apart.client_eq (hA : Apart env s n) {i : ℕ} {t : Thread ℕ}
    (ht : s.pool.threads (n, i) = some t) : t.job.client = n ∧ ∃ call, s.calls n = some call := by
  cases hc : s.calls n with
  | none =>
    have hnone := (hA.fresh hc).2 i
    rw [ht] at hnone
    cases hnone
  | some call =>
    have hserves := hA.serves.2 i t
    rw [callState_some hc] at hserves
    exact ⟨hserves ht, call, rfl⟩

/-- A step of a thread is one of its call by itself. -/
theorem callState_thread (hI : Inv env s) (hA : Apart env s n) {i : ℕ}
    {pool : System (ℕ × ℕ) ℕ} (hi : s.pool.step (n, i) = some pool) :
    (s.callState env n).step (.thread i) = some (({ s with pool } : Process).callState env n) := by
  obtain ⟨t, c, p, ht, hstep, rfl⟩ := System.step_cases hi
  obtain ⟨hclient, call, hc⟩ := hA.client_eq ht
  have htask := hI.task_eq hc
  set s' : Process := { s with pool := _ }
  have hcalls : s'.calls n = some call := hc
  have hrename : t.job.step i ((s.pool.clients n).rename Prod.snd) t.phase =
      some (c.rename Prod.snd, p) := by
    have h := t.job.step_rename Prod.snd (n, i) (s.pool.clients n) t.phase
    rw [hclient] at hstep
    rw [hstep] at h
    exact h
  have hthreads : (fun j => Function.update s.pool.threads (n, i) (some { t with phase := p })
      (n, j)) = Function.update (fun j => s.pool.threads (n, j)) i (some { t with phase := p }) :=
    Function.update_comp_eq_of_injective _ (Prod.mk_right_injective n) i _
  rw [callState_some hc, callState_some hcalls]
  simp only [Service.step, System.step, view, htask, ht, hclient, hrename, s', hthreads,
    Function.update_self, Option.bind_some, Option.map_some, Function.update_idem]

/-- **A step of the process is a step of one call by itself, or of none.** -/
theorem callState_step (hI : Inv env s) (hA : ∀ n, Apart env s n) (hs : s.step env a = some s')
    (n : ℕ) : (a.move n = none → s'.callState env n = s.callState env n) ∧
      ∀ m, a.move n = some m → (s.callState env n).step m = some (s'.callState env n) := by
  have hI' := inv_step hI hs
  cases step_cases hs with
  | interrupt | addThrow | addCheck | spawnMock | addPush | start | joinMock =>
    exact ⟨fun _ => rfl, fun m hm => by cases hm⟩
  | stopBegin | stopReturn | mockLoop | submit | roundDone | wake | done | worker =>
    exact ⟨fun _ => rfl, fun m hm => by cases hm⟩
  | hand w k task action p hw hp =>
    refine ⟨fun _ => ?_, fun m hm => by cases hm⟩
    by_cases hn : n = task.ticket
    · have hcalls := Function.update_self task.ticket (some (⟨k, task, .called, []⟩ : QueryCall))
        s.calls
      have htask : task = ⟨n, n, n⟩ := hI'.task_eq (n := n) (by rw [hn]; exact hcalls)
      have hnone : s.calls n = none := by
        rw [hn]
        exact hI.calls_handing hw
      subst htask
      exact callState_hand (hA n) hnone hcalls rfl
    · exact callState_same hI (Function.update_of_ne hn ..) rfl fun _ => rfl
  | caller m call service t hc hk ht =>
    by_cases hn : m = n
    · subst hn
      refine ⟨fun h => by simp [Action.move] at h, fun m' hm => ?_⟩
      obtain rfl : Move.caller = m' := by simpa [Action.move] using hm
      exact callState_caller hI hc hk ht
    · refine ⟨fun _ => ?_, fun m' hm => by simp [Action.move, hn] at hm⟩
      exact callState_same hI (Function.update_of_ne (Ne.symm hn) ..) rfl fun _ => by
        simp [store, Ne.symm hn]
  | thread m i pool hi =>
    by_cases hn : m = n
    · subst hn
      refine ⟨fun h => by simp [Action.move] at h, fun m' hm => ?_⟩
      obtain rfl : Move.thread i = m' := by simpa [Action.move] using hm
      exact callState_thread hI (hA m) hi
    · refine ⟨fun _ => ?_, fun m' hm => by simp [Action.move, hn] at hm⟩
      obtain ⟨t, c, p, ht, hstep, rfl⟩ := System.step_cases hi
      have hclient := ((hA m).client_eq ht).1
      exact callState_same hI rfl (by simp [hclient, Ne.symm hn]) fun _ => by simp [Ne.symm hn]

/-- **Every step keeps the calls apart.** -/
theorem apart_step (hI : Inv env s) (hA : ∀ n, Apart env s n) (hs : s.step env a = some s')
    (n : ℕ) : Apart env s' n := by
  obtain ⟨hkeep, hmove⟩ := callState_step hI hA hs n
  have hserves : (s'.callState env n).Serves n := by
    cases hm : a.move n with
    | none =>
      rw [hkeep hm]
      exact (hA n).serves
    | some m => exact Service.serves_step (hA n).serves (hmove m hm)
  refine ⟨?_, hserves⟩
  intro hn
  cases step_cases hs with
  | interrupt | addThrow | addCheck | spawnMock | addPush | start | joinMock =>
    exact (hA n).fresh hn
  | stopBegin | stopReturn | mockLoop | submit | roundDone | wake | done | worker =>
    exact (hA n).fresh hn
  | hand w k task action p hw hp =>
    have hne : n ≠ task.ticket := by
      rintro rfl
      simp at hn
    exact (hA n).fresh (by simpa [hne] using hn)
  | caller m call service t hc hk ht =>
    have hne : n ≠ m := by
      rintro rfl
      simp [store] at hn
    obtain ⟨hclient, hthreads⟩ := (hA n).fresh (by simpa [store, hne] using hn)
    exact ⟨hclient, fun i => by simpa [store, hne] using hthreads i⟩
  | thread m i pool hi =>
    obtain ⟨t, c, p, ht, hstep, rfl⟩ := System.step_cases hi
    obtain ⟨hclient, call, hc⟩ := (hA m).client_eq ht
    have hne : n ≠ m := by
      rintro rfl
      rw [hc] at hn
      cases hn
    obtain ⟨hfresh, hthreads⟩ := (hA n).fresh hn
    exact ⟨by simpa [hclient, hne] using hfresh, fun j => by simpa [hne] using hthreads j⟩

/-- What every state of a run is like. -/
theorem apart_run {as : List Action} (h : exec (step env) (init env) as = some s) :
    Inv env s ∧ ∀ n, Apart env s n := by
  refine exec_inv (I := fun s => Inv env s ∧ ∀ n, Apart env s n) ?_
    ⟨inv_init, fun _ => apart_init⟩ h
  rintro s a s' ⟨hI, hA⟩ hs
  exact ⟨inv_step hI hs, apart_step hI hA hs⟩

/-- A run of the program, seen from task `n`, is the run of one call of `query` under the moves that
the run has of it. -/
theorem exec_callState {as : List Action} (h : exec (step env) (init env) as = some s) (n : ℕ) :
    exec Service.step (Service.init env.client env.contentSources n (env.request n))
      (as.filterMap (Action.move n)) = some (s.callState env n) := by
  refine exec_project (I := fun s => Inv env s ∧ ∀ n, Apart env s n)
    (π := fun s => s.callState env n) (Action.move n) ?_ ?_ ?_ ⟨inv_init, fun _ => apart_init⟩ h
  · rintro s a s' ⟨hI, hA⟩ hs
    exact ⟨inv_step hI hs, apart_step hI hA hs⟩
  · rintro s a s' ⟨hI, hA⟩ hs
    exact (callState_step hI hA hs n).1
  · rintro s a s' m ⟨hI, hA⟩ hs
    exact (callState_step hI hA hs n).2 m

/-- A call by itself has the client of the process, but for the names of its threads. -/
theorem callState_client (hI : Inv env s) (hA : Apart env s n) :
    (s.callState env n).pool.clients n = (s.pool.clients n).rename Prod.snd := by
  cases hc : s.calls n with
  | none =>
    rw [callState_none hc, (hA.fresh hc).1]
    rfl
  | some call =>
    rw [callState_some hc]
    simp [view, hI.task_eq hc]

/-- A call by itself has returned when the call has. -/
theorem hasReturned_iff (env : Environment) :
    s.hasReturned n = true ↔ (s.callState env n).phase = .returned := by
  unfold hasReturned
  cases hc : s.calls n with
  | none => simp [callState_none hc, Service.init]
  | some call => simp [callState_some hc, view]

/-- **Each call of the process is a call of its service by itself**: what a run of the program makes
of task `n`, its client and its threads, is what one call of `query` makes of them under the moves
that the run has of it. -/
theorem calls_independent {as : List Action} (h : exec (step env) (init env) as = some s) (n : ℕ) :
    ∃ t, exec Service.step (Service.init env.client env.contentSources n (env.request n))
        (as.filterMap (Action.move n)) = some t ∧
      (s.pool.clients n).rename Prod.snd = t.pool.clients n ∧
      (∀ i, s.pool.threads (n, i) = t.pool.threads i) ∧
      (s.hasReturned n = true ↔ t.phase = .returned) := by
  obtain ⟨hI, hA⟩ := apart_run h
  refine ⟨s.callState env n, exec_callState h n, (callState_client hI (hA n)).symm, ?_,
    hasReturned_iff env⟩
  intro i
  cases hc : s.calls n with
  | none =>
    rw [callState_none hc, ((hA n).fresh hc).2 i]
    rfl
  | some call =>
    rw [callState_some hc]
    rfl

theorem calls_independent_sample :
    ∃ t, exec Service.step (Service.init sampleEnvironment.client sampleEnvironment.contentSources
        14 (sampleEnvironment.request 14)) (sampleQuery.filterMap (Action.move 14)) = some t ∧
      (sampleProcess.pool.clients 14).rename Prod.snd = t.pool.clients 14 ∧
      (∀ i, sampleProcess.pool.threads (14, i) = t.pool.threads i) ∧
      (sampleProcess.hasReturned 14 = true ↔ t.phase = .returned) :=
  calls_independent sampleProcess_run 14

end Process

end MTFind2
