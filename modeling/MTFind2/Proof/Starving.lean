import MTFind2.Proof.Serving

/-!
# The order of service, and who may never be served

The queue of a class gives its newest request. Over the runs of the whole program:

* `newest_first`: of two requests of one class that wait together, the one made later is
  taken first, in every continuation.
* `exists_request`: until a `SIGINT` the mock thread can submit as many requests as it likes.
* `can_starve`: so while requests keep coming, a request that waits need never be served: any
  number of requests made later can be answered before it.
-/

namespace MTFind2

open Run SearchProxy

namespace SearchProxy

variable {σ κ ρ : Type} {prog : Program κ ρ} {p p' : SearchProxy σ κ ρ} {e : Event σ κ ρ}

/-- Only new tasks come into a queue. -/
theorem queues_step [DecidableEq σ] (h : p.step prog e = some p') {key : SubscriptionType}
    {task : SearchTask κ ρ} (ht : task ∈ p'.queues key) :
    task ∈ p.queues key ∨ task.ticket = p.submitted.length := by
  cases step_cases prog h with
  | query client request =>
    dsimp only at ht
    by_cases hk : key = prog.subscriptionType client
    · subst hk
      rw [Function.update_self] at ht
      rcases List.mem_append.1 ht with ht | ht
      · exact .inl ht
      · rw [List.mem_singleton.1 ht]
        exact .inr rfl
    · rw [Function.update_of_ne hk] at ht
      exact .inl ht
  | take w x k j first rest hw hx hpop =>
    left
    dsimp only at ht
    by_cases hk : key = k
    · subst hk
      rw [Function.update_self] at ht
      rw [← Multiset.mem_coe, PriorityQueue.popAt_cons hpop]
      exact Multiset.mem_cons_of_mem ht
    · rwa [Function.update_of_ne hk] at ht
  | addThrow | addCheck | addPush | start | startAbort | stopBegin | stopReturn => exact .inl ht
  | loop | draw | takeNone | hand | done => exact .inl ht

theorem submitted_length_le [DecidableEq σ] (h : p.step prog e = some p') :
    p.submitted.length ≤ p'.submitted.length := by
  cases step_cases prog h with
  | query => simp
  | addThrow | addCheck | addPush | start | startAbort | stopBegin | stopReturn => exact le_rfl
  | loop | draw | takeNone | take | hand | done => exact le_rfl

end SearchProxy

namespace Process

variable {env : Environment} {s s' t : Process} {act : Action} {as bs : List Action} {a b n : ℕ}

/-! ## Newest first -/

theorem mem_queued {key : SubscriptionType} {task : SearchTask ℕ ℕ}
    (h : task ∈ s.searchProxy.queues key) : task ∈ s.searchProxy.queued := by
  unfold queued
  cases key
  · exact Multiset.mem_add.2 (.inr h)
  · exact Multiset.mem_add.2 (.inl h)

/-- A request that waits was submitted. -/
theorem Inv.waiting_lt (h : Inv env s) (hn : s.Waiting env n) :
    n < s.searchProxy.submitted.length := by
  have hmem : (⟨n, n, n⟩ : SearchTask ℕ ℕ) ∈ s.searchProxy.queued := mem_queued hn
  exact (h.submitted_eq (h.submitted_of_queued hmem)).2

/-- No call was made for a request that waits. -/
theorem Inv.calls_waiting (h : Inv env s) (hn : s.Waiting env n) : s.calls n = none := by
  have hmem : (⟨n, n, n⟩ : SearchTask ℕ ℕ) ∈ s.searchProxy.queued := mem_queued hn
  exact h.calls_queued hmem

theorem submitted_le (h : Inv env s) (hs : s.step env act = some s') :
    s.searchProxy.submitted.length ≤ s'.searchProxy.submitted.length := by
  rcases proxy_step h hs with heq | ⟨e, he⟩
  · rw [heq]
  · exact submitted_length_le he

/-- **A request that waits is overtaken or goes on waiting**: it is only taken when no later one of
its class waits. -/
theorem waiting_step (h : Inv env s) (hs : s.step env act = some s') (hab : Overtakes env b a)
    (ha : s.Waiting env a) (hb : s.Waiting env b) : s'.Waiting env a := by
  obtain ⟨hclass, hnow⟩ := hab
  unfold Waiting at ha hb ⊢
  rw [hclass] at hb
  rcases proxy_step h hs with heq | ⟨e, he⟩
  · rwa [heq]
  · rcases leaves_queue he (env.program.subscriptionType a) with ⟨task, htake, hcons⟩ | hprefix
    · rw [← Multiset.mem_coe, hcons] at ha
      rcases Multiset.mem_cons.1 ha with rfl | ha
      · -- the later request would have been taken
        have hle := (take_newest htake).2 _ hb
        simp only [timestamp, Environment.program, request_timestamp] at hle
        omega
      · exact ha
    · exact hprefix.subset ha

/-- A request that has left its queue does not come back. -/
theorem not_waiting_step (h : Inv env s) (hs : s.step env act = some s')
    (hn : n < s.searchProxy.submitted.length) (hgone : ¬ s.Waiting env n) :
    ¬ s'.Waiting env n := by
  intro hback
  rcases proxy_step h hs with heq | ⟨e, he⟩
  · rw [Waiting, heq] at hback
    exact hgone hback
  · rcases queues_step he hback with hold | hnew
    · exact hgone hold
    · have hticket : n = s.searchProxy.submitted.length := hnew
      omega

/-- **Of two requests of one class that wait together, the later one is taken first**, in every run
of the program. -/
theorem newest_first (h : exec (step env) (init env) as = some s)
    (ht : exec (step env) s bs = some t) (hab : Overtakes env b a) (ha : s.Waiting env a)
    (hb : s.Waiting env b) (hgone : ¬ t.Waiting env a) : ¬ t.Waiting env b := by
  have hkept : Inv env t ∧ (t.Waiting env a ∧ t.Waiting env b ∨
      b < t.searchProxy.submitted.length ∧ ¬ t.Waiting env b) := by
    refine exec_inv (I := fun t => Inv env t ∧ (t.Waiting env a ∧ t.Waiting env b ∨
      b < t.searchProxy.submitted.length ∧ ¬ t.Waiting env b)) ?_ ⟨inv_run h, .inl ⟨ha, hb⟩⟩ ht
    rintro u act v ⟨hI, hcase⟩ hs
    refine ⟨inv_step hI hs, ?_⟩
    rcases hcase with ⟨hua, hub⟩ | ⟨hlt, hub⟩
    · by_cases hvb : v.Waiting env b
      · exact .inl ⟨waiting_step hI hs hab hua hub, hvb⟩
      · exact .inr ⟨(hI.waiting_lt hub).trans_le (submitted_le hI hs), hvb⟩
    · exact .inr ⟨hlt.trans_le (submitted_le hI hs), not_waiting_step hI hs hlt hub⟩
  rcases hkept.2 with ⟨hta, -⟩ | ⟨-, htb⟩
  · exact absurd hta hgone
  · exact htb

/-- One round of requests is queued. -/
def sampleRound : List Action := List.replicate 4 .main ++ List.replicate 17 .mock

/-- The worker serves client 14, and takes the task of client 12. -/
def sampleTwo : List Action :=
  [.worker 0 .loop, .worker 0 (.draw 0), .worker 0 (.take 7), .worker 0 .hand] ++
    List.replicate 3 (.caller 14) ++ List.replicate 8 (.thread 14 1) ++
    List.replicate 3 (.caller 14) ++
    [.worker 0 .done, .worker 0 .loop, .worker 0 (.draw 0), .worker 0 (.take 6)]

def sampleQueued : Process :=
  (exec (step sampleEnvironment) (init sampleEnvironment) sampleRound).get (by decide +kernel)

def sampleTaken : Process :=
  (exec (step sampleEnvironment) sampleQueued sampleTwo).get (by decide +kernel)

theorem newest_first_sample : ¬ sampleTaken.Waiting sampleEnvironment 14 := by
  have hab : Overtakes sampleEnvironment 14 12 := ⟨by decide +kernel, by decide +kernel⟩
  exact newest_first (s := sampleQueued) (a := 12) (Option.some_get _).symm (Option.some_get _).symm
    hab (by decide +kernel) (by decide +kernel) (by decide +kernel)

/-! ## Requests keep coming -/

/-- The mock thread has ended only after a `SIGINT`. -/
def EndsLate (s : Process) : Prop := s.mockThread = .ended → s.keepRunning = false

theorem endsLate_step (h : EndsLate s) (hs : s.step env act = some s') : EndsLate s' := by
  cases step_cases hs with
  | interrupt => exact fun _ => rfl
  | addThrow | addCheck | addPush | start | joinMock | stopBegin | stopReturn => exact h
  | hand | done | worker | caller | thread => exact h
  | spawnMock | submit | roundDone | wake => exact fun hm => by cases hm
  | mockLoop hm =>
    intro hended
    cases hk : s.keepRunning with
    | false => rfl
    | true =>
      rw [hk] at hended
      cases hended

/-- The proxy runs and there was no `SIGINT`. -/
structure Busy (env : Environment) (s : Process) : Prop extends Serving env s where
  main : s.mainThread = .joining
  keepRunning : s.keepRunning = true
  mock : s.mockThread ≠ .ended

theorem Works.busy (h : Works env s t) (hs : Busy env s) : Busy env t :=
  ⟨h.serving hs.toServing, h.control.main.trans hs.main,
    h.control.keepRunning.trans hs.keepRunning, by rw [h.control.mock]; exact hs.mock⟩

/-- What the mock thread makes of the state when it submits request `n`. -/
structure Submitted (env : Environment) (n : ℕ) (s t : Process) : Prop where
  leads : Leads (step env) (fun act => act ≠ .interrupt) s t
  busy : Busy env t
  calls : t.calls = s.calls
  queues : ∀ key, s.searchProxy.queues key <+: t.searchProxy.queues key
  length : t.searchProxy.submitted.length = n + 1
  waiting : t.Waiting env n

/-- The mock thread gets to its next request by other steps of its own. -/
theorem Submitted.mock (hstep : s.step env .mock = some s')
    (hproxy : s'.searchProxy = s.searchProxy)
    (hcalls : s'.calls = s.calls) (h : Submitted env n s' t) : Submitted env n s t where
  leads := (Leads.single (by simp) hstep).trans h.leads
  busy := h.busy
  calls := h.calls.trans hcalls
  queues key := by
    rw [← hproxy]
    exact h.queues key
  length := h.length
  waiting := h.waiting

/-- A step of the mock thread within its loop. -/
theorem Busy.mock_step (h : Busy env s) {mock : MockPhase}
    (hstep : s.step env .mock = some { s with mockThread := mock }) (hmock : mock ≠ .ended) :
    Busy env { s with mockThread := mock } :=
  ⟨⟨staffed_step h.toStaffed hstep, h.running⟩, h.main, h.keepRunning, hmock⟩

theorem exists_submitted_submitting {i : ℕ} (h : Busy env s) (hm : s.mockThread = .submitting i)
    (hi : i < searchRequestCount) :
    ∃ t, Submitted env s.searchProxy.submitted.length s t := by
  have habort := h.inv.aborted
  let n := s.searchProxy.submitted.length
  let key := env.program.subscriptionType n
  let p : SearchProxy ℕ ℕ ℕ := { s.searchProxy with
    queues := Function.update s.searchProxy.queues key
      (s.searchProxy.queues key ++ [⟨n, n, n⟩])
    submitted := s.searchProxy.submitted ++ [⟨n, n, n⟩] }
  have hstep : s.step env .mock =
      some { s with searchProxy := p, mockThread := .submitting (i + 1) } := by
    simp [step, habort, stepMock, hm, hi, SearchProxy.step, p, key, n]
  have hlength : p.submitted.length = n + 1 := by simp [p, n]
  have hqueue : p.queues key = s.searchProxy.queues key ++ [⟨n, n, n⟩] := Function.update_self ..
  have hqueues : ∀ k, s.searchProxy.queues k <+: p.queues k := by
    intro k
    by_cases hk : k = key
    · subst hk
      rw [hqueue]
      exact List.prefix_append _ _
    · have hsame : p.queues k = s.searchProxy.queues k := Function.update_of_ne hk ..
      rw [hsame]
  have hwaiting : (⟨n, n, n⟩ : SearchTask ℕ ℕ) ∈ p.queues key := by
    rw [hqueue]
    simp
  exact ⟨_, .single (by simp) hstep,
    ⟨⟨staffed_step h.toStaffed hstep, h.running⟩, h.main, h.keepRunning, by simp⟩, rfl, hqueues,
    hlength, hwaiting⟩

theorem exists_submitted_looping (h : Busy env s) (hm : s.mockThread = .looping) :
    ∃ t, Submitted env s.searchProxy.submitted.length s t := by
  have hstep : s.step env .mock = some { s with mockThread := .submitting 0 } := by
    simp [step, h.inv.aborted, stepMock, hm, h.keepRunning]
  obtain ⟨t, ht⟩ := exists_submitted_submitting (h.mock_step hstep (by simp)) rfl (by decide)
  exact ⟨t, .mock hstep rfl rfl ht⟩

theorem exists_submitted_sleeping (h : Busy env s) (hm : s.mockThread = .sleeping) :
    ∃ t, Submitted env s.searchProxy.submitted.length s t := by
  have hstep : s.step env .mock = some { s with mockThread := .looping } := by
    simp [step, h.inv.aborted, stepMock, hm]
  obtain ⟨t, ht⟩ := exists_submitted_looping (h.mock_step hstep (by simp)) rfl
  exact ⟨t, .mock hstep rfl rfl ht⟩

/-- **Until a `SIGINT` the mock thread can submit one more request.** -/
theorem exists_submitted (h : Busy env s) :
    ∃ t, Submitted env s.searchProxy.submitted.length s t := by
  cases hm : s.mockThread with
  | notStarted =>
    have hmock := h.inv.main.mock
    rw [h.main] at hmock
    exact absurd hm hmock
  | looping => exact exists_submitted_looping h hm
  | submitting i =>
    by_cases hi : i < searchRequestCount
    · exact exists_submitted_submitting h hm hi
    · have hstep : s.step env .mock = some { s with mockThread := .sleeping } := by
        simp [step, h.inv.aborted, stepMock, hm, hi]
      obtain ⟨t, ht⟩ := exists_submitted_sleeping (h.mock_step hstep (by simp)) rfl
      exact ⟨t, .mock hstep rfl rfl ht⟩
  | sleeping => exact exists_submitted_sleeping h hm
  | ended => exact absurd hm h.mock

/-- **The mock thread can submit any later request.** -/
theorem exists_request (h : Busy env s) (hn : s.searchProxy.submitted.length ≤ n) :
    ∃ t, Submitted env n s t := by
  induction hd : n - s.searchProxy.submitted.length generalizing s with
  | zero =>
    obtain rfl : n = s.searchProxy.submitted.length := by omega
    exact exists_submitted h
  | succ d ih =>
    obtain ⟨u, hu⟩ := exists_submitted h
    have hlen := hu.length
    obtain ⟨t, ht⟩ := ih hu.busy (by omega) (by omega)
    exact ⟨t, hu.leads.trans ht.leads, ht.busy, ht.calls.trans hu.calls,
      fun key => (hu.queues key).trans (ht.queues key), ht.length, ht.waiting⟩

/-! ## A request that is never served -/

/-- A call that has returned stays so. -/
theorem hasReturned_step (h : Live env s) (hs : s.step env act = some s')
    (hret : s.hasReturned n = true) : s'.hasReturned n = true := by
  rw [hasReturned_iff env] at hret ⊢
  obtain ⟨hkeep, hmove⟩ := callState_step h.inv h.apart hs n
  cases hm : act.move n with
  | none => rwa [hkeep hm]
  | some m =>
    have hstep := hmove m hm
    generalize s'.callState env n = u at hstep
    cases Service.step_cases hstep with
    | addContentSource | thread => exact hret
    | release => rfl
    | acquire hp | spawned hp | spawn _ _ hp | join _ _ hp | notJoinable _ hp =>
      rw [hret] at hp
      cases hp

theorem hasReturned_leads {P : Action → Prop} (h : Live env s) (hst : Leads (step env) P s t)
    (hret : s.hasReturned n = true) : t.hasReturned n = true := by
  have hkept : Live env t ∧ t.hasReturned n = true := by
    refine Leads.inv (I := fun t => Live env t ∧ t.hasReturned n = true) ?_ ⟨h, hret⟩ hst
    rintro u act v ⟨hl, hr⟩ - hv
    exact ⟨live_step hl hv, hasReturned_step hl hv hr⟩
  exact hkept.2

/-- A request whose call has returned was submitted. -/
theorem Inv.returned_lt (h : Inv env s) (hret : s.hasReturned n = true) :
    n < s.searchProxy.submitted.length := by
  cases hc : s.calls n with
  | none => simp [hasReturned, hc] at hret
  | some call => exact h.call_lt hc

/-- **Requests that are made later keep a request waiting**, one after the other. -/
theorem exists_starved (henv : env.Tame) (hcores : 0 < env.hardwareConcurrency) (h : Busy env s)
    (ha : s.Waiting env a) (hlater : ∀ m, ∃ n, m ≤ n ∧ Overtakes env n a) (N : ℕ) :
    ∃ t, Leads (step env) (fun act => act ≠ .interrupt) s t ∧ Busy env t ∧ t.Waiting env a ∧
      ∃ B : Finset ℕ, B.card = N ∧ ∀ n ∈ B, s.searchProxy.submitted.length ≤ n ∧
        Overtakes env n a ∧ t.hasReturned n = true := by
  induction N with
  | zero => exact ⟨s, .refl s, h, ha, ∅, rfl, fun n hn => absurd hn (Finset.notMem_empty n)⟩
  | succ N ih =>
    obtain ⟨t, hst, hbusy, hwaiting, B, hcard, hB⟩ := ih
    -- one more request, made after all those so far
    obtain ⟨n, hle, hn⟩ := hlater
      (max s.searchProxy.submitted.length t.searchProxy.submitted.length)
    obtain ⟨u, hu⟩ := exists_request hbusy ((le_max_right _ _).trans hle)
    have hwaiting' : u.Waiting env a := (hu.queues _).subset hwaiting
    have hlt : n < u.searchProxy.submitted.length := by
      rw [hu.length]
      omega
    obtain ⟨v, hv, hret, holder⟩ := exists_returned_request henv hcores hu.busy.toServing hlt
    have hworks : Leads (step env) (fun act => act ≠ .interrupt) u v := by
      refine Leads.mono ?_ hv
      rintro act hserves rfl
      cases hserves
    have htv := hu.leads.trans hworks
    have hnew : n ∉ B := by
      intro hmem
      have hold := hbusy.inv.returned_lt (hB n hmem).2.2
      have hmax := (le_max_right _ _).trans hle
      omega
    refine ⟨v, hst.trans htv, Works.busy hv hu.busy, holder a hn hwaiting', insert n B, ?_, ?_⟩
    · rw [Finset.card_insert_of_notMem hnew, hcard]
    · intro k hk
      rcases Finset.mem_insert.1 hk with rfl | hk
      · exact ⟨(le_max_left _ _).trans hle, hn, hret⟩
      · obtain ⟨hlen, hk, hkret⟩ := hB k hk
        exact ⟨hlen, hk, hasReturned_leads hbusy.toLive htv hkret⟩

/-- **A request can be left waiting for ever.** From every state of every run in which the proxy
runs and there was no `SIGINT`: if requests of its class keep coming, a request that waits can be
left waiting while any number of requests that are submitted only later are answered. -/
theorem can_starve (henv : env.Tame) (hcores : 0 < env.hardwareConcurrency)
    (h : exec (step env) (init env) as = some s) (hmain : s.mainThread = .joining)
    (hkeep : s.keepRunning = true) (ha : s.Waiting env a)
    (hlater : ∀ m, ∃ n, m ≤ n ∧ Overtakes env n a) (N : ℕ) :
    ∃ bs t, exec (step env) s bs = some t ∧ t.Waiting env a ∧
      ∃ B : Finset ℕ, B.card = N ∧ ∀ n ∈ B, s.searchProxy.submitted.length ≤ n ∧
        Overtakes env n a ∧ t.hasReturned n = true := by
  have hends : EndsLate s := exec_inv endsLate_step (fun hm => by cases hm) h
  have hmock : s.mockThread ≠ .ended := by
    intro hm
    rw [hends hm] at hkeep
    cases hkeep
  have hstaffed := staffed_run h
  have hlife := hstaffed.inv.main.lifecycle
  rw [hmain] at hlife
  have hrun : s.searchProxy.keepRunning = true := Stands.keepRunning hlife
  obtain ⟨t, hst, -, hwaiting, hB⟩ :=
    exists_starved henv hcores ⟨⟨hstaffed, hrun⟩, hmain, hkeep, hmock⟩ ha hlater N
  obtain ⟨bs, -, hexec⟩ := hst.exists_exec
  exact ⟨bs, t, hexec, hwaiting, hB⟩

/-- In the sample run every second client is Premium, and time goes on. -/
theorem sample_overtakes (m : ℕ) : ∃ n, m ≤ n ∧ Overtakes sampleEnvironment n 12 := by
  refine ⟨2 * (m + 7), by omega, ?_, ?_⟩
  · simp [Environment.program, Environment.client, Client.createRandom, sampleEnvironment]
  · simp [sampleEnvironment]
    omega

theorem can_starve_sample :
    ∃ bs t, exec (step sampleEnvironment) sampleProcess bs = some t ∧
      t.Waiting sampleEnvironment 12 ∧
      ∃ B : Finset ℕ, B.card = 100 ∧ ∀ n ∈ B, sampleProcess.searchProxy.submitted.length ≤ n ∧
        Overtakes sampleEnvironment n 12 ∧ t.hasReturned n = true :=
  can_starve sampleEnvironment_tame Nat.one_pos sampleProcess_run (by decide +kernel)
    (by decide +kernel) (by decide +kernel) sample_overtakes 100

end Process

end MTFind2
