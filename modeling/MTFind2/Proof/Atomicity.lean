import MTFind2.Proof.LockSteps

/-!
# Each locked call takes effect at one of its steps

The model with locks (`LockSystem`) does nothing that the model of atomic calls
(`System`) does not: a call of `push_message(NotEnoughCreditMessage)` takes effect
where the response is applied, a delivery where it is printed, and `wait()` where it
gives the mutex back. The other steps change nothing that the calls see. The calls of
`has_credit` and `consume_credit`, which take no lock, are single steps of both models.

* `LockPhase.toPhase`: the call that a thread with locks is to make next.
* `Client.calls`, `LockPhase.asked`: a `NotEnoughCreditMessage` is logged before the lock of
  the payment service is taken, so it can stand earlier in the log than in that of the
  atomic calls. The other messages are in one order, and so are those of each thread.
* `lockStep_atomic`: what one step is at the level of calls.
* `atomic_calls`: every run with locks is a run of atomic calls by the same threads
  in the order of their effects.
-/

namespace MTFind2

open Run Merge

variable {ι κ : Type}

/-- The client without the `NotEnoughCreditMessage`s in its log. -/
def Client.calls (c : Client ι) : Client ι :=
  { c with received := c.received.filter fun m => decide (m.2 ≠ .notEnoughCredit) }

namespace LockPhase

/-- The call that a thread with locks makes next, if the calls it is in have taken effect up to
here. A Standard client's search has ended once the response was applied. -/
def toPhase (subscriptionType : SubscriptionType) : LockPhase ι → Phase
  | .checking f => .checking f
  | .requesting f => .requesting f ⟨0⟩
  | .recharging f .lockPayment _ | .recharging f .lockClient _ | .recharging f .respond _ =>
    .requesting f ⟨0⟩
  | .recharging f .unlockClient _ | .recharging f .lockNotify _ | .recharging f .notify _
  | .recharging f .unlockNotify _ | .recharging f .unlockPayment _ | .recharging f .returned _ =>
    if subscriptionType = .standard then .finished else .waiting f ⟨1⟩
  | .recharging f .lockWait _ | .recharging f .testCount _ | .recharging f .parked _
  | .recharging f .unlockWait _ => .waiting f ⟨1⟩
  | .consuming f isFinal => .consuming f isFinal
  | .delivering f isFinal .lockClient | .delivering f isFinal .print => .delivering f isFinal
  | .delivering f _ .unlockClient => f.loopHead
  | .finished => .finished

/-- The request for credit that the thread has sent, and that is not yet answered. -/
def asked : LockPhase ι → List Message
  | .recharging _ .lockPayment _ | .recharging _ .lockClient _ | .recharging _ .respond _ =>
    [.notEnoughCredit]
  | _ => []

@[simp] theorem asked_ofPhase (p : Phase) : (ofPhase p : LockPhase ι).asked = [] := by
  cases p <;> rfl

variable (subscriptionType : SubscriptionType)

theorem toPhase_enterLine (n : UInt64) (lines : List StdString) :
    (ofPhase (.enterLine n lines) : LockPhase ι).toPhase subscriptionType = .enterLine n lines := by
  cases lines <;> rfl

theorem toPhase_loopHead (f : Frame) :
    (ofPhase f.loopHead : LockPhase ι).toPhase subscriptionType = f.loopHead := by
  unfold Frame.loopHead
  split
  · exact toPhase_enterLine subscriptionType _ _
  · rfl

theorem toPhase_search (job : Job κ) (f : Frame) :
    (ofPhase (job.search f) : LockPhase ι).toPhase subscriptionType = job.search f := by
  rcases job.search_cases f with h | ⟨f', b, h, -⟩
  · rw [h]
    exact toPhase_enterLine subscriptionType _ _
  · rw [h]
    rfl

end LockPhase

namespace Client

variable (i : ι)

@[simp] theorem calls_subscriptionType (c : Client ι) :
    c.calls.subscriptionType = c.subscriptionType := rfl

@[simp] theorem calls_hasCredit (c : Client ι) : c.calls.hasCredit = c.hasCredit := rfl

theorem calls_receive (c : Client ι) (m : Message) (hm : m ≠ .notEnoughCredit) :
    (c.receive i m).calls = c.calls.receive i m := by
  simp [calls, receive, hm]

theorem calls_notEnough (c : Client ι) : (c.receive i .notEnoughCredit).calls = c.calls := by
  simp [calls, receive]

theorem calls_consumeCredit (c : Client ι) : c.consumeCredit.calls = c.calls.consumeCredit := by
  unfold consumeCredit
  rw [calls_hasCredit]
  split <;> rfl

theorem calls_pushResponse (c : Client ι) (amount : UInt64) :
    (c.pushCreditRechargeResponse i amount).calls =
      c.calls.pushCreditRechargeResponse i amount := by
  have h := calls_receive i c (.creditRechargeResponse amount) (by simp)
  unfold pushCreditRechargeResponse
  dsimp only
  split
  · exact h
  · rw [← h]
    rfl

/-- The handler of `NotEnoughCreditMessage` is that of the response, up to the log. -/
theorem calls_pushNotEnough (c : Client ι) (semaphore : Semaphore) :
    (c.pushNotEnoughCredit i semaphore).1.calls = c.calls.pushCreditRechargeResponse i
      (PaymentService.answer c.subscriptionType rechargeAmount) := by
  unfold pushNotEnoughCredit PaymentService.pushMessage
  dsimp only
  rw [calls_pushResponse, calls_notEnough]
  rfl

end Client

namespace Job

variable [DecidableEq ι] (job : Job κ) {i : ι} {v v' : View ι} {p p' : LockPhase ι} {c : Client ι}

/-- The client `c'` of the atomic calls is what the client `c` looks like to them, and thread `i`,
which is at `p`, has sent both the same. -/
structure Matches (i : ι) (p : LockPhase ι) (c c' : Client ι) : Prop where
  calls : c'.calls = c.calls
  part : part i c.received = part i c'.received ++ p.asked

/-- **One step with locks** is one atomic call by the same thread, or changes nothing that the calls
see. -/
theorem lockStep_atomic (hm : Matches i p v.client c) (h : job.LockStep i v p v' p') :
    (Matches i p' v'.client c ∧
        p'.toPhase v.client.subscriptionType = p.toPhase v.client.subscriptionType) ∨
      ∃ c', job.step i c (p.toPhase v.client.subscriptionType) =
          some (c', p'.toPhase v.client.subscriptionType) ∧
        Matches i p' v'.client c' := by
  obtain ⟨hc, hpart⟩ := hm
  have htype : c.subscriptionType = v.client.subscriptionType := by
    rw [← Client.calls_subscriptionType, hc, Client.calls_subscriptionType]
  have hcredit : c.hasCredit = v.client.hasCredit := by
    rw [← Client.calls_hasCredit, hc, Client.calls_hasCredit]
  cases h with
  | check f =>
    refine .inr ⟨c, ?_, hc, ?_⟩
    · simp only [step, hcredit]
      cases v.client.hasCredit
      · rfl
      · simp only [Bool.not_true, Bool.false_eq_true, if_false, LockPhase.toPhase_search]
        rfl
    · rw [hpart]
      split
      · rfl
      · rw [LockPhase.asked_ofPhase]
        rfl
  | request f =>
    -- the message is logged here, and in the atomic call with its answer
    refine .inl ⟨⟨?_, ?_⟩, rfl⟩
    · rw [Client.calls_notEnough]
      exact hc
    · rw [Client.receive_received, part_append, part_singleton, hpart]
      simp [LockPhase.asked]
  | respond f sem =>
    -- the recharge takes effect: the semaphore counts one from here on
    refine .inr ⟨(c.pushNotEnoughCredit i ⟨0⟩).1, ?_, ?_, ?_⟩
    · simp only [LockPhase.toPhase, step, stepGiven, Client.pushNotEnough_subscriptionType, htype]
      rfl
    · rw [Client.calls_pushNotEnough, Client.calls_pushResponse, hc, htype]
    · rw [Client.pushResponse_received, Client.pushNotEnough_received, part_append, hpart, htype]
      simp [LockPhase.asked, part]
  | returned f sem =>
    refine .inl ⟨⟨hc, ?_⟩, ?_⟩
    · rw [hpart]
      split <;> rfl
    · cases hs : v.client.subscriptionType <;> rfl
  | testCount f sem =>
    refine .inl ⟨⟨hc, ?_⟩, ?_⟩
    · rw [hpart]
      cases sem.semaphore.wait <;> rfl
    · cases sem.semaphore.wait <;> rfl
  | unlockWait f sem hl =>
    refine .inr ⟨c, ?_, hc, ?_⟩
    · rw [LockPhase.toPhase_search]
      rfl
    · rw [hpart, LockPhase.asked_ofPhase]
      rfl
  | consume f b =>
    refine .inr ⟨c.consumeCredit, rfl, ?_, ?_⟩
    · rw [Client.calls_consumeCredit, Client.calls_consumeCredit, hc]
    · rw [Client.consumeCredit_received, Client.consumeCredit_received, hpart]
      rfl
  | print f b =>
    refine .inr ⟨c.pushSearchResultFound i job.request (job.result f b), rfl, ?_, ?_⟩
    · unfold Client.pushSearchResultFound
      rw [Client.calls_receive _ _ _ (by simp), Client.calls_receive _ _ _ (by simp), hc]
    · rw [Client.pushResult_received, Client.pushResult_received, part_append, part_append, hpart]
      simp [LockPhase.asked]
  | unlockDelivery f b hl =>
    refine .inl ⟨⟨hc, ?_⟩, LockPhase.toPhase_loopHead _ f⟩
    rw [hpart, LockPhase.asked_ofPhase]
    rfl
  | lockPayment | lockClient | unlockClient | lockNotify | notify | unlockNotify | unlockPayment
  | lockWait | lockDelivery => exact .inl ⟨⟨hc, hpart⟩, rfl⟩

end Job

namespace LockSystem

variable [DecidableEq ι] [DecidableEq κ]

/-- The request for credit that thread `i` has sent client `k`, and that is not yet answered. -/
def asked (s : LockSystem ι κ) (i : ι) (k : κ) : List Message :=
  match s.threads i with
  | some t => if t.job.client = k then t.phase.asked else []
  | none => []

/-- **The system of atomic calls `s'` is what the system with locks `s` looks like to its calls**:
its clients have the same type, the same credit and the same messages, those other than
`NotEnoughCreditMessage`s in the same order, and those of each thread in the same order, where the
request of a thread that waits for an answer is still to come; and its threads are at the same
positions. -/
structure Calls (s : LockSystem ι κ) (s' : System ι κ) : Prop where
  client : ∀ k, (s'.clients k).calls = (s.clients k).calls
  log : ∀ i k, part i (s.clients k).received = part i (s'.clients k).received ++ s.asked i k
  thread : ∀ i, s'.threads i = (s.threads i).map fun t =>
    ⟨t.job, t.phase.toPhase (s.clients t.job.client).subscriptionType⟩

theorem calls_init (clients : κ → Client ι) (jobs : ι → Option (Job κ)) :
    Calls (init clients jobs) (System.init clients jobs) := by
  refine ⟨fun k => rfl, fun i k => ?_, fun i => ?_⟩
  · cases hj : jobs i with
    | none => simp [init, System.init, asked, hj]
    | some job => simp [init, System.init, asked, hj]
  · cases hj : jobs i with
    | none => simp [init, System.init, hj]
    | some job => simp [init, System.init, hj, Job.start, LockPhase.toPhase_enterLine]

/-- A thread and its client change on both sides. -/
theorem calls_update {s : LockSystem ι κ} {s' : System ι κ} {i : ι} {th : LockThread ι κ}
    {v : View ι} {c : Client ι} {p : LockPhase ι} (hR : Calls s s') (hi : s.threads i = some th)
    (htype : v.client.subscriptionType = (s.clients th.job.client).subscriptionType)
    (hm : Job.Matches i p v.client c)
    (hother : ∀ j, j ≠ i → part j v.client.received = part j (s.clients th.job.client).received)
    (hother' : ∀ j, j ≠ i → part j c.received = part j (s'.clients th.job.client).received) :
    Calls { clients := Function.update s.clients th.job.client v.client
            clientLocks := Function.update s.clientLocks th.job.client v.clientLock
            paymentLock := v.paymentLock
            threads := Function.update s.threads i (some { th with phase := p }) }
      { clients := Function.update s'.clients th.job.client c
        threads := Function.update s'.threads i
          (some ⟨th.job, p.toPhase v.client.subscriptionType⟩) } := by
  -- the types of the clients stay, so the other threads look the same
  have htypes : ∀ k, (Function.update s.clients th.job.client v.client k).subscriptionType =
      (s.clients k).subscriptionType := by
    intro k
    by_cases hk : k = th.job.client
    · subst hk
      rw [Function.update_self, htype]
    · rw [Function.update_of_ne hk]
  refine ⟨?_, ?_, ?_⟩
  · intro k
    by_cases hk : k = th.job.client
    · subst hk
      simpa using hm.calls
    · simpa [hk] using hR.client k
  · intro j k
    have hlog := hR.log j k
    by_cases hj : j = i
    · subst hj
      by_cases hk : k = th.job.client
      · subst hk
        simpa [asked] using hm.part
      · simpa [asked, hi, hk, Ne.symm hk] using hlog
    · by_cases hk : k = th.job.client
      · subst hk
        simpa [asked, hj, hother j hj, hother' j hj] using hlog
      · simpa [asked, hj, hk] using hlog
  · intro j
    simp only [htypes]
    by_cases hj : j = i
    · subst hj
      simp [htype]
    · simpa [hj] using hR.thread j

/-- **One step with locks** is one step of the system of atomic calls, or none. -/
theorem calls_step {s t : LockSystem ι κ} {s' : System ι κ} {i : ι} (hR : Calls s s')
    (h : s.step i = some t) : Calls t s' ∨ ∃ t', s'.step i = some t' ∧ Calls t t' := by
  obtain ⟨th, v, p, hi, hstep, rfl⟩ := step_cases h
  obtain ⟨htype, new, hnew, hown⟩ := th.job.lockStep_frame hstep
  change v.client.subscriptionType = (s.clients th.job.client).subscriptionType at htype
  have hother : ∀ j, j ≠ i →
      part j v.client.received = part j (s.clients th.job.client).received := by
    intro j hj
    rw [hnew, part_append_ne hj hown]
    rfl
  have hthread := hR.thread i
  rw [hi, Option.map_some] at hthread
  have hm : Job.Matches i th.phase (s.view th.job.client).client (s'.clients th.job.client) := by
    have hlog := hR.log i th.job.client
    simp only [asked, hi, if_true] at hlog
    exact ⟨hR.client th.job.client, hlog⟩
  rcases th.job.lockStep_atomic hm hstep with ⟨hm', hp⟩ | ⟨c', hcall, hm'⟩
  · left
    have hsame := calls_update hR hi htype hm' hother fun _ _ => rfl
    change p.toPhase (s.clients th.job.client).subscriptionType =
      th.phase.toPhase (s.clients th.job.client).subscriptionType at hp
    rw [htype, hp, ← hthread, Function.update_eq_self, Function.update_eq_self] at hsame
    exact hsame
  · right
    refine ⟨_, ?_, calls_update hR hi htype hm' hother fun j => th.job.step_part_ne hcall⟩
    change th.job.step i (s'.clients th.job.client)
      (th.phase.toPhase (s.clients th.job.client).subscriptionType) =
        some (c', p.toPhase (s.clients th.job.client).subscriptionType) at hcall
    simp only [System.step, hthread, Option.bind_some, hcall, Option.map_some, htype]

/-- **Every run with locks is a run of atomic calls** by the same threads, in the order in which
the calls take effect. -/
theorem atomic_calls {clients : κ → Client ι} {jobs : ι → Option (Job κ)} {sched : List ι}
    {s : LockSystem ι κ} (h : exec step (init clients jobs) sched = some s) :
    ∃ sched' s', sched'.Sublist sched ∧
      exec System.step (System.init clients jobs) sched' = some s' ∧ Calls s s' :=
  exec_simulate calls_step (calls_init clients jobs) h

/-- A Premium client with one credit. -/
def nestedClients : Unit → Client Bool := fun _ => ⟨0, .premium, 1, []⟩

/-- The first thread has consumed the credit, and the second one consumes one of the recharge while
the first is still inside the payment service. -/
def nestedSched : List Bool := List.replicate 10 false ++ [true, true]

def nestedStart : LockSystem Bool Unit :=
  init nestedClients fun _ => some (Job.letterJob 97 97)

def nestedSystem : LockSystem Bool Unit :=
  (exec step nestedStart nestedSched).get (by decide +kernel)

theorem atomic_calls_nested : ∃ sched' s', sched'.Sublist nestedSched ∧
    exec System.step (System.init nestedClients fun _ => some (Job.letterJob 97 97)) sched' =
      some s' ∧ Calls nestedSystem s' := by
  have hrun : exec step nestedStart nestedSched = some nestedSystem := (Option.some_get _).symm
  exact atomic_calls hrun

end LockSystem

end MTFind2
