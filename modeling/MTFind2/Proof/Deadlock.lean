import MTFind2.Proof.LockSteps

/-!
# The recharge protocol cannot deadlock

`LockInv` is the invariant of the threads with their locks: each lock is held by the
thread whose control point is inside its critical section, a semaphore is where its
thread's control point says (`Recharge.semaphore`), and the messages a thread has
pushed end with its recharge request, and with the response once that was applied.

* `lockStep_moves`, `lockStep_local`: what one step does to the locks, and to the
  thread's own part of the invariant.
* `lockInv_run`: the invariant holds along every run.
* `step_of_not_waiting`: a thread that waits for no lock can move. With the lock
  order payment service before client this gives `no_deadlock`.
-/

namespace MTFind2

open Run Mutex

namespace Recharge

variable {ι : Type}

/-- Inside the critical section of the payment service. -/
def holdsPayment : Recharge → Bool
  | .lockClient | .respond | .unlockClient | .lockNotify | .notify | .unlockNotify
  | .unlockPayment => true
  | .lockPayment | .returned | .lockWait | .testCount | .parked | .unlockWait => false

/-- Inside the critical section of the client's handler. -/
def holdsClient : Recharge → Bool
  | .respond | .unlockClient => true
  | _ => false

/-- Inside `wait()`. -/
def inWait : Recharge → Bool
  | .lockWait | .testCount | .parked | .unlockWait => true
  | _ => false

/-- The state of the semaphore of thread `i` here; a thread is never parked. -/
def semaphore (i : ι) : Recharge → Option (LockedSemaphore ι)
  | .lockPayment | .lockClient | .respond | .unlockClient | .lockNotify => some ⟨⟨0⟩, none, 0⟩
  | .notify => some ⟨⟨0⟩, some i, 0⟩
  | .unlockNotify => some ⟨⟨1⟩, some i, 1⟩
  | .unlockPayment | .returned | .lockWait => some ⟨⟨1⟩, none, 1⟩
  | .testCount => some ⟨⟨1⟩, some i, 1⟩
  | .parked => none
  | .unlockWait => some ⟨⟨0⟩, some i, 1⟩

/-- The last messages pushed by the thread here, to a client of the given type. -/
def pushed (subscriptionType : SubscriptionType) : Recharge → List Message
  | .lockPayment | .lockClient | .respond => [.notEnoughCredit]
  | _ => [.notEnoughCredit,
      .creditRechargeResponse (PaymentService.answer subscriptionType Client.rechargeAmount)]

end Recharge

/-- The locks that threads compete for. -/
inductive LockName (κ : Type)
  | payment
  | client (k : κ)

/-- The payment service comes before the clients. -/
def LockName.rank {κ : Type} : LockName κ → ℕ
  | .payment => 0
  | .client _ => 1

theorem LockName.rank_le {κ : Type} (l : LockName κ) : l.rank ≤ 1 := by
  cases l <;> simp [rank]

namespace LockPhase

variable {ι κ : Type}

def holdsPayment : LockPhase ι → Bool
  | .recharging _ at' _ => at'.holdsPayment
  | _ => false

def holdsClient : LockPhase ι → Bool
  | .recharging _ at' _ => at'.holdsClient
  | .delivering _ _ .print | .delivering _ _ .unlockClient => true
  | _ => false

/-- The lock that a thread serving client `k` takes next. -/
def wants (k : κ) : LockPhase ι → Option (LockName κ)
  | .recharging _ .lockPayment _ => some .payment
  | .recharging _ .lockClient _ | .delivering _ _ .lockClient => some (.client k)
  | _ => none

@[simp] theorem holdsPayment_ofPhase (p : Phase) :
    (ofPhase p : LockPhase ι).holdsPayment = false := by
  cases p <;> rfl

@[simp] theorem holdsClient_ofPhase (p : Phase) :
    (ofPhase p : LockPhase ι).holdsClient = false := by
  cases p <;> rfl

/-- The thread's own part of the invariant: its semaphore, and what it has pushed. -/
def Local [DecidableEq ι] (i : ι) (c : Client ι) : LockPhase ι → Prop
  | .recharging _ at' sem => at'.semaphore i = some sem ∧
      ∃ pre, Merge.part i c.received = pre ++ at'.pushed c.subscriptionType
  | _ => True

/-- The thread's own part depends on its messages and the subscription type only. -/
theorem local_congr [DecidableEq ι] {i : ι} {c c' : Client ι} {p : LockPhase ι}
    (hmsg : Merge.part i c'.received = Merge.part i c.received)
    (htype : c'.subscriptionType = c.subscriptionType) (h : p.Local i c) : p.Local i c' := by
  cases p with
  | recharging f at' sem =>
    obtain ⟨hsem, pre, hpre⟩ := h
    exact ⟨hsem, pre, by rw [hmsg, htype, hpre]⟩
  | _ => trivial

end LockPhase

namespace Job

variable {ι κ : Type} (job : Job κ) {i : ι} {v v' : View ι} {p p' : LockPhase ι}

/-- **What a step does to the locks**: nothing, or one of them is taken or given back. -/
theorem lockStep_moves (h : job.LockStep i v p v' p') :
    Moves i p.holdsPayment v.paymentLock p'.holdsPayment v'.paymentLock ∧
      Moves i p.holdsClient v.clientLock p'.holdsClient v'.clientLock := by
  cases h with
  | check f =>
    cases v.client.hasCredit
    · exact ⟨.keep _ _, .keep _ _⟩
    · simp only [Bool.not_true, Bool.false_eq_true, if_false, LockPhase.holdsPayment_ofPhase,
        LockPhase.holdsClient_ofPhase]
      exact ⟨.keep _ _, .keep _ _⟩
  | lockPayment f sem hl => rw [hl]; exact ⟨.lock, .keep _ _⟩
  | unlockPayment f sem hl => rw [hl]; exact ⟨.unlock, .keep _ _⟩
  | lockClient f sem hl => rw [hl]; exact ⟨.keep _ _, .lock⟩
  | unlockClient f sem hl => rw [hl]; exact ⟨.keep _ _, .unlock⟩
  | lockDelivery f b hl => rw [hl]; exact ⟨.keep _ _, .lock⟩
  | unlockDelivery f b hl =>
    rw [hl, LockPhase.holdsPayment_ofPhase, LockPhase.holdsClient_ofPhase]
    exact ⟨.keep _ _, .unlock⟩
  | returned f sem =>
    cases v.client.subscriptionType <;> exact ⟨.keep _ _, .keep _ _⟩
  | testCount f sem =>
    cases sem.semaphore.wait <;> exact ⟨.keep _ _, .keep _ _⟩
  | unlockWait f sem hl =>
    rw [LockPhase.holdsPayment_ofPhase, LockPhase.holdsClient_ofPhase]
    exact ⟨.keep _ _, .keep _ _⟩
  | request | respond | lockNotify | notify | unlockNotify | lockWait | consume | print =>
    exact ⟨.keep _ _, .keep _ _⟩

section Local

variable [DecidableEq ι]

theorem local_enterLine (c : Client ι) (n : UInt64) (lines : List StdString) :
    (LockPhase.ofPhase (.enterLine n lines)).Local i c := by
  cases lines <;> trivial

theorem local_loopHead (c : Client ι) (f : Frame) : (LockPhase.ofPhase f.loopHead).Local i c := by
  unfold Frame.loopHead
  split
  · exact local_enterLine c _ _
  · trivial

theorem local_search (c : Client ι) (f : Frame) :
    (LockPhase.ofPhase (job.search f)).Local i c := by
  rcases job.search_cases f with h | ⟨f', b, h, -⟩
  · rw [h]
    exact local_enterLine c _ _
  · rw [h]
    trivial

/-- **What a step does to the thread's own part**: its semaphore and its messages follow its control
point. -/
theorem lockStep_local (hp : p.Local i v.client) (h : job.LockStep i v p v' p') :
    p'.Local i v'.client := by
  cases h with
  | check f =>
    cases v.client.hasCredit
    · trivial
    · exact job.local_search _ f
  | request f => exact ⟨rfl, Merge.part i v.client.received, by simp [Recharge.pushed]⟩
  | respond f sem =>
    -- the response is logged right after the thread's own request for credit
    obtain ⟨hsem, pre, hpre⟩ := hp
    refine ⟨hsem, pre, ?_⟩
    have hpre' : Merge.part i v.client.received = pre ++ [.notEnoughCredit] := hpre
    rw [Client.pushResponse_received, Client.pushResponse_subscriptionType, Merge.part_append,
      hpre']
    simp [Recharge.pushed]
  | unlockWait f sem hl => exact job.local_search _ f
  | unlockDelivery f b hl => exact local_loopHead _ f
  | returned f sem =>
    cases hs : v.client.subscriptionType
    · trivial
    · exact hp
  | lockPayment f sem | lockClient f sem | unlockClient f sem | unlockPayment f sem => exact hp
  | lockNotify f sem | notify f sem | unlockNotify f sem | lockWait f sem =>
    obtain ⟨hsem, hpre⟩ := hp
    cases Option.some.inj hsem
    exact ⟨rfl, hpre⟩
  | testCount f sem =>
    -- the count is one, so the thread goes on instead of parking
    obtain ⟨hsem, hpre⟩ := hp
    cases Option.some.inj hsem
    have hcount : (1 : UInt32) - 1 = 0 := by decide
    exact ⟨by simp only [Recharge.semaphore, hcount], hpre⟩
  | consume | lockDelivery | print => trivial

end Local

end Job

namespace LockSystem

variable {ι κ : Type} [DecidableEq ι] [DecidableEq κ]

/-- **The invariant of threads with locks.** -/
structure LockInv (s : LockSystem ι κ) : Prop where
  /-- The lock of the payment service is held by the thread in its critical section. -/
  payment : ∀ j, s.paymentLock = some j ↔ (s.threads j).any (fun t => t.phase.holdsPayment) = true
  /-- The lock of a client is held by the thread in its critical section. -/
  client : ∀ k j, s.clientLocks k = some j ↔
    (s.threads j).any (fun t => decide (t.job.client = k) && t.phase.holdsClient) = true
  own : ∀ j, ∀ t ∈ s.threads j, t.phase.Local j (s.clients t.job.client)

variable {s s' : LockSystem ι κ} {i : ι}

/-- **One step keeps the invariant.** -/
theorem lockInv_step (hI : LockInv s) (h : s.step i = some s') : LockInv s' := by
  obtain ⟨t, v, p, ht, hs, rfl⟩ := step_cases h
  obtain ⟨hpay, hcl⟩ := t.job.lockStep_moves hs
  obtain ⟨htype, new, hnew, htag⟩ := t.job.lockStep_frame hs
  -- what a predicate of threads says of the threads after the step
  have hany : ∀ (q : LockThread ι κ → Bool) j,
      (Function.update s.threads i (some { t with phase := p }) j).any q =
        Function.update (fun j => (s.threads j).any q) i (q { t with phase := p }) j := fun q j =>
    Function.apply_update (fun _ o => Option.any q o) s.threads i _ j
  constructor
  · intro j
    rw [hany]
    have hmoves : Moves i ((s.threads i).any fun t => t.phase.holdsPayment) s.paymentLock
        p.holdsPayment v.paymentLock := by
      rw [ht]
      exact hpay
    exact owned_moves hI.payment hmoves j
  · intro k j
    rw [hany]
    by_cases hk : t.job.client = k
    · subst hk
      have hmoves : Moves i ((s.threads i).any fun t' =>
          decide (t'.job.client = t.job.client) && t'.phase.holdsClient)
          (s.clientLocks t.job.client)
          (decide (t.job.client = t.job.client) && p.holdsClient) v.clientLock := by
        rw [ht, Option.any_some, decide_eq_true rfl, Bool.true_and, Bool.true_and]
        exact hcl
      dsimp only
      rw [Function.update_self]
      exact owned_moves (hI.client t.job.client) hmoves j
    · -- the thread serves another client
      have hi : ((s.threads i).any fun t' => decide (t'.job.client = k) && t'.phase.holdsClient) =
          (decide (t.job.client = k) && p.holdsClient) := by
        rw [ht]
        simp [hk]
      simp only [Function.update_of_ne (Ne.symm hk), ← hi, Function.update_eq_self]
      exact hI.client k j
  · intro j t' ht'
    by_cases hj : j = i
    · subst hj
      simp only [Function.update_self, Option.mem_def, Option.some.injEq] at ht'
      subst ht'
      simp only [Function.update_self]
      exact t.job.lockStep_local (hI.own j t ht) hs
    · simp only [Function.update_of_ne hj] at ht'
      have hown := hI.own j t' ht'
      by_cases hk : t'.job.client = t.job.client
      · -- its messages and its client's type are as they were
        rw [hk] at hown ⊢
        simp only [Function.update_self]
        have hpart : Merge.part j v.client.received =
            Merge.part j (s.clients t.job.client).received := by
          rw [hnew, Merge.part_append_ne hj htag]
          rfl
        exact LockPhase.local_congr hpart htype hown
      · simp only [Function.update_of_ne hk]
        exact hown

theorem lockInv_init (clients : κ → Client ι) (jobs : ι → Option (Job κ)) :
    LockInv (init clients jobs) := by
  constructor
  · intro j
    cases hj : jobs j <;> simp [init, hj]
  · intro k j
    cases hj : jobs j <;> simp [init, hj]
  · intro j t ht
    obtain ⟨job, -, rfl⟩ := Option.map_eq_some_iff.1 ht
    exact Job.local_enterLine _ _ _

/-- **The invariant holds along every run.** -/
theorem lockInv_run {clients : κ → Client ι} {jobs : ι → Option (Job κ)} {sched : List ι}
    (h : exec step (init clients jobs) sched = some s) : LockInv s :=
  exec_inv lockInv_step (lockInv_init clients jobs) h

/-! ## Lock order -/

/-- The holder of a lock. -/
def holder (s : LockSystem ι κ) : LockName κ → Option ι
  | .payment => s.paymentLock
  | .client k => s.clientLocks k

/-- Thread `i` is blocked at the acquisition of `l`. -/
def Waits (s : LockSystem ι κ) (i : ι) (l : LockName κ) : Prop :=
  (∃ t ∈ s.threads i, t.phase.wants t.job.client = some l) ∧ s.holder l ≠ none

/-- The holder of a lock is in its critical section. -/
theorem holder_phase (hI : LockInv s) {l : LockName κ} (h : s.holder l = some i) :
    ∃ t, s.threads i = some t ∧
      (l = .payment ∧ t.phase.holdsPayment = true ∨
        l = .client t.job.client ∧ t.phase.holdsClient = true) := by
  cases l with
  | payment =>
    obtain ⟨t, ht, hp⟩ := (Option.any_eq_true _ _).1 ((hI.payment i).1 h)
    exact ⟨t, ht, .inl ⟨rfl, hp⟩⟩
  | client k =>
    obtain ⟨t, ht, hp⟩ := (Option.any_eq_true _ _).1 ((hI.client k i).1 h)
    rw [Bool.and_eq_true, decide_eq_true_iff] at hp
    exact ⟨t, ht, .inr ⟨by rw [hp.1], hp.2⟩⟩

/-- A thread waits only for locks above those it holds. -/
theorem holder_rank (hI : LockInv s) {l l' : LockName κ} (h : s.holder l = some i)
    (hw : s.Waits i l') : l.rank < l'.rank := by
  obtain ⟨t, ht, hl⟩ := holder_phase hI h
  obtain ⟨⟨t', ht', hwant⟩, -⟩ := hw
  obtain rfl : t' = t := Option.some.inj (ht'.symm.trans ht)
  rcases hl with ⟨rfl, hp⟩ | ⟨rfl, hp⟩
  · -- inside the payment service, only the client's lock is taken
    cases hphase : t'.phase with
    | recharging f at' sem =>
      rw [hphase] at hp hwant
      cases at' <;> cases hp <;> cases hwant
      exact Nat.zero_lt_one
    | _ => rw [hphase] at hp; cases hp
  · -- inside the client's handlers, no lock is taken
    cases hphase : t'.phase with
    | recharging f at' sem =>
      rw [hphase] at hp hwant
      cases at' <;> cases hp <;> cases hwant
    | delivering f b at' =>
      rw [hphase] at hp hwant
      cases at' <;> cases hp <;> cases hwant
    | _ => rw [hphase] at hp; cases hp

/-- **A thread that is not blocked can move.** -/
theorem step_of_not_waiting (hI : LockInv s) {t : LockThread ι κ} (ht : s.threads i = some t)
    (hfin : t.phase ≠ .finished) (hfree : ∀ l, ¬ s.Waits i l) : (s.step i).isSome = true := by
  have hnone : ∀ l, t.phase.wants t.job.client = some l → s.holder l = none := by
    intro l hl
    by_contra hne
    exact hfree l ⟨⟨t, ht, hl⟩, hne⟩
  have hown := hI.own i t ht
  have hpay := hI.payment i
  have hcl := hI.client t.job.client i
  rw [ht, Option.any_some] at hpay hcl
  simp only [decide_true, Bool.true_and] at hcl
  suffices hs : ∃ v p, t.job.LockStep i (s.view t.job.client) t.phase v p by
    obtain ⟨v, p, hs⟩ := hs
    rw [step_of_lockStep ht hs]
    rfl
  -- locks to be taken are free, and those to be given back are held
  cases hp : t.phase with
  | checking f => exact ⟨_, _, .check f⟩
  | requesting f => exact ⟨_, _, .request f⟩
  | consuming f b => exact ⟨_, _, .consume f b⟩
  | finished => exact absurd hp hfin
  | delivering f b at' =>
    rw [hp] at hnone hcl
    cases at' with
    | lockClient => exact ⟨_, _, .lockDelivery f b (hnone (.client _) rfl)⟩
    | print => exact ⟨_, _, .print f b⟩
    | unlockClient => exact ⟨_, _, .unlockDelivery f b (hcl.2 rfl)⟩
  | recharging f at' sem =>
    rw [hp] at hnone hcl hpay hown
    obtain ⟨hsem, -⟩ := hown
    cases at' with
    | lockPayment => exact ⟨_, _, .lockPayment f sem (hnone .payment rfl)⟩
    | lockClient => exact ⟨_, _, .lockClient f sem (hnone (.client _) rfl)⟩
    | respond => exact ⟨_, _, .respond f sem⟩
    | unlockClient => exact ⟨_, _, .unlockClient f sem (hcl.2 rfl)⟩
    | notify => exact ⟨_, _, .notify f sem⟩
    | unlockPayment => exact ⟨_, _, .unlockPayment f sem (hpay.2 rfl)⟩
    | returned => exact ⟨_, _, .returned f sem⟩
    | testCount => exact ⟨_, _, .testCount f sem⟩
    | parked => cases hsem
    -- the semaphore's mutex is the thread's own
    | lockNotify =>
      cases Option.some.inj hsem
      exact ⟨_, _, .lockNotify f _ rfl⟩
    | unlockNotify =>
      cases Option.some.inj hsem
      exact ⟨_, _, .unlockNotify f _ rfl⟩
    | lockWait =>
      cases Option.some.inj hsem
      exact ⟨_, _, .lockWait f _ rfl⟩
    | unlockWait =>
      cases Option.some.inj hsem
      exact ⟨_, _, .unlockWait f _ rfl⟩

/-- **Some thread can move** while one has not finished. -/
theorem exists_step (hI : LockInv s) {t : LockThread ι κ} (ht : s.threads i = some t)
    (hfin : t.phase ≠ .finished) : ∃ j, (s.step j).isSome = true := by
  have hheld : ∀ i l, s.Waits i l → ∃ j, s.holder l = some j := by
    intro i l hw
    exact Option.ne_none_iff_exists'.1 hw.2
  have horder : ∀ j l l', s.holder l = some j → s.Waits j l' → l.rank < l'.rank := by
    intro j l l' hl hw
    exact holder_rank hI hl hw
  obtain ⟨j, hj, hfree⟩ := exists_unblocked LockName.rank LockName.rank_le s.Waits
    (fun j l => s.holder l = some j) hheld horder i
  rcases hj with rfl | ⟨l, hl⟩
  · exact ⟨j, step_of_not_waiting hI ht hfin hfree⟩
  · obtain ⟨t', ht', hholds⟩ := holder_phase hI hl
    have hfin' : t'.phase ≠ .finished := by
      intro hp
      rw [hp] at hholds
      rcases hholds with ⟨-, h⟩ | ⟨-, h⟩ <;> cases h
    exact ⟨j, step_of_not_waiting hI ht' hfin' hfree⟩

/-! ## Waiting for the recharge -/

/-- The last messages that thread `i` has pushed to the client are its request for credit and the
response to it. -/
def Answered (i : ι) (c : Client ι) : Prop :=
  ∃ pre, Merge.part i c.received = pre ++ [.notEnoughCredit,
    .creditRechargeResponse (PaymentService.answer c.subscriptionType Client.rechargeAmount)]

theorem step_eq {t : LockThread ι κ} {v : View ι} {p : LockPhase ι} (ht : s.threads i = some t)
    (h : t.job.LockStep i (s.view t.job.client) t.phase v p) :
    ∃ s', s.step i = some s' ∧ s'.threads i = some { t with phase := p } :=
  ⟨_, step_of_lockStep ht h, Function.update_self ..⟩

/-- **The wait returns** by steps of the thread alone: nobody else uses its semaphore. -/
theorem wait_returns {job : Job κ} {f : Frame} {at' : Recharge} {sem : LockedSemaphore ι}
    (hwait : at'.inWait = true) (hsem : at'.semaphore i = some sem)
    (ht : s.threads i = some ⟨job, .recharging f at' sem⟩) :
    ∃ n s', exec step s (List.replicate n i) = some s' ∧
      s'.threads i = some ⟨job, .ofPhase (job.search f)⟩ := by
  -- the last steps of `wait()`, the later ones first
  have hunlock : ∀ s : LockSystem ι κ,
      s.threads i = some ⟨job, .recharging f .unlockWait ⟨⟨0⟩, some i, 1⟩⟩ →
      ∃ s', exec step s (List.replicate 1 i) = some s' ∧
        s'.threads i = some ⟨job, .ofPhase (job.search f)⟩ := by
    intro s ht
    obtain ⟨s', hs, ht'⟩ := step_eq ht (.unlockWait f _ rfl)
    exact ⟨s', exec_singleton.2 hs, ht'⟩
  have htest : ∀ s : LockSystem ι κ,
      s.threads i = some ⟨job, .recharging f .testCount ⟨⟨1⟩, some i, 1⟩⟩ →
      ∃ s', exec step s (List.replicate 2 i) = some s' ∧
        s'.threads i = some ⟨job, .ofPhase (job.search f)⟩ := by
    intro s ht
    obtain ⟨s₁, hs, ht₁⟩ := step_eq ht (.testCount f _)
    have hcount : (1 : UInt32) - 1 = 0 := by decide
    obtain ⟨s', hs', ht'⟩ := hunlock s₁ (by simpa [Semaphore.wait, hcount] using ht₁)
    exact ⟨s', exec_cons.2 ⟨s₁, hs, hs'⟩, ht'⟩
  cases at' with
  | lockWait =>
    cases Option.some.inj hsem
    obtain ⟨s₁, hs, ht₁⟩ := step_eq ht (.lockWait f _ rfl)
    obtain ⟨s', hs', ht'⟩ := htest s₁ ht₁
    exact ⟨3, s', exec_cons.2 ⟨s₁, hs, hs'⟩, ht'⟩
  | testCount =>
    cases Option.some.inj hsem
    exact ⟨2, htest s ht⟩
  | unlockWait =>
    cases Option.some.inj hsem
    exact ⟨1, hunlock s ht⟩
  | parked => cases hsem
  | _ => cases hwait

/-- **No deadlock**, and no wait without its notification. -/
structure DeadlockFree (s : LockSystem ι κ) : Prop where
  /-- Some thread can move unless all have finished. -/
  canMove : (∃ i, ∃ t ∈ s.threads i, t.phase ≠ .finished) → ∃ j, (s.step j).isSome = true
  /-- The semaphore of a thread in `wait()` has been notified exactly once, and does not park it. -/
  notified : ∀ i job f at' sem, s.threads i = some ⟨job, .recharging f at' sem⟩ →
    at'.inWait = true → sem.notified = 1 ∧ at' ≠ .parked
  /-- The response to its request has been applied. -/
  answered : ∀ i job f at' sem, s.threads i = some ⟨job, .recharging f at' sem⟩ →
    at'.inWait = true → Answered i (s.clients job.client)
  /-- Its own next steps take it back to the search. -/
  returns : ∀ i job f at' sem, s.threads i = some ⟨job, .recharging f at' sem⟩ →
    at'.inWait = true → ∃ n s', exec step s (List.replicate n i) = some s' ∧
      s'.threads i = some ⟨job, .ofPhase (job.search f)⟩

/-- **The recharge protocol cannot deadlock**, for any threads, clients, jobs and interleaving. -/
theorem no_deadlock {clients : κ → Client ι} {jobs : ι → Option (Job κ)} {sched : List ι}
    (h : exec step (init clients jobs) sched = some s) : s.DeadlockFree := by
  have hI := lockInv_run h
  constructor
  · rintro ⟨i, t, ht, hfin⟩
    exact exists_step hI ht hfin
  · intro i job f at' sem ht hwait
    obtain ⟨hsem, -⟩ := hI.own i _ ht
    cases at' <;> cases hwait <;> cases hsem <;> exact ⟨rfl, by simp⟩
  · intro i job f at' sem ht hwait
    obtain ⟨-, hpushed⟩ := hI.own i _ ht
    cases at' <;> cases hwait <;> exact hpushed
  · intro i job f at' sem ht hwait
    exact wait_returns hwait (hI.own i _ ht).1 ht

/-- Two threads of a Premium client without credit: the first is in `wait()`, the second inside the
payment service. -/
def rechargingSystem : LockSystem Bool Unit :=
  (exec step (init (fun _ => ⟨0, .premium, 0, []⟩) fun _ => some (Job.letterJob 97 97))
    ([true, true] ++ List.replicate 11 false ++ [true])).get (by decide +kernel)

theorem no_deadlock_recharging :
    ((rechargingSystem.threads false).any fun t =>
        match t.phase with | .recharging _ .lockWait _ => true | _ => false) = true ∧
      rechargingSystem.DeadlockFree :=
  ⟨by decide +kernel, no_deadlock (Option.some_get _).symm⟩

end LockSystem

end MTFind2
