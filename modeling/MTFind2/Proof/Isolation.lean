import MTFind2.Proof.LockSteps

/-!
# Clients do not interfere

The payment service keeps nothing between two transactions but its lock, which is
free then. So deleting from a run all steps of the threads that serve other clients
than `A` leaves a run of `A`'s threads: where the lock was held by one of the others
it is free instead.

* `lockStep_keep`: a step of one of `A`'s threads is possible there too.
* `lockStep_drop`: a step of another thread changes nothing that `A`'s threads see.
* `isolation`: the run of `A`'s threads alone ends with the same client `A` and the
  same positions of its threads.
-/

namespace MTFind2

open Run

/-- What a thread sees when the lock of the payment service is free unless one of the threads `q`
holds it. -/
def View.only {ι : Type} (q : ι → Bool) (v : View ι) : View ι :=
  { v with paymentLock := v.paymentLock.filter q }

namespace Job

variable {ι κ : Type} (job : Job κ) {i : ι} {v v' : View ι} {p p' : LockPhase ι} {q : ι → Bool}

/-- **A step of one of the threads `q`** is possible without the others. -/
theorem lockStep_keep (hi : q i = true) (h : job.LockStep i v p v' p') :
    job.LockStep i (v.only q) p (v'.only q) p' := by
  cases h with
  | lockPayment f sem hl =>
    have hnew : View.only q { v with paymentLock := some i } =
        { v.only q with paymentLock := some i } := by
      simp [View.only, hi]
    rw [hnew]
    exact .lockPayment f sem (by simp [View.only, hl])
  | unlockPayment f sem hl => exact .unlockPayment f sem (by simp [View.only, hl, hi])
  | check f => exact .check f
  | request f => exact .request f
  | lockClient f sem hl => exact .lockClient f sem hl
  | respond f sem => exact .respond f sem
  | unlockClient f sem hl => exact .unlockClient f sem hl
  | lockNotify f sem hl => exact .lockNotify f sem hl
  | notify f sem => exact .notify f sem
  | unlockNotify f sem hl => exact .unlockNotify f sem hl
  | returned f sem => exact .returned f sem
  | lockWait f sem hl => exact .lockWait f sem hl
  | testCount f sem => exact .testCount f sem
  | unlockWait f sem hl => exact .unlockWait f sem hl
  | consume f b => exact .consume f b
  | lockDelivery f b hl => exact .lockDelivery f b hl
  | print f b => exact .print f b
  | unlockDelivery f b hl => exact .unlockDelivery f b hl

/-- **A step of another thread** leaves the payment service's lock as the threads `q` see it. -/
theorem lockStep_drop (hi : q i = false) (h : job.LockStep i v p v' p') :
    v'.paymentLock.filter q = v.paymentLock.filter q := by
  cases h with
  | lockPayment f sem hl =>
    have hnone : (some i).filter q = none := by simp [hi]
    rw [hl]
    exact hnone
  | unlockPayment f sem hl =>
    have hnone : (some i).filter q = none := by simp [hi]
    rw [hl, hnone]
    rfl
  | _ => rfl

end Job

namespace LockSystem

variable {ι κ : Type} [DecidableEq ι] [DecidableEq κ]

/-- The jobs for the client `A`. -/
def jobsFor (A : κ) (jobs : ι → Option (Job κ)) (i : ι) : Option (Job κ) :=
  (jobs i).filter fun job => decide (job.client = A)

/-- Thread `i` serves the client `A`. -/
def serves (A : κ) (jobs : ι → Option (Job κ)) (i : ι) : Bool := (jobsFor A jobs i).isSome

/-- `s'` is what `s` looks like to the threads of client `A`. -/
structure Alone (A : κ) (jobs : ι → Option (Job κ)) (s s' : LockSystem ι κ) : Prop where
  job : ∀ i, (s.threads i).map LockThread.job = jobs i
  client : s'.clients A = s.clients A
  clientLock : s'.clientLocks A = s.clientLocks A
  paymentLock : s'.paymentLock = s.paymentLock.filter (serves A jobs)
  threads : ∀ i, s'.threads i = if serves A jobs i then s.threads i else none

variable {A : κ} {jobs : ι → Option (Job κ)} {s s' t : LockSystem ι κ} {i : ι}

omit [DecidableEq ι] in
/-- The threads that serve `A` are those with a job for it. -/
theorem Alone.serves_iff (hR : Alone A jobs s s') {th : LockThread ι κ}
    (ht : s.threads i = some th) : serves A jobs i = decide (th.job.client = A) := by
  have hj := hR.job i
  rw [ht] at hj
  unfold serves jobsFor
  rw [← hj]
  by_cases hA : th.job.client = A <;> simp [hA]

/-- **A step of one of `A`'s threads** is matched. -/
theorem alone_keep (hR : Alone A jobs s s') (hi : serves A jobs i = true)
    (h : s.step i = some t) : ∃ t', s'.step i = some t' ∧ Alone A jobs t t' := by
  obtain ⟨th, v, p, ht, hs, rfl⟩ := step_cases h
  have hA : th.job.client = A := by
    have := hR.serves_iff ht
    rw [hi] at this
    exact of_decide_eq_true this.symm
  have ht' : s'.threads i = some th := by rw [hR.threads, if_pos hi, ht]
  have hview : s'.view th.job.client = (s.view th.job.client).only (serves A jobs) := by
    simp only [view, View.only, hA, hR.client, hR.clientLock, hR.paymentLock]
  have hs' := th.job.lockStep_keep hi hs
  rw [← hview] at hs'
  refine ⟨{ clients := Function.update s'.clients th.job.client v.client
            clientLocks := Function.update s'.clientLocks th.job.client v.clientLock
            paymentLock := v.paymentLock.filter (serves A jobs)
            threads := Function.update s'.threads i (some { th with phase := p }) }, ?_, ?_⟩
  · exact step_of_lockStep ht' hs'
  · constructor
    · intro j
      by_cases hj : j = i
      · subst hj
        have := hR.job j
        rw [ht] at this
        simpa using this
      · simpa [hj] using hR.job j
    · simp [hA]
    · simp [hA]
    · rfl
    · intro j
      by_cases hj : j = i
      · subst hj
        simp [hi]
      · simpa [hj] using hR.threads j

/-- **A step of another thread** is not seen. -/
theorem alone_drop (hR : Alone A jobs s s') (hi : serves A jobs i = false)
    (h : s.step i = some t) : Alone A jobs t s' := by
  obtain ⟨th, v, p, ht, hs, rfl⟩ := step_cases h
  have hA : A ≠ th.job.client := by
    have := hR.serves_iff ht
    rw [hi] at this
    exact Ne.symm (of_decide_eq_false this.symm)
  constructor
  · intro j
    by_cases hj : j = i
    · subst hj
      have := hR.job j
      rw [ht] at this
      simpa using this
    · simpa [hj] using hR.job j
  · simpa [hA] using hR.client
  · simpa [hA] using hR.clientLock
  · have hpay : v.paymentLock.filter (serves A jobs) = s.paymentLock.filter (serves A jobs) :=
      th.job.lockStep_drop hi hs
    exact hR.paymentLock.trans hpay.symm
  · intro j
    rw [hR.threads]
    by_cases hj : j = i
    · subst hj
      simp [hi]
    · simp [hj]

omit [DecidableEq ι] in
theorem alone_init (A : κ) (clients : κ → Client ι) (jobs : ι → Option (Job κ)) :
    Alone A jobs (init clients jobs) (init clients (jobsFor A jobs)) := by
  constructor
  · intro i
    cases hj : jobs i <;> simp [init, hj]
  · rfl
  · rfl
  · rfl
  · intro i
    unfold serves jobsFor init
    cases hj : jobs i with
    | none => simp [hj]
    | some job => by_cases hA : job.client = A <;> simp [hj, hA]

/-- **Clients do not interfere.** Deleting from a run all steps of threads that serve other clients
leaves a run of the threads of `A` alone, which ends with the same client `A` (its credit and the
messages it received) and the same positions of its threads. -/
theorem isolation (A : κ) {clients : κ → Client ι} {jobs : ι → Option (Job κ)} {sched : List ι}
    (h : exec step (init clients jobs) sched = some s) :
    ∃ s', exec step (init clients (jobsFor A jobs)) (sched.filter (serves A jobs)) = some s' ∧
      s'.clients A = s.clients A ∧ ∀ i, serves A jobs i = true → s'.threads i = s.threads i := by
  obtain ⟨s', hs', hR⟩ := exec_filter (serves A jobs) alone_keep alone_drop
    (alone_init A clients jobs) h
  exact ⟨s', hs', hR.client, fun i hi => by rw [hR.threads, if_pos hi]⟩

/-- A Standard and a Premium client, both without credit. -/
def pairClients : Bool → Client Bool
  | false => ⟨0, .standard, 0, []⟩
  | true => ⟨1, .premium, 0, []⟩

/-- One thread for each client. -/
def pairJobs (i : Bool) : Option (Job Bool) :=
  some ⟨i, (Job.letterJob 97 97).source, (Job.letterJob 97 97).request⟩

/-- The Standard client is cut off in the payment service before the Premium one is recharged. -/
def pairSched : List Bool :=
  [false, true, false, false, true] ++ List.replicate 8 false ++ List.replicate 13 true

def pairSystem : LockSystem Bool Bool :=
  (exec step (init pairClients pairJobs) pairSched).get (by decide +kernel)

theorem isolation_pair : ∃ s', exec step (init pairClients (jobsFor true pairJobs))
      (pairSched.filter (serves true pairJobs)) = some s' ∧
    s'.clients true = pairSystem.clients true ∧
    ∀ i, serves true pairJobs i = true → s'.threads i = pairSystem.threads i :=
  isolation true (Option.some_get _).symm

end LockSystem

end MTFind2
