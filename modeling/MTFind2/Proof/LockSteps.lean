import MTFind2.Spec.Locks
import MTFind2.Proof.Scan

/-!
# The steps of a thread with locks

`LockStep` lists what a thread can do next, one constructor for each control point. These
are the steps of the model (`lockStep_cases`, `lockStep_of_cases`), and `lockStep_frame` says
what they leave to the other threads. The modules about locks split on it and do not unfold
the step functions.
-/

namespace MTFind2

open Mutex

namespace Job

variable {ι κ : Type} [DecidableEq ι] (job : Job κ) {i : ι} {v v' : View ι} {p p' : LockPhase ι}

/-- The steps of thread `i`, one constructor for each: from what it sees and its control point to
what it leaves and its next control point. -/
inductive LockStep (i : ι) (v : View ι) : LockPhase ι → View ι → LockPhase ι → Prop
  | check (f : Frame) : LockStep i v (.checking f) v
      (if !v.client.hasCredit then .requesting f else .ofPhase (job.search f))
  | request (f : Frame) : LockStep i v (.requesting f)
      { v with client := v.client.receive i .notEnoughCredit }
      (.recharging f .lockPayment ⟨⟨0⟩, none, 0⟩)
  | lockPayment (f : Frame) (sem : LockedSemaphore ι) (h : v.paymentLock = none) :
      LockStep i v (.recharging f .lockPayment sem) { v with paymentLock := some i }
        (.recharging f .lockClient sem)
  | lockClient (f : Frame) (sem : LockedSemaphore ι) (h : v.clientLock = none) :
      LockStep i v (.recharging f .lockClient sem) { v with clientLock := some i }
        (.recharging f .respond sem)
  | respond (f : Frame) (sem : LockedSemaphore ι) :
      LockStep i v (.recharging f .respond sem) { v with
        client := v.client.pushCreditRechargeResponse i
          (PaymentService.answer v.client.subscriptionType Client.rechargeAmount) }
        (.recharging f .unlockClient sem)
  | unlockClient (f : Frame) (sem : LockedSemaphore ι) (h : v.clientLock = some i) :
      LockStep i v (.recharging f .unlockClient sem) { v with clientLock := none }
        (.recharging f .lockNotify sem)
  | lockNotify (f : Frame) (sem : LockedSemaphore ι) (h : sem.mutex = none) :
      LockStep i v (.recharging f .lockNotify sem) v
        (.recharging f .notify { sem with mutex := some i })
  | notify (f : Frame) (sem : LockedSemaphore ι) :
      LockStep i v (.recharging f .notify sem) v (.recharging f .unlockNotify
        { sem with semaphore := sem.semaphore.notify, notified := sem.notified + 1 })
  | unlockNotify (f : Frame) (sem : LockedSemaphore ι) (h : sem.mutex = some i) :
      LockStep i v (.recharging f .unlockNotify sem) v
        (.recharging f .unlockPayment { sem with mutex := none })
  | unlockPayment (f : Frame) (sem : LockedSemaphore ι) (h : v.paymentLock = some i) :
      LockStep i v (.recharging f .unlockPayment sem) { v with paymentLock := none }
        (.recharging f .returned sem)
  | returned (f : Frame) (sem : LockedSemaphore ι) :
      LockStep i v (.recharging f .returned sem) v
        (if v.client.subscriptionType = .standard then .finished else .recharging f .lockWait sem)
  | lockWait (f : Frame) (sem : LockedSemaphore ι) (h : sem.mutex = none) :
      LockStep i v (.recharging f .lockWait sem) v
        (.recharging f .testCount { sem with mutex := some i })
  | testCount (f : Frame) (sem : LockedSemaphore ι) :
      LockStep i v (.recharging f .testCount sem) v (match sem.semaphore.wait with
        | none => .recharging f .parked { sem with mutex := none }
        | some s => .recharging f .unlockWait { sem with semaphore := s })
  | unlockWait (f : Frame) (sem : LockedSemaphore ι) (h : sem.mutex = some i) :
      LockStep i v (.recharging f .unlockWait sem) v (.ofPhase (job.search f))
  | consume (f : Frame) (b : Bool) :
      LockStep i v (.consuming f b) { v with client := v.client.consumeCredit }
        (.delivering f b .lockClient)
  | lockDelivery (f : Frame) (b : Bool) (h : v.clientLock = none) :
      LockStep i v (.delivering f b .lockClient) { v with clientLock := some i }
        (.delivering f b .print)
  | print (f : Frame) (b : Bool) :
      LockStep i v (.delivering f b .print)
        { v with client := v.client.pushSearchResultFound i job.request (job.result f b) }
        (.delivering f b .unlockClient)
  | unlockDelivery (f : Frame) (b : Bool) (h : v.clientLock = some i) :
      LockStep i v (.delivering f b .unlockClient) { v with clientLock := none }
        (.ofPhase f.loopHead)

/-- **What a step does**, one case per control point. -/
theorem lockStep_cases (h : job.lockStep i v p = some (v', p')) : job.LockStep i v p v' p' := by
  cases p with
  | checking f => cases h; exact .check f
  | requesting f => cases h; exact .request f
  | recharging f at' sem =>
    simp only [lockStep] at h
    cases at' <;> simp only [rechargeStep, Option.map_eq_some_iff, lock_eq_some,
      unlock_eq_some, Prod.mk.injEq, Option.some.injEq, reduceCtorEq] at h
    case lockPayment => obtain ⟨_, ⟨hl, rfl⟩, rfl, rfl⟩ := h; exact .lockPayment f sem hl
    case lockClient => obtain ⟨_, ⟨hl, rfl⟩, rfl, rfl⟩ := h; exact .lockClient f sem hl
    case respond => obtain ⟨rfl, rfl⟩ := h; exact .respond f sem
    case unlockClient => obtain ⟨_, ⟨hl, rfl⟩, rfl, rfl⟩ := h; exact .unlockClient f sem hl
    case lockNotify => obtain ⟨_, ⟨hl, rfl⟩, rfl, rfl⟩ := h; exact .lockNotify f sem hl
    case notify => obtain ⟨rfl, rfl⟩ := h; exact .notify f sem
    case unlockNotify => obtain ⟨_, ⟨hl, rfl⟩, rfl, rfl⟩ := h; exact .unlockNotify f sem hl
    case unlockPayment => obtain ⟨_, ⟨hl, rfl⟩, rfl, rfl⟩ := h; exact .unlockPayment f sem hl
    case returned => obtain ⟨rfl, rfl⟩ := h; exact .returned f sem
    case lockWait => obtain ⟨_, ⟨hl, rfl⟩, rfl, rfl⟩ := h; exact .lockWait f sem hl
    case testCount => obtain ⟨rfl, rfl⟩ := h; exact .testCount f sem
    case unlockWait => obtain ⟨_, ⟨hl, -⟩, rfl, rfl⟩ := h; exact .unlockWait f sem hl
  | consuming f b => cases h; exact .consume f b
  | delivering f b at' =>
    simp only [lockStep] at h
    cases at' <;> simp only [deliveryStep, Option.map_eq_some_iff, lock_eq_some,
      unlock_eq_some, Prod.mk.injEq, Option.some.injEq] at h
    case lockClient => obtain ⟨_, ⟨hl, rfl⟩, rfl, rfl⟩ := h; exact .lockDelivery f b hl
    case print => obtain ⟨rfl, rfl⟩ := h; exact .print f b
    case unlockClient => obtain ⟨_, ⟨hl, rfl⟩, rfl, rfl⟩ := h; exact .unlockDelivery f b hl
  | finished => cases h

theorem lockStep_of_cases (h : job.LockStep i v p v' p') : job.lockStep i v p = some (v', p') := by
  cases h with
  | check | request | respond | notify | returned | testCount | consume | print => rfl
  | lockPayment f sem hl | lockClient f sem hl | unlockClient f sem hl | lockNotify f sem hl
  | unlockNotify f sem hl | unlockPayment f sem hl | lockWait f sem hl | unlockWait f sem hl =>
    simp [lockStep, rechargeStep, lock, unlock, hl]
  | lockDelivery f b hl | unlockDelivery f b hl => simp [lockStep, deliveryStep, lock, unlock, hl]

omit [DecidableEq ι] in
/-- **What a step leaves to the others**: the subscription type and their messages stay. -/
theorem lockStep_frame (h : job.LockStep i v p v' p') :
    v'.client.subscriptionType = v.client.subscriptionType ∧
      ∃ new, v'.client.received = v.client.received ++ new ∧ ∀ m ∈ new, m.1 = i := by
  cases h with
  | request | respond | print => exact ⟨by simp, _, by simp; rfl, by simp⟩
  | consume => exact ⟨by simp, [], by simp, by simp⟩
  | _ => exact ⟨rfl, [], by simp, by simp⟩

end Job

/-- **A step of a system with locks** is a step of one of its threads. -/
theorem LockSystem.step_cases {ι κ : Type} [DecidableEq ι] [DecidableEq κ] {s s' : LockSystem ι κ}
    {i : ι} (h : s.step i = some s') :
    ∃ t v p, s.threads i = some t ∧
      t.job.LockStep i (s.view t.job.client) t.phase v p ∧
      s' = { clients := Function.update s.clients t.job.client v.client
             clientLocks := Function.update s.clientLocks t.job.client v.clientLock
             paymentLock := v.paymentLock
             threads := Function.update s.threads i (some { t with phase := p }) } := by
  simp only [LockSystem.step, Option.bind_eq_some_iff, Option.map_eq_some_iff] at h
  obtain ⟨t, ht, ⟨v, p⟩, hs, h⟩ := h
  exact ⟨t, v, p, ht, t.job.lockStep_cases hs, h.symm⟩

/-- The step that a thread can take is a step of the system. -/
theorem LockSystem.step_of_lockStep {ι κ : Type} [DecidableEq ι] [DecidableEq κ]
    {s : LockSystem ι κ} {i : ι} {t : LockThread ι κ} {v : View ι} {p : LockPhase ι}
    (ht : s.threads i = some t) (h : t.job.LockStep i (s.view t.job.client) t.phase v p) :
    s.step i = some
      { clients := Function.update s.clients t.job.client v.client
        clientLocks := Function.update s.clientLocks t.job.client v.clientLock
        paymentLock := v.paymentLock
        threads := Function.update s.threads i (some { t with phase := p }) } := by
  unfold LockSystem.step
  rw [ht, Option.bind_some, t.job.lockStep_of_cases h, Option.map_some]

end MTFind2
