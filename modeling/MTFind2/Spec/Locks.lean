import MTFind2.Lib.Mutex
import MTFind2.Spec.Search

/-!
# `find_in_source` with its locks

The threads of `System` again, with the calls taken apart: each acquisition and
release of the transaction lock of the payment service, of the transaction lock of
a client and of the mutex of a semaphore is a step of its own.

`Recharge` follows a thread through `push_message(NotEnoughCreditMessage)`, down to
`PaymentService::push_message`, `push_message(CreditRechargeResponseMessage)` and
`Semaphore::notify`, back up, and through `Semaphore::wait`. The client's handler of
`NotEnoughCreditMessage` takes no lock. `Delivery` follows it through
`push_message(SearchResultFoundMessage)`. `has_credit` and `consume_credit` take no lock
in the code; each of them is one step here, as in `System`, by assumption.
-/

namespace MTFind2

/-- A `Semaphore` with its mutex, and the number of `notify()` calls made on it so far. -/
structure LockedSemaphore (ι : Type) where
  semaphore : Semaphore
  mutex : Option ι
  notified : ℕ
deriving DecidableEq

/-- Where a thread stands between `push_message(NotEnoughCreditMessage)` and the end of `wait()`. -/
inductive Recharge
  /-- `PaymentService::push_message` takes its transaction lock. -/
  | lockPayment
  /-- `push_message(CreditRechargeResponseMessage)` takes the client's transaction lock. -/
  | lockClient
  /-- It adds the amount to the credit. -/
  | respond
  | unlockClient
  /-- `notify()` takes the semaphore's mutex. -/
  | lockNotify
  /-- `m_count++`, `notify_one()`. -/
  | notify
  | unlockNotify
  | unlockPayment
  /-- Back in `find_in_source`: a Standard client's search returns. -/
  | returned
  /-- `wait()` takes the semaphore's mutex. -/
  | lockWait
  /-- `m_count == 0`: parks on the condition variable; else `m_count--`. -/
  | testCount
  | parked
  | unlockWait
deriving DecidableEq

/-- Where a thread stands in `push_message(SearchResultFoundMessage)`. -/
inductive Delivery
  | lockClient
  | print
  | unlockClient
deriving DecidableEq

/-- The control points of a thread of `find_in_source` with locks. -/
inductive LockPhase (ι : Type)
  /-- `client.has_credit()`. -/
  | checking (f : Frame)
  /-- `Semaphore semaphore; client.push_message(NotEnoughCreditMessage(semaphore))`. -/
  | requesting (f : Frame)
  | recharging (f : Frame) (at' : Recharge) (semaphore : LockedSemaphore ι)
  /-- `client.consume_credit()`. -/
  | consuming (f : Frame) (isFinal : Bool)
  | delivering (f : Frame) (isFinal : Bool) (at' : Delivery)
  | finished
deriving DecidableEq

/-- The control point at which a call begins. -/
def LockPhase.ofPhase {ι : Type} : Phase → LockPhase ι
  | .checking f => .checking f
  | .requesting f _ => .requesting f
  | .waiting f semaphore => .recharging f .lockWait ⟨semaphore, none, semaphore.count.toNat⟩
  | .consuming f isFinal => .consuming f isFinal
  | .delivering f isFinal => .delivering f isFinal .lockClient
  | .finished => .finished

/-- What a step of a thread reads and writes: the lock of the payment service, and its client with
the client's lock. -/
structure View (ι : Type) where
  paymentLock : Option ι
  clientLock : Option ι
  client : Client ι

variable {ι κ : Type}

namespace Job

variable (job : Job κ) [DecidableEq ι]

/-- **The next step of thread `i` in a recharge**, `none` while it is blocked. A parked thread would
be woken by a `notify()` only (a spurious wake-up leads back to the test and parks again). -/
def rechargeStep (i : ι) (v : View ι) (f : Frame) (sem : LockedSemaphore ι) :
    Recharge → Option (View ι × LockPhase ι)
  | .lockPayment => (Mutex.lock v.paymentLock i).map fun l =>
      ({ v with paymentLock := l }, .recharging f .lockClient sem)
  | .lockClient => (Mutex.lock v.clientLock i).map fun l =>
      ({ v with clientLock := l }, .recharging f .respond sem)
  | .respond => some ({ v with
      client := v.client.pushCreditRechargeResponse i
        (PaymentService.answer v.client.subscriptionType Client.rechargeAmount) },
      .recharging f .unlockClient sem)
  | .unlockClient => (Mutex.unlock v.clientLock i).map fun l =>
      ({ v with clientLock := l }, .recharging f .lockNotify sem)
  | .lockNotify => (Mutex.lock sem.mutex i).map fun l =>
      (v, .recharging f .notify { sem with mutex := l })
  | .notify => some (v, .recharging f .unlockNotify
      { sem with semaphore := sem.semaphore.notify, notified := sem.notified + 1 })
  | .unlockNotify => (Mutex.unlock sem.mutex i).map fun l =>
      (v, .recharging f .unlockPayment { sem with mutex := l })
  | .unlockPayment => (Mutex.unlock v.paymentLock i).map fun l =>
      ({ v with paymentLock := l }, .recharging f .returned sem)
  | .returned => some (v, if v.client.subscriptionType = .standard then .finished
      else .recharging f .lockWait sem)
  | .lockWait => (Mutex.lock sem.mutex i).map fun l =>
      (v, .recharging f .testCount { sem with mutex := l })
  | .testCount => some (v, match sem.semaphore.wait with
      | none => .recharging f .parked { sem with mutex := none }
      | some s => .recharging f .unlockWait { sem with semaphore := s })
  | .parked => none
  | .unlockWait => (Mutex.unlock sem.mutex i).map fun _ => (v, .ofPhase (job.search f))

/-- The next step of thread `i` in a delivery. -/
def deliveryStep (i : ι) (v : View ι) (f : Frame) (isFinal : Bool) :
    Delivery → Option (View ι × LockPhase ι)
  | .lockClient => (Mutex.lock v.clientLock i).map fun l =>
      ({ v with clientLock := l }, .delivering f isFinal .print)
  | .print => some ({ v with
      client := v.client.pushSearchResultFound i job.request (job.result f isFinal) },
      .delivering f isFinal .unlockClient)
  | .unlockClient => (Mutex.unlock v.clientLock i).map fun l =>
      ({ v with clientLock := l }, .ofPhase f.loopHead)

/-- **The next step of thread `i`**, `none` while it is blocked. -/
def lockStep (i : ι) (v : View ι) : LockPhase ι → Option (View ι × LockPhase ι)
  | .checking f =>
    some (v, if !v.client.hasCredit then .requesting f else .ofPhase (job.search f))
  | .requesting f => some ({ v with client := v.client.receive i .notEnoughCredit },
      .recharging f .lockPayment ⟨⟨0⟩, none, 0⟩)
  | .recharging f at' sem => job.rechargeStep i v f sem at'
  | .consuming f isFinal =>
    some ({ v with client := v.client.consumeCredit }, .delivering f isFinal .lockClient)
  | .delivering f isFinal at' => job.deliveryStep i v f isFinal at'
  | .finished => none

end Job

/-- A thread with its locks. -/
structure LockThread (ι κ : Type) where
  job : Job κ
  phase : LockPhase ι
deriving DecidableEq

/-- **Threads over clients, with locks.** A lock is the thread that holds it. -/
structure LockSystem (ι κ : Type) where
  clients : κ → Client ι
  clientLocks : κ → Option ι
  paymentLock : Option ι
  threads : ι → Option (LockThread ι κ)

namespace LockSystem

/-- All threads of `jobs` at their first control point, and no lock taken. -/
def init (clients : κ → Client ι) (jobs : ι → Option (Job κ)) : LockSystem ι κ where
  clients k := (clients k).fresh
  clientLocks _ := none
  paymentLock := none
  threads i := (jobs i).map fun job => ⟨job, .ofPhase job.start⟩

/-- What the threads that serve client `k` see. -/
def view (s : LockSystem ι κ) (k : κ) : View ι := ⟨s.paymentLock, s.clientLocks k, s.clients k⟩

variable [DecidableEq ι] [DecidableEq κ]

/-- **Thread `i` takes its next step.** -/
def step (s : LockSystem ι κ) (i : ι) : Option (LockSystem ι κ) :=
  (s.threads i).bind fun t =>
    (t.job.lockStep i (s.view t.job.client) t.phase).map fun r =>
      { clients := Function.update s.clients t.job.client r.1.client
        clientLocks := Function.update s.clientLocks t.job.client r.1.clientLock
        paymentLock := r.1.paymentLock
        threads := Function.update s.threads i (some { t with phase := r.2 }) }

end LockSystem

end MTFind2
