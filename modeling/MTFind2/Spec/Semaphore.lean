import MTFind2.Lib.Mutex
import MTFind2.Spec.Client
import Mathlib.Data.Fintype.Basic
import Mathlib.Logic.Function.Basic

/-!
# `Shared/Semaphore.h` under threads

A semaphore with its condition variable, and any number of threads that call
`notify()` and `wait()`. Each critical section of `m_mutex` is one step
(`SemaphoreSystem.step`), and the condition variable can unblock a thread at any time.
A thread that leaves `m_condition_variable.wait(lock)` is `woken` until it has the
mutex again; in between, other calls of `wait()` can overtake it.

`LockedSemaphoreSystem` takes the critical sections apart: the mutex, `m_count++`,
`notify_one()`, the test of the loop and `m_count--` are steps of their own.
-/

namespace MTFind2

/-- Where a thread stands with a semaphore. -/
inductive WaitPhase
  /-- In no call, or before the lock of one. -/
  | outside
  /-- Blocked on the condition variable. -/
  | parked
  /-- Unblocked, and not yet holding the mutex again. -/
  | woken
deriving DecidableEq

/-- A `Semaphore` and the threads that use it. -/
structure SemaphoreSystem (ι : Type) where
  semaphore : Semaphore
  phase : ι → WaitPhase
  /-- The number of calls of `notify()` completed. -/
  notified : ℕ
  /-- The number of calls of `wait()` completed. -/
  waited : ℕ

/-- The steps of the threads. -/
inductive SemaphoreEvent (ι : Type)
  /-- Thread `i` calls `notify()`, and `notify_one()` unblocks the given thread. -/
  | notify (i : ι) (unblocked : Option ι)
  /-- Thread `i` calls `wait()`. -/
  | wait (i : ι)
  /-- The condition variable unblocks thread `i` without being notified. -/
  | spurious (i : ι)
  /-- Thread `i` locks the mutex again inside `m_condition_variable.wait(lock)`. -/
  | reacquire (i : ι)
deriving DecidableEq

namespace SemaphoreSystem

variable {ι : Type}

/-- No thread has called the semaphore yet. -/
def init (ι : Type) (count : UInt32) : SemaphoreSystem ι where
  semaphore := ⟨count⟩
  phase _ := .outside
  notified := 0
  waited := 0

variable [DecidableEq ι]

/-- The loop of `wait()`, from its test on: thread `i` takes one of the count and returns, or
blocks and gives the mutex back. -/
def test (s : SemaphoreSystem ι) (i : ι) : SemaphoreSystem ι :=
  match s.semaphore.wait with
  | some semaphore => { s with
      semaphore
      phase := Function.update s.phase i .outside
      waited := s.waited + 1 }
  | none => { s with phase := Function.update s.phase i .parked }

/-- `notify_one()` unblocks thread `j`. -/
def unblock (s : SemaphoreSystem ι) : Option ι → SemaphoreSystem ι
  | some j => { s with phase := Function.update s.phase j .woken }
  | none => s

/-- Who `notify_one()` may unblock: one of the blocked threads, or nobody if there is none. -/
def MayUnblock (s : SemaphoreSystem ι) : Option ι → Prop
  | some j => s.phase j = .parked
  | none => ∀ j, s.phase j ≠ .parked

instance [Fintype ι] (s : SemaphoreSystem ι) (j : Option ι) : Decidable (s.MayUnblock j) :=
  match j with
  | some j => inferInstanceAs (Decidable (s.phase j = .parked))
  | none => inferInstanceAs (Decidable (∀ j, s.phase j ≠ .parked))

/-- **One step**, `none` where it is not possible. -/
def step [Fintype ι] (s : SemaphoreSystem ι) : SemaphoreEvent ι → Option (SemaphoreSystem ι)
  | .notify i unblocked =>
    if s.phase i = .outside ∧ s.MayUnblock unblocked then
      some { s.unblock unblocked with
        semaphore := s.semaphore.notify
        notified := s.notified + 1 }
    else none
  | .wait i => if s.phase i = .outside then some (s.test i) else none
  | .spurious i => if s.phase i = .parked then some (s.unblock (some i)) else none
  | .reacquire i => if s.phase i = .woken then some (s.test i) else none

end SemaphoreSystem

/-! ## With the mutex -/

/-- Where a thread stands in `notify()` or `wait()`. -/
inductive SemaphorePhase
  /-- In no call, or before the lock of one. -/
  | outside
  /-- `m_count++` in `notify()`. -/
  | counting
  /-- `m_condition_variable.notify_one()`. -/
  | notifying
  /-- The end of `notify()`. -/
  | notified
  /-- `m_count == 0` in `wait()`. -/
  | testing
  /-- Blocked on the condition variable. -/
  | parked
  /-- Unblocked, and not yet holding the mutex again. -/
  | woken
  /-- `m_count--` in `wait()`. -/
  | passing
  /-- The end of `wait()`. -/
  | passed
deriving DecidableEq

/-- A `Semaphore` with its mutex, and the threads that use it. -/
structure LockedSemaphoreSystem (ι : Type) where
  semaphore : Semaphore
  /-- The thread that holds `m_mutex`. -/
  mutex : Option ι
  phase : ι → SemaphorePhase
  /-- The number of calls of `notify()` completed. -/
  notified : ℕ
  /-- The number of calls of `wait()` completed. -/
  waited : ℕ

/-- The steps of the threads. -/
inductive LockedSemaphoreEvent (ι : Type)
  /-- Thread `i` calls `notify()` and locks the mutex. -/
  | notify (i : ι)
  /-- Thread `i` calls `wait()` and locks the mutex. -/
  | wait (i : ι)
  /-- Thread `i` takes its next step inside a call, other than `notify_one()`. -/
  | run (i : ι)
  /-- Thread `i` calls `notify_one()`, which unblocks the given thread. -/
  | notifyOne (i : ι) (unblocked : Option ι)
  /-- The condition variable unblocks thread `i` without being notified. -/
  | spurious (i : ι)
deriving DecidableEq

namespace LockedSemaphoreSystem

variable {ι : Type}

/-- No thread has called the semaphore yet. -/
def init (ι : Type) (count : UInt32) : LockedSemaphoreSystem ι where
  semaphore := ⟨count⟩
  mutex := none
  phase _ := .outside
  notified := 0
  waited := 0

variable [DecidableEq ι]

/-- Thread `i` goes to the phase `x`. -/
def goto (s : LockedSemaphoreSystem ι) (i : ι) (x : SemaphorePhase) : LockedSemaphoreSystem ι :=
  { s with phase := Function.update s.phase i x }

/-- Thread `i` locks the mutex and goes to the phase `x`. -/
def lockTo (s : LockedSemaphoreSystem ι) (i : ι) (x : SemaphorePhase) :
    Option (LockedSemaphoreSystem ι) :=
  (Mutex.lock s.mutex i).map fun m => { s.goto i x with mutex := m }

/-- Thread `i` unlocks the mutex and goes to the phase `x`. -/
def unlockTo (s : LockedSemaphoreSystem ι) (i : ι) (x : SemaphorePhase) :
    Option (LockedSemaphoreSystem ι) :=
  (Mutex.unlock s.mutex i).map fun m => { s.goto i x with mutex := m }

/-- `notify_one()` unblocks thread `j`. -/
def unblock (s : LockedSemaphoreSystem ι) : Option ι → LockedSemaphoreSystem ι
  | some j => s.goto j .woken
  | none => s

/-- Who `notify_one()` may unblock: one of the blocked threads, or nobody if there is none. -/
def MayUnblock (s : LockedSemaphoreSystem ι) : Option ι → Prop
  | some j => s.phase j = .parked
  | none => ∀ j, s.phase j ≠ .parked

instance [Fintype ι] (s : LockedSemaphoreSystem ι) (j : Option ι) : Decidable (s.MayUnblock j) :=
  match j with
  | some j => inferInstanceAs (Decidable (s.phase j = .parked))
  | none => inferInstanceAs (Decidable (∀ j, s.phase j ≠ .parked))

/-- The next step of thread `i` inside a call, other than `notify_one()`. -/
def run (s : LockedSemaphoreSystem ι) (i : ι) : Option (LockedSemaphoreSystem ι) :=
  match s.phase i with
  | .counting => some { s.goto i .notifying with semaphore := s.semaphore.notify }
  | .notified => { s with notified := s.notified + 1 }.unlockTo i .outside
  | .testing => if s.semaphore.count = 0 then s.unlockTo i .parked else some (s.goto i .passing)
  | .woken => s.lockTo i .testing
  | .passing => some { s.goto i .passed with semaphore := ⟨s.semaphore.count - 1⟩ }
  | .passed => { s with waited := s.waited + 1 }.unlockTo i .outside
  | .outside | .notifying | .parked => none

/-- **One step**, `none` where it is not possible. -/
def step [Fintype ι] (s : LockedSemaphoreSystem ι) :
    LockedSemaphoreEvent ι → Option (LockedSemaphoreSystem ι)
  | .notify i => if s.phase i = .outside then s.lockTo i .counting else none
  | .wait i => if s.phase i = .outside then s.lockTo i .testing else none
  | .run i => s.run i
  | .notifyOne i unblocked =>
    if s.phase i = .notifying ∧ s.MayUnblock unblocked then
      some ((s.unblock unblocked).goto i .notified)
    else none
  | .spurious i => if s.phase i = .parked then some (s.goto i .woken) else none

end LockedSemaphoreSystem

end MTFind2
