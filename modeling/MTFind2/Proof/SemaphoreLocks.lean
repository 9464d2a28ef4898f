import MTFind2.Proof.Semaphore
import Mathlib.Data.Fintype.Option

/-!
# The critical sections of a semaphore are atomic

A system that takes the critical sections of `notify()` and `wait()` apart does
nothing that the system with one step for each does not. `notify()` takes effect
where `notify_one()` is called, and `wait()`, and the loop of it after a wake-up,
where the mutex is locked: nobody else can change the count before it is tested.

* `atomic`: what the semaphore looks like once the thread inside a critical section
  is through with it.
* `atomic_step`: what one step is at the level of critical sections.
* `atomic_run`: every run is a run of critical sections.
* `locked_awake`: while nobody holds the mutex and some thread is parked, the count is
  at most the number of woken threads.
-/

namespace MTFind2

open Run Mutex Count

namespace SemaphorePhase

/-- Inside a critical section. -/
def critical : SemaphorePhase → Bool
  | .counting | .notifying | .notified | .testing | .passing | .passed => true
  | .outside | .parked | .woken => false

/-- The count `n`, without the `m_count++` of an unfinished `notify()` and with the `m_count--` to
come of a `wait()` that passes. -/
def count (n : UInt32) : SemaphorePhase → UInt32
  | .notifying | .passing => n - 1
  | .testing => if n = 0 then n else n - 1
  | _ => n

/-- The calls of `notify()` that have taken effect and have not returned. -/
def notifies : SemaphorePhase → ℕ
  | .notified => 1
  | _ => 0

/-- The calls of `wait()` that have taken effect and have not returned. -/
def waits (n : UInt32) : SemaphorePhase → ℕ
  | .testing => if n = 0 then 0 else 1
  | .passing | .passed => 1
  | _ => 0

/-- Whether the thread is parked or woken. At the test it is where the test leads. -/
def toWaitPhase (n : UInt32) : SemaphorePhase → WaitPhase
  | .testing => if n = 0 then .parked else .outside
  | .parked => .parked
  | .woken => .woken
  | _ => .outside

/-- Only at the test does it depend on the count. -/
theorem toWaitPhase_congr {x : SemaphorePhase} (h : x ≠ .testing) (n n' : UInt32) :
    x.toWaitPhase n = x.toWaitPhase n' := by
  cases x with
  | testing => exact absurd rfl h
  | _ => rfl

theorem toWaitPhase_parked {x : SemaphorePhase} (h : x ≠ .testing) (n : UInt32) :
    x.toWaitPhase n = .parked ↔ x = .parked := by
  cases x with
  | testing => exact absurd rfl h
  | _ => simp [toWaitPhase]

theorem toWaitPhase_woken (x : SemaphorePhase) (n : UInt32) :
    x.toWaitPhase n = .woken ↔ x = .woken := by
  cases x with
  | testing =>
    show (if n = 0 then WaitPhase.parked else WaitPhase.outside) = _ ↔ _
    split <;> simp
  | _ => simp [toWaitPhase]

end SemaphorePhase

namespace LockedSemaphoreSystem

variable {ι : Type} [DecidableEq ι] {s s' : LockedSemaphoreSystem ι}
  {e : LockedSemaphoreEvent ι} {count : UInt32}

/-- The steps of the threads, one constructor for each. -/
inductive Step (s : LockedSemaphoreSystem ι) :
    LockedSemaphoreEvent ι → LockedSemaphoreSystem ι → Prop
  | notify (i : ι) (hi : s.phase i = .outside) (hm : s.mutex = none) :
      Step s (.notify i) { s.goto i .counting with mutex := some i }
  | wait (i : ι) (hi : s.phase i = .outside) (hm : s.mutex = none) :
      Step s (.wait i) { s.goto i .testing with mutex := some i }
  | increment (i : ι) (hi : s.phase i = .counting) :
      Step s (.run i) { s.goto i .notifying with semaphore := s.semaphore.notify }
  | notifyOne (i : ι) (unblocked : Option ι) (hi : s.phase i = .notifying)
      (hu : s.MayUnblock unblocked) :
      Step s (.notifyOne i unblocked) ((s.unblock unblocked).goto i .notified)
  | unlockNotify (i : ι) (hi : s.phase i = .notified) (hm : s.mutex = some i) :
      Step s (.run i) { s.goto i .outside with mutex := none, notified := s.notified + 1 }
  | park (i : ι) (hi : s.phase i = .testing) (h0 : s.semaphore.count = 0) (hm : s.mutex = some i) :
      Step s (.run i) { s.goto i .parked with mutex := none }
  | pass (i : ι) (hi : s.phase i = .testing) (h0 : s.semaphore.count ≠ 0) :
      Step s (.run i) (s.goto i .passing)
  | spurious (i : ι) (hi : s.phase i = .parked) : Step s (.spurious i) (s.goto i .woken)
  | relock (i : ι) (hi : s.phase i = .woken) (hm : s.mutex = none) :
      Step s (.run i) { s.goto i .testing with mutex := some i }
  | decrement (i : ι) (hi : s.phase i = .passing) :
      Step s (.run i) { s.goto i .passed with semaphore := ⟨s.semaphore.count - 1⟩ }
  | unlockWait (i : ι) (hi : s.phase i = .passed) (hm : s.mutex = some i) :
      Step s (.run i) { s.goto i .outside with mutex := none, waited := s.waited + 1 }

theorem lockTo_eq_some {i : ι} {x : SemaphorePhase} : s.lockTo i x = some s' ↔
    s.mutex = none ∧ s' = { s.goto i x with mutex := some i } := by
  simp only [lockTo, Option.map_eq_some_iff, lock_eq_some]
  constructor
  · rintro ⟨m, ⟨hm, rfl⟩, rfl⟩
    exact ⟨hm, rfl⟩
  · rintro ⟨hm, rfl⟩
    exact ⟨_, ⟨hm, rfl⟩, rfl⟩

theorem unlockTo_eq_some {i : ι} {x : SemaphorePhase} : s.unlockTo i x = some s' ↔
    s.mutex = some i ∧ s' = { s.goto i x with mutex := none } := by
  simp only [unlockTo, Option.map_eq_some_iff, unlock_eq_some]
  constructor
  · rintro ⟨m, ⟨hm, rfl⟩, rfl⟩
    exact ⟨hm, rfl⟩
  · rintro ⟨hm, rfl⟩
    exact ⟨_, ⟨hm, rfl⟩, rfl⟩

/-- **What a step does.** -/
theorem step_cases [Fintype ι] (h : s.step e = some s') : Step s e s' := by
  cases e with
  | notify i =>
    simp only [step, Option.ite_none_right_eq_some, lockTo_eq_some] at h
    obtain ⟨hi, hm, rfl⟩ := h
    exact .notify i hi hm
  | wait i =>
    simp only [step, Option.ite_none_right_eq_some, lockTo_eq_some] at h
    obtain ⟨hi, hm, rfl⟩ := h
    exact .wait i hi hm
  | run i =>
    simp only [step, run] at h
    cases hi : s.phase i <;> simp only [hi] at h
    case counting => cases h; exact .increment i hi
    case notified => obtain ⟨hm, rfl⟩ := unlockTo_eq_some.1 h; exact .unlockNotify i hi hm
    case testing =>
      split at h
      · rename_i h0
        obtain ⟨hm, rfl⟩ := unlockTo_eq_some.1 h
        exact .park i hi h0 hm
      · rename_i h0
        cases h
        exact .pass i hi h0
    case woken => obtain ⟨hm, rfl⟩ := lockTo_eq_some.1 h; exact .relock i hi hm
    case passing => cases h; exact .decrement i hi
    case passed => obtain ⟨hm, rfl⟩ := unlockTo_eq_some.1 h; exact .unlockWait i hi hm
    case outside | notifying | parked => cases h
  | notifyOne i unblocked =>
    simp only [step, Option.ite_none_right_eq_some, Option.some.injEq] at h
    obtain ⟨⟨hi, hu⟩, rfl⟩ := h
    exact .notifyOne i unblocked hi hu
  | spurious i =>
    simp only [step, Option.ite_none_right_eq_some, Option.some.injEq] at h
    obtain ⟨hi, rfl⟩ := h
    exact .spurious i hi

/-! ## The mutex -/

/-- The mutex is held by the thread inside a critical section. -/
def Exclusive (s : LockedSemaphoreSystem ι) : Prop :=
  ∀ j, s.mutex = some j ↔ (s.phase j).critical = true

/-- It stays so when a thread moves and takes the mutex, gives it back or keeps what it has. -/
theorem exclusive_goto {i : ι} {x : SemaphorePhase} (hE : s.Exclusive)
    (hphase : s'.phase = Function.update s.phase i x)
    (hm : Moves i (s.phase i).critical s.mutex x.critical s'.mutex) : s'.Exclusive := by
  intro j
  have hown := owned_moves (H := fun j => (s.phase j).critical) hE hm j
  rw [hown, hphase, Function.apply_update fun _ => SemaphorePhase.critical]

/-- The thread that calls `notify_one()` does not unblock itself. -/
theorem unblock_phase {i : ι} {unblocked : Option ι} (hi : s.phase i = .notifying)
    (hu : s.MayUnblock unblocked) : (s.unblock unblocked).phase i = .notifying := by
  cases unblocked with
  | none => exact hi
  | some j =>
    have hj : s.phase j = .parked := hu
    have hij : i ≠ j := by
      rintro rfl
      rw [hi] at hj
      cases hj
    exact (Function.update_of_ne hij _ _).trans hi

/-- **Every step keeps it.** -/
theorem exclusive_step (hE : s.Exclusive) (h : Step s e s') : s'.Exclusive := by
  cases h with
  | notify i hi hm | wait i hi hm | relock i hi hm =>
    refine exclusive_goto hE rfl ?_
    rw [hi, hm]
    exact .lock
  | unlockNotify i hi hm | park i hi _ hm | unlockWait i hi hm =>
    refine exclusive_goto hE rfl ?_
    rw [hi, hm]
    exact .unlock
  | increment i hi | pass i hi _ | spurious i hi | decrement i hi =>
    refine exclusive_goto hE rfl ?_
    rw [hi]
    exact .keep _ _
  | notifyOne i unblocked hi hu =>
    -- the thread that is unblocked is outside before and after
    have hunblock : (s.unblock unblocked).Exclusive := by
      cases unblocked with
      | none => exact hE
      | some j =>
        have hj : s.phase j = .parked := hu
        refine exclusive_goto (i := j) (x := .woken) hE rfl ?_
        rw [hj]
        exact .keep _ _
    refine exclusive_goto hunblock rfl ?_
    rw [unblock_phase hi hu]
    exact .keep _ _

omit [DecidableEq ι] in
/-- Nobody else is at the test. -/
theorem not_testing {i j : ι} (hE : s.Exclusive) (hi : (s.phase i).critical = true) (hj : j ≠ i) :
    s.phase j ≠ .testing := by
  intro ht
  have hmi := (hE i).2 hi
  have hmj := (hE j).2 (by rw [ht]; rfl)
  exact hj (Option.some.inj (hmj.symm.trans hmi))

/-! ## The effect of a critical section -/

/-- Where the thread that holds the mutex stands. -/
def holder (s : LockedSemaphoreSystem ι) : SemaphorePhase := (s.mutex.map s.phase).getD .outside

/-- **The semaphore at the level of critical sections**, with those that have begun taking effect at
`notify_one()` and at the lock of the mutex for the test. -/
def atomic (s : LockedSemaphoreSystem ι) : SemaphoreSystem ι where
  semaphore := ⟨s.holder.count s.semaphore.count⟩
  phase j := (s.phase j).toWaitPhase s.semaphore.count
  notified := s.notified + s.holder.notifies
  waited := s.waited + s.holder.waits s.semaphore.count

omit [DecidableEq ι] in
theorem holder_of_free (hm : s.mutex = none) : s.holder = .outside := by
  rw [holder, hm]
  rfl

omit [DecidableEq ι] in
/-- While nobody holds the mutex the count is what it is. -/
theorem atomic_semaphore (hm : s.mutex = none) : s.atomic.semaphore = s.semaphore := by
  unfold atomic
  rw [holder_of_free hm]
  rfl

theorem holder_goto {i : ι} {x : SemaphorePhase} (hm : s'.mutex = some i)
    (hphase : s'.phase = Function.update s.phase i x) : s'.holder = x := by
  rw [holder, hm, hphase]
  exact Function.update_self _ _ _

/-- A thread outside moves, and the one inside stays. -/
theorem holder_frame {i : ι} {x : SemaphorePhase} (hE : s.Exclusive)
    (hi : (s.phase i).critical = false) (hm : s'.mutex = s.mutex)
    (hphase : s'.phase = Function.update s.phase i x) : s'.holder = s.holder := by
  rw [holder, holder, hm]
  cases h : s.mutex with
  | none => rfl
  | some j =>
    have hj : (s.phase j).critical = true := (hE j).1 h
    have hji : j ≠ i := by
      rintro rfl
      rw [hi] at hj
      cases hj
    show s'.phase j = s.phase j
    rw [hphase, Function.update_of_ne hji]

omit [DecidableEq ι] in
theorem holder_of_critical {i : ι} (hE : s.Exclusive) (hi : (s.phase i).critical = true) :
    s.holder = s.phase i := by
  rw [holder, (hE i).2 hi]
  rfl

/-- The phases of the others change only if the count does and one of them is at the test. -/
theorem atomic_phase {i : ι} {x : SemaphorePhase} (hphase : s'.phase = Function.update s.phase i x)
    (hcount : s'.semaphore.count = s.semaphore.count ∨ ∀ j, j ≠ i → s.phase j ≠ .testing) :
    s'.atomic.phase =
      Function.update s.atomic.phase i (x.toWaitPhase s'.semaphore.count) := by
  funext j
  show (s'.phase j).toWaitPhase _ = _
  rw [hphase]
  by_cases hj : j = i
  · subst hj
    rw [Function.update_self, Function.update_self]
  · rw [Function.update_of_ne hj, Function.update_of_ne hj]
    rcases hcount with hcount | hother
    · rw [hcount]
      rfl
    · exact SemaphorePhase.toWaitPhase_congr (hother j hj) _ _

theorem atomic_goto (s : LockedSemaphoreSystem ι) (i : ι) (x : SemaphorePhase) :
    (s.goto i x).atomic.phase =
      Function.update s.atomic.phase i (x.toWaitPhase s.semaphore.count) :=
  atomic_phase rfl (.inl rfl)

omit [DecidableEq ι] in
/-- A state of the abstract system, from its parts. -/
theorem eq_atomic {a : SemaphoreSystem ι} (hcount : a.semaphore.count = s.atomic.semaphore.count)
    (hphase : a.phase = s.atomic.phase) (hnotified : a.notified = s.atomic.notified)
    (hwaited : a.waited = s.atomic.waited) : a = s.atomic := by
  obtain ⟨⟨n⟩, phase, notified, waited⟩ := a
  cases hcount
  cases hphase
  cases hnotified
  cases hwaited
  rfl

/-- **A step without effect**: it changes where a thread stands, and what is left to do of its
critical section makes up for what it did. -/
theorem atomic_silent {i : ι} {x y z : SemaphorePhase}
    (hphase : s'.phase = Function.update s.phase i x)
    (hother : s'.semaphore.count = s.semaphore.count ∨ ∀ j, j ≠ i → s.phase j ≠ .testing)
    (hold : s.holder = y) (hnew : s'.holder = z)
    (hx : x.toWaitPhase s'.semaphore.count = (s.phase i).toWaitPhase s.semaphore.count)
    (hcount : z.count s'.semaphore.count = y.count s.semaphore.count)
    (hnotified : s'.notified + z.notifies = s.notified + y.notifies)
    (hwaited : s'.waited + z.waits s'.semaphore.count = s.waited + y.waits s.semaphore.count) :
    s'.atomic = s.atomic := by
  subst hold hnew
  refine eq_atomic hcount ?_ hnotified hwaited
  rw [atomic_phase hphase hother, hx]
  exact Function.update_eq_self _ _

/-- The same for a step inside a critical section, where nobody else is at the test. -/
theorem atomic_inside {i : ι} {x y z : SemaphorePhase} (hE : s.Exclusive) (hi : s.phase i = y)
    (hy : y.critical = true) (hphase : s'.phase = Function.update s.phase i x)
    (hnew : s'.holder = z)
    (hx : x.toWaitPhase s'.semaphore.count = y.toWaitPhase s.semaphore.count)
    (hcount : z.count s'.semaphore.count = y.count s.semaphore.count)
    (hnotified : s'.notified + z.notifies = s.notified + y.notifies)
    (hwaited : s'.waited + z.waits s'.semaphore.count = s.waited + y.waits s.semaphore.count) :
    s'.atomic = s.atomic := by
  subst hi
  have hother : ∀ j, j ≠ i → s.phase j ≠ .testing := fun j hj => not_testing hE hy hj
  exact atomic_silent hphase (.inr hother) (holder_of_critical hE hy) hnew hx hcount hnotified
    hwaited

/-- **Locking the mutex for the test is the test.** -/
theorem atomic_test {i : ι} (hm : s.mutex = none)
    (hs' : s' = { s.goto i .testing with mutex := some i }) : s.atomic.test i = s'.atomic := by
  have hold := holder_of_free hm
  have hnew : s'.holder = .testing := holder_goto (s := s) (by rw [hs']) (by rw [hs']; rfl)
  have hcount : s'.semaphore.count = s.semaphore.count := by rw [hs']; rfl
  have hnotified : s'.notified = s.notified := by rw [hs']; rfl
  have hwaited : s'.waited = s.waited := by rw [hs']; rfl
  have hphase := atomic_phase (s := s) (i := i) (by rw [hs']; rfl) (.inl hcount)
  rw [hcount] at hphase
  unfold SemaphoreSystem.test
  rw [atomic_semaphore hm]
  by_cases h0 : s.semaphore.count = 0
  · rw [Semaphore.wait, if_pos h0]
    rw [SemaphorePhase.toWaitPhase, if_pos h0] at hphase
    refine eq_atomic ?_ hphase.symm ?_ ?_
    · simp [atomic, hnew, hcount, h0, SemaphorePhase.count]
    · simp [atomic, hold, hnew, hnotified, SemaphorePhase.notifies]
    · simp [atomic, hold, hnew, hcount, hwaited, h0, SemaphorePhase.waits]
  · rw [Semaphore.wait, if_neg h0]
    rw [SemaphorePhase.toWaitPhase, if_neg h0] at hphase
    refine eq_atomic ?_ hphase.symm ?_ ?_
    · simp [atomic, hnew, hcount, h0, SemaphorePhase.count]
    · simp [atomic, hold, hnew, hnotified, SemaphorePhase.notifies]
    · simp [atomic, hold, hnew, hcount, hwaited, h0, SemaphorePhase.waits]

variable [Fintype ι]

/-- `notify_one()` is where `notify()` takes effect. -/
theorem atomic_notify {i : ι} {unblocked : Option ι} (hE : s.Exclusive)
    (hi : s.phase i = .notifying) (hu : s.MayUnblock unblocked) :
    s.atomic.step (.notify i unblocked) =
      some ((s.unblock unblocked).goto i .notified).atomic := by
  have hcritical : (s.phase i).critical = true := by rw [hi]; rfl
  have hold : s.holder = .notifying := (holder_of_critical hE hcritical).trans hi
  have hmutex : (s.unblock unblocked).mutex = some i := by
    cases unblocked <;> exact (hE i).2 hcritical
  have hnew : ((s.unblock unblocked).goto i .notified).holder = .notified := holder_goto hmutex rfl
  have houtside : s.atomic.phase i = .outside := congrArg (SemaphorePhase.toWaitPhase _) hi
  have hmay : s.atomic.MayUnblock unblocked := by
    cases unblocked with
    | none =>
      intro j hj
      by_cases hji : j = i
      · subst hji
        rw [houtside] at hj
        cases hj
      · exact hu j ((SemaphorePhase.toWaitPhase_parked (not_testing hE hcritical hji) _).1 hj)
    | some j => exact congrArg (SemaphorePhase.toWaitPhase _) hu
  -- the phases change as those of the threads do
  have hphase : ((s.unblock unblocked).goto i .notified).atomic.phase =
      (s.atomic.unblock unblocked).phase := by
    have hsame : (s.unblock unblocked).atomic.phase i = .outside :=
      congrArg (SemaphorePhase.toWaitPhase _) (unblock_phase hi hu)
    rw [atomic_goto]
    refine (Function.update_eq_iff.2 ⟨hsame.symm, fun _ _ => rfl⟩).trans ?_
    cases unblocked with
    | none => rfl
    | some j => exact atomic_goto s j .woken
  rw [SemaphoreSystem.step, if_pos ⟨houtside, hmay⟩]
  refine congrArg some (eq_atomic ?_ hphase.symm ?_ ?_)
  · show s.holder.count s.semaphore.count + 1 = SemaphorePhase.count _ _
    rw [hold, hnew]
    cases unblocked <;> exact UInt32.sub_add_cancel _ _
  · show s.notified + s.holder.notifies + 1 = _ + SemaphorePhase.notifies _
    rw [hold, hnew]
    cases unblocked <;> rfl
  · have hwaited : s.atomic.waited = s.waited := by
      show s.waited + s.holder.waits _ = _
      rw [hold]
      rfl
    show (s.atomic.unblock unblocked).waited = _ + SemaphorePhase.waits _ _
    rw [hnew]
    cases unblocked <;> exact hwaited

/-- **One step** is a step of the system of critical sections, or changes nothing there. -/
theorem atomic_step (hE : s.Exclusive) (h : Step s e s') :
    s'.atomic = s.atomic ∨ ∃ b, s.atomic.step b = some s'.atomic := by
  cases h with
  | notify i hi hm =>
    refine .inl (atomic_silent rfl (.inl rfl) (holder_of_free hm) (holder_goto rfl rfl) ?_ ?_ ?_ ?_)
    · rw [hi]
      rfl
    all_goals rfl
  | wait i hi hm =>
    refine .inr ⟨.wait i, ?_⟩
    have houtside : s.atomic.phase i = .outside := congrArg (SemaphorePhase.toWaitPhase _) hi
    rw [SemaphoreSystem.step, if_pos houtside, atomic_test hm rfl]
  | relock i hi hm =>
    refine .inr ⟨.reacquire i, ?_⟩
    have hwoken : s.atomic.phase i = .woken := congrArg (SemaphorePhase.toWaitPhase _) hi
    rw [SemaphoreSystem.step, if_pos hwoken, atomic_test hm rfl]
  | increment i hi =>
    have hm : s.mutex = some i := (hE i).2 (by rw [hi]; rfl)
    refine .inl (atomic_inside hE hi rfl rfl (holder_goto hm rfl) rfl ?_ rfl rfl)
    exact UInt32.add_sub_cancel _ _
  | notifyOne i unblocked hi hu => exact .inr ⟨.notify i unblocked, atomic_notify hE hi hu⟩
  | unlockNotify i hi hm =>
    exact .inl (atomic_inside hE hi rfl rfl (holder_of_free rfl) rfl rfl rfl rfl)
  | park i hi h0 hm =>
    refine .inl (atomic_inside hE hi rfl rfl (holder_of_free rfl) ?_ ?_ rfl ?_)
    · exact (if_pos h0).symm
    · exact (if_pos h0).symm
    · exact congrArg (s.waited + ·) (if_pos h0).symm
  | pass i hi h0 =>
    have hm : s.mutex = some i := (hE i).2 (by rw [hi]; rfl)
    refine .inl (atomic_inside hE hi rfl rfl (holder_goto hm rfl) ?_ ?_ rfl ?_)
    · exact (if_neg h0).symm
    · exact (if_neg h0).symm
    · exact congrArg (s.waited + ·) (if_neg h0).symm
  | spurious i hi =>
    refine .inr ⟨.spurious i, ?_⟩
    have hparked : s.atomic.phase i = .parked := congrArg (SemaphorePhase.toWaitPhase _) hi
    have hholder : (s.goto i .woken).holder = s.holder :=
      holder_frame hE (by rw [hi]; rfl) rfl rfl
    rw [SemaphoreSystem.step, if_pos hparked]
    refine congrArg some (eq_atomic ?_ (atomic_goto s i .woken).symm ?_ ?_)
    · show s.holder.count _ = (s.goto i .woken).holder.count _
      rw [hholder]
      rfl
    · show s.notified + s.holder.notifies = s.notified + (s.goto i .woken).holder.notifies
      rw [hholder]
    · show s.waited + s.holder.waits _ = s.waited + (s.goto i .woken).holder.waits _
      rw [hholder]
      rfl
  | decrement i hi =>
    have hm : s.mutex = some i := (hE i).2 (by rw [hi]; rfl)
    exact .inl (atomic_inside hE hi rfl rfl (holder_goto hm rfl) rfl rfl rfl rfl)
  | unlockWait i hi hm =>
    exact .inl (atomic_inside hE hi rfl rfl (holder_of_free rfl) rfl rfl rfl rfl)

/-! ## Every run -/

/-- What the two systems have in common along a run. -/
def Refines (s : LockedSemaphoreSystem ι) (a : SemaphoreSystem ι) : Prop :=
  s.Exclusive ∧ s.atomic = a

omit [DecidableEq ι] [Fintype ι] in
theorem refines_init (count : UInt32) : Refines (init ι count) (SemaphoreSystem.init ι count) := by
  refine ⟨?_, rfl⟩
  intro j
  exact iff_of_false (by simp [init]) (by simp [init, SemaphorePhase.critical])

theorem refines_step {a : SemaphoreSystem ι} (hR : s.Refines a) (h : s.step e = some s') :
    s'.Refines a ∨ ∃ b a', a.step b = some a' ∧ s'.Refines a' := by
  obtain ⟨hE, rfl⟩ := hR
  have hstep := step_cases h
  have hE' := exclusive_step hE hstep
  rcases atomic_step hE hstep with hsame | ⟨b, hb⟩
  · exact .inl ⟨hE', hsame⟩
  · exact .inr ⟨b, _, hb, hE', rfl⟩

/-- **Every run is a run of critical sections**, in the order in which they take effect. -/
theorem atomic_run {es : List (LockedSemaphoreEvent ι)}
    (h : exec step (init ι count) es = some s) :
    ∃ bs a, exec SemaphoreSystem.step (SemaphoreSystem.init ι count) bs = some a ∧ s.Refines a :=
  exec_refine refines_step (refines_init count) h

/-- The number of threads that have left the condition variable and have not got the mutex. -/
def wokenCount (s : LockedSemaphoreSystem ι) : ℕ := Count.count fun i => s.phase i = .woken

/-- **While nobody holds the mutex**, the count is at most the number of woken threads if some
thread is parked. -/
theorem locked_awake {es : List (LockedSemaphoreEvent ι)}
    (h : exec step (init ι count) es = some s) (hm : s.mutex = none)
    (hparked : ∃ i, s.phase i = .parked) : s.semaphore.count.toNat ≤ s.wokenCount := by
  obtain ⟨bs, _, hbs, hE, rfl⟩ := atomic_run h
  have hawake : s.atomic.Awake := SemaphoreSystem.awake_run hbs
  have hfree : ∀ j, s.phase j ≠ .testing := by
    intro j hj
    have hmj := (hE j).2 (by rw [hj]; rfl)
    rw [hm] at hmj
    cases hmj
  obtain ⟨i, hi⟩ := hparked
  have hle := hawake ⟨i, (SemaphorePhase.toWaitPhase_parked (hfree i) _).2 hi⟩
  have hwoken : s.atomic.wokenCount = s.wokenCount :=
    count_congr fun j => SemaphorePhase.toWaitPhase_woken _ _
  rwa [atomic_semaphore hm, hwoken] at hle

/-- Two threads park, and a third notifies one of them. -/
def lockedHandover : List (LockedSemaphoreEvent (Option Bool)) :=
  let first := some false
  let second := some true
  [.wait first, .run first, .wait second, .run second, .notify none, .run none,
    .notifyOne none first, .run none]

def lockedHandoverEnd : LockedSemaphoreSystem (Option Bool) :=
  (exec step (init (Option Bool) 0) lockedHandover).get (by decide +kernel)

theorem locked_awake_handover :
    lockedHandoverEnd.semaphore.count.toNat ≤ lockedHandoverEnd.wokenCount := by
  have hrun : exec step (init (Option Bool) 0) lockedHandover = some lockedHandoverEnd :=
    (Option.some_get _).symm
  exact locked_awake hrun (by decide +kernel) ⟨some true, by decide +kernel⟩

end LockedSemaphoreSystem

end MTFind2
