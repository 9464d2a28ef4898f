import MTFind2.Lib.Count
import MTFind2.Lib.Run
import MTFind2.Spec.Semaphore

/-!
# The semaphore loses no wake-up

The count is not zero while threads are parked as soon as one of them was unblocked
and has not run yet. What holds instead (`Awake`): while some thread is parked, the
count is at most the number of woken threads, since each of the four kinds of steps
either changes both alike or leaves no reason to wake anybody.

* `awake_step`, `counted_step`: the two invariants are kept by every step.
* `no_lost_wakeup`: what follows for every run.
-/

namespace MTFind2

open Run Count

/-! ## The operations on the count -/

namespace Semaphore

variable {s s' : Semaphore}

theorem toNat_notify (h : s.count.toNat + 1 < 2 ^ 32) :
    s.notify.count.toNat = s.count.toNat + 1 := by
  rw [notify, UInt32.toNat_add]
  exact Nat.mod_eq_of_lt (by simpa using h)

theorem wait_eq_none : s.wait = none ↔ s.count.toNat = 0 := by
  unfold wait
  split
  · rename_i h
    simp [h]
  · rename_i h
    have : s.count.toNat ≠ 0 := fun h0 => h (UInt32.toNat_inj.1 h0)
    simpa using this

theorem toNat_wait (h : s.wait = some s') : s.count.toNat = s'.count.toNat + 1 := by
  unfold wait at h
  split at h
  · cases h
  · rename_i hne
    cases h
    have hpos : s.count.toNat ≠ 0 := fun h0 => hne (UInt32.toNat_inj.1 h0)
    have hle : (1 : UInt32) ≤ s.count := by
      rw [UInt32.le_iff_toNat_le]
      simp
      omega
    rw [UInt32.toNat_sub_of_le _ _ hle]
    simp
    omega

end Semaphore

namespace SemaphoreSystem

variable {ι : Type} [DecidableEq ι] [Fintype ι] {s s' : SemaphoreSystem ι} {e : SemaphoreEvent ι}
  {count : UInt32}

/-- The steps of the threads. A thread at the loop of `wait()` passes, or parks. -/
inductive Step (s : SemaphoreSystem ι) : SemaphoreEvent ι → SemaphoreSystem ι → Prop
  | notify (i : ι) (unblocked : Option ι) (hi : s.phase i = .outside)
      (hu : s.MayUnblock unblocked) : Step s (.notify i unblocked)
        { s.unblock unblocked with semaphore := s.semaphore.notify, notified := s.notified + 1 }
  | wait (i : ι) (hi : s.phase i = .outside) : Step s (.wait i) (s.test i)
  | spurious (i : ι) (hi : s.phase i = .parked) : Step s (.spurious i) (s.unblock (some i))
  | reacquire (i : ι) (hi : s.phase i = .woken) : Step s (.reacquire i) (s.test i)

/-- **What a step does.** -/
theorem step_cases (h : s.step e = some s') : Step s e s' := by
  cases e with
  | notify i unblocked =>
    simp only [step, Option.ite_none_right_eq_some, Option.some.injEq] at h
    obtain ⟨⟨hi, hu⟩, rfl⟩ := h
    exact .notify i unblocked hi hu
  | wait i =>
    simp only [step, Option.ite_none_right_eq_some, Option.some.injEq] at h
    obtain ⟨hi, rfl⟩ := h
    exact .wait i hi
  | spurious i =>
    simp only [step, Option.ite_none_right_eq_some, Option.some.injEq] at h
    obtain ⟨hi, rfl⟩ := h
    exact .spurious i hi
  | reacquire i =>
    simp only [step, Option.ite_none_right_eq_some, Option.some.injEq] at h
    obtain ⟨hi, rfl⟩ := h
    exact .reacquire i hi

omit [Fintype ι] in
/-- **The test of the count**: it is zero and the thread parks, or it passes. -/
theorem test_cases (s : SemaphoreSystem ι) (i : ι) :
    s.semaphore.count.toNat = 0 ∧
        s.test i = { s with phase := Function.update s.phase i .parked } ∨
      ∃ semaphore : Semaphore, s.semaphore.count.toNat = semaphore.count.toNat + 1 ∧
        s.test i = { s with
          semaphore
          phase := Function.update s.phase i .outside
          waited := s.waited + 1 } := by
  unfold test
  cases h : s.semaphore.wait with
  | none => exact .inl ⟨Semaphore.wait_eq_none.1 h, rfl⟩
  | some semaphore => exact .inr ⟨semaphore, Semaphore.toNat_wait h, rfl⟩

/-! ## The number of woken threads -/

/-- The number of threads that have left the condition variable and have not got the mutex. -/
def wokenCount (s : SemaphoreSystem ι) : ℕ := Count.count fun i => s.phase i = .woken

/-- How it changes when thread `i` goes to the phase `x`. -/
theorem wokenCount_update (i : ι) (x : WaitPhase) (h : s'.phase = Function.update s.phase i x) :
    s'.wokenCount + (if s.phase i = .woken then 1 else 0) =
      s.wokenCount + if x = .woken then 1 else 0 := by
  have hmove := count_move (P := fun j => s.phase j = .woken) (Q := fun j => s'.phase j = .woken) i
    (by intro j hj; rw [h, Function.update_of_ne hj])
  have hi : s'.phase i = x := by rw [h, Function.update_self]
  simp only [hi] at hmove
  exact hmove

/-- **While some thread is parked, the count is at most the number of woken threads.** -/
def Awake (s : SemaphoreSystem ι) : Prop :=
  (∃ i, s.phase i = .parked) → s.semaphore.count.toNat ≤ s.wokenCount

theorem awake_test {i : ι} (h : s.Awake) : (s.test i).Awake := by
  rintro ⟨j, hj⟩
  rcases s.test_cases i with ⟨h0, heq⟩ | ⟨semaphore, hcount, heq⟩
  · -- the thread parks because the count is zero
    rw [heq]
    show s.semaphore.count.toNat ≤ _
    omega
  · -- one less is left, and at most one woken thread less
    have hphase : (s.test i).phase = Function.update s.phase i .outside := by rw [heq]
    have hw := wokenCount_update i .outside hphase
    rw [heq] at hj hw ⊢
    have hji : j ≠ i := by
      rintro rfl
      simp at hj
    have hold : s.phase j = .parked := by simpa [hji] using hj
    have hle := h ⟨j, hold⟩
    simp only [reduceCtorEq, if_false] at hw
    show semaphore.count.toNat ≤ _
    split at hw <;> omega

/-- **Every kind of step keeps it.** -/
theorem awake_step (hA : s.Awake) (h : s.step e = some s') : s'.Awake := by
  cases step_cases h with
  | notify i unblocked hi hu =>
    have hnotify : s.semaphore.notify.count.toNat ≤ s.semaphore.count.toNat + 1 := by
      rw [Semaphore.notify, UInt32.toNat_add]
      exact Nat.mod_le _ _
    rintro ⟨k, hk⟩
    show s.semaphore.notify.count.toNat ≤ _
    cases unblocked with
    | none => exact absurd hk (hu k)
    | some j =>
      -- one more in the count, and one more thread woken
      have hle := hA ⟨j, hu⟩
      have hphase : ({ s.unblock (some j) with
          semaphore := s.semaphore.notify
          notified := s.notified + 1 } : SemaphoreSystem ι).phase =
          Function.update s.phase j .woken := rfl
      have hw := wokenCount_update j .woken hphase
      rw [if_neg (by rw [hu]; decide), if_pos rfl] at hw
      omega
  | wait i hi => exact awake_test hA
  | spurious i hi =>
    intro _
    have hle := hA ⟨i, hi⟩
    have hphase : (s.unblock (some i)).phase = Function.update s.phase i .woken := rfl
    have hw := wokenCount_update i .woken hphase
    rw [if_neg (by rw [hi]; decide), if_pos rfl] at hw
    show s.semaphore.count.toNat ≤ _
    omega
  | reacquire i hi => exact awake_test hA

/-- **Every run keeps it.** -/
theorem awake_run {es : List (SemaphoreEvent ι)} (h : exec step (init ι count) es = some s) :
    s.Awake := by
  refine exec_inv (I := Awake) awake_step ?_ h
  rintro ⟨i, hi⟩
  cases hi

/-! ## The value of the count -/

/-- The count with the waits completed is the initial count with the notifies completed. -/
def Counted (count : UInt32) (s : SemaphoreSystem ι) : Prop :=
  s.semaphore.count.toNat + s.waited = count.toNat + s.notified

/-- The outstanding count fits the `unsigned int`. -/
def Fits (count : UInt32) (s : SemaphoreSystem ι) : Prop :=
  count.toNat + s.notified < 2 ^ 32 + s.waited

instance (count : UInt32) (s : SemaphoreSystem ι) : Decidable (s.Fits count) :=
  inferInstanceAs (Decidable (_ < _))

omit [Fintype ι] in
theorem counted_test {i : ι} (h : s.Counted count) : (s.test i).Counted count := by
  unfold Counted at h ⊢
  rcases s.test_cases i with ⟨-, heq⟩ | ⟨semaphore, hcount, heq⟩
  · rw [heq]
    exact h
  · rw [heq]
    show semaphore.count.toNat + (s.waited + 1) = count.toNat + s.notified
    omega

/-- **A step keeps the account** if the count after it fits. -/
theorem counted_step (hC : s.Counted count) (hfits : ∀ t, s.step e = some t → t.Fits count)
    (h : s.step e = some s') : s'.Counted count := by
  have hfit := hfits s' h
  cases step_cases h with
  | notify i unblocked hi hu =>
    have hwaited : (s.unblock unblocked).waited = s.waited := by cases unblocked <;> rfl
    unfold Counted Fits at *
    dsimp only at hfit ⊢
    rw [hwaited] at hfit ⊢
    rw [Semaphore.toNat_notify (by omega)]
    omega
  | wait i hi => exact counted_test hC
  | spurious i hi => exact hC
  | reacquire i hi => exact counted_test hC

/-- **The semaphore loses no wake-up and grants no extra pass**, from any initial count, for any
threads and in every state of every run whose outstanding count fits. -/
theorem no_lost_wakeup {es : List (SemaphoreEvent ι)} (h : exec step (init ι count) es = some s)
    (hfits : ∀ bs t, bs <+: es → exec step (init ι count) bs = some t → t.Fits count) :
    (s.semaphore.count.toNat : ℤ) = count.toNat + s.notified - s.waited ∧
      0 ≤ (count.toNat : ℤ) + s.notified - s.waited ∧
      ((∃ i, s.phase i = .parked) → s.semaphore.count.toNat ≤ s.wokenCount) ∧
      ¬ (0 < s.semaphore.count.toNat ∧ (∃ i, s.phase i = .parked) ∧
        ∀ i, s.phase i ≠ .woken) := by
  have hawake := awake_run h
  have hcounted : s.Counted count := by
    have h0 : (init ι count).Counted count := rfl
    refine Along.inv (I := Counted count) (P := fun s e => ∀ t, s.step e = some t → t.Fits count)
      counted_step h0 ?_ h
    refine along_of_at_step ?_
    intro bs e cs t hes ht u hu
    refine hfits (bs ++ [e]) u ⟨cs, by rw [hes]; simp⟩ ?_
    exact exec_append.2 ⟨t, ht, exec_singleton.2 hu⟩
  unfold Counted at hcounted
  refine ⟨by omega, by omega, hawake, ?_⟩
  rintro ⟨hpos, hparked, hnone⟩
  have hle := hawake hparked
  have h0 : s.wokenCount = 0 := count_eq_zero.2 hnone
  omega

/-- Two threads park, and the first is notified. The second wakes by itself and overtakes it, so
that the first parks again. -/
def handover : List (SemaphoreEvent (Fin 3)) :=
  [.wait 0, .wait 1, .notify 2 (some 0), .spurious 1, .reacquire 1, .reacquire 0]

def handoverEnd : SemaphoreSystem (Fin 3) :=
  (exec step (init (Fin 3) 0) handover).get (by decide +kernel)

theorem handover_fits (bs : List (SemaphoreEvent (Fin 3))) (t : SemaphoreSystem (Fin 3))
    (hbs : bs <+: handover) (ht : exec step (init (Fin 3) 0) bs = some t) : t.Fits 0 := by
  have hall : ∀ bs ∈ handover.inits,
      (exec step (init (Fin 3) 0) bs).map (fun t => decide (t.Fits 0)) ≠ some false := by
    decide +kernel
  have h := hall bs ((List.mem_inits _ _).2 hbs)
  rw [ht] at h
  simpa using h

theorem no_lost_wakeup_handover :
    (handoverEnd.semaphore.count.toNat : ℤ) =
        (0 : UInt32).toNat + handoverEnd.notified - handoverEnd.waited ∧
      0 ≤ ((0 : UInt32).toNat : ℤ) + handoverEnd.notified - handoverEnd.waited ∧
      ((∃ i, handoverEnd.phase i = .parked) →
        handoverEnd.semaphore.count.toNat ≤ handoverEnd.wokenCount) ∧
      ¬ (0 < handoverEnd.semaphore.count.toNat ∧ (∃ i, handoverEnd.phase i = .parked) ∧
        ∀ i, handoverEnd.phase i ≠ .woken) :=
  no_lost_wakeup (Option.some_get _).symm handover_fits

end SemaphoreSystem

end MTFind2
