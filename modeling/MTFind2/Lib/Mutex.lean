import Mathlib.Logic.Function.Basic
import Mathlib.Order.Basic
import Mathlib.Order.Nat

/-!
# Mutexes and lock order

A mutex is the name of the thread that holds it, if any. `lock` is possible while
nobody holds it, `unlock` only for its holder.

* `Moves`, `owned_moves`: a mutex is held by the thread whose control point holds
  it, when every move of a thread changes both together.
* `exists_unblocked`: if each thread waits only for locks of a higher rank than
  those it holds, and each lock waited for is held, then some thread does not wait.
-/

namespace Mutex

variable {ι : Type*}

/-- Thread `i` takes the mutex. -/
def lock (m : Option ι) (i : ι) : Option (Option ι) := if m = none then some (some i) else none

/-- Thread `i` gives the mutex back. -/
def unlock [DecidableEq ι] (m : Option ι) (i : ι) : Option (Option ι) :=
  if m = some i then some none else none

theorem lock_eq_some {m m' : Option ι} {i : ι} : lock m i = some m' ↔ m = none ∧ m' = some i := by
  unfold lock
  split
  · rename_i h
    simp [h, eq_comm]
  · rename_i h
    simp [h]

theorem unlock_eq_some [DecidableEq ι] {m m' : Option ι} {i : ι} :
    unlock m i = some m' ↔ m = some i ∧ m' = none := by
  unfold unlock
  split
  · rename_i h
    simp [h, eq_comm]
  · rename_i h
    simp [h]

/-- A move of thread `i`, whose control point holds the mutex before it or not and
after it or not. -/
inductive Moves (i : ι) : Bool → Option ι → Bool → Option ι → Prop
  | keep (b : Bool) (m : Option ι) : Moves i b m b m
  | lock : Moves i false none true (some i)
  | unlock : Moves i true (some i) false none

/-- **Ownership is kept**: if the holder of the mutex is the thread whose control point holds it,
so it is after a move. -/
theorem owned_moves [DecidableEq ι] {H : ι → Bool} {m m' : Option ι} {i : ι} {b : Bool}
    (hown : ∀ j, m = some j ↔ H j = true) (h : Moves i (H i) m b m') (j : ι) :
    m' = some j ↔ Function.update H i b j = true := by
  generalize hHi : H i = a at h
  cases h with
  | keep =>
    rw [← hHi, Function.update_eq_self]
    exact hown j
  | lock =>
    have hnone : H j ≠ true := fun hj => Option.some_ne_none j ((hown j).2 hj).symm
    by_cases hji : j = i
    · subst hji
      simp
    · simp [Function.update_of_ne hji, hnone, Ne.symm hji]
  | unlock =>
    by_cases hji : j = i
    · subst hji
      simp
    · have hj : H j ≠ true := fun hj => hji (Option.some.inj ((hown j).2 hj)).symm
      simp [Function.update_of_ne hji, hj]

/-- **No circular wait.** From any thread, following the holders of the locks waited for along their
ranks leads to a thread that waits for nothing: the thread itself, or the holder of a lock. -/
theorem exists_unblocked {L : Type*} (rank : L → ℕ) {N : ℕ} (hN : ∀ l, rank l ≤ N)
    (waits holds : ι → L → Prop) (hheld : ∀ i l, waits i l → ∃ j, holds j l)
    (horder : ∀ j l l', holds j l → waits j l' → rank l < rank l') (i : ι) :
    ∃ j, (j = i ∨ ∃ l, holds j l) ∧ ∀ l, ¬ waits j l := by
  -- by induction on the ranks above the lock that is held
  have hfrom : ∀ (n : ℕ) (j : ι) (l : L), holds j l → N - rank l ≤ n →
      ∃ j', (∃ l', holds j' l') ∧ ∀ l', ¬ waits j' l' := by
    intro n
    induction n with
    | zero =>
      intro j l hj hn
      refine ⟨j, ⟨l, hj⟩, ?_⟩
      intro l' hw
      have h1 := horder j l l' hj hw
      have h2 := hN l'
      omega
    | succ n ih =>
      intro j l hj hn
      by_cases hw : ∃ l', waits j l'
      · obtain ⟨l', hw⟩ := hw
        obtain ⟨j', hj'⟩ := hheld j l' hw
        have h1 := horder j l l' hj hw
        have h2 := hN l'
        exact ih j' l' hj' (by omega)
      · exact ⟨j, ⟨l, hj⟩, fun l' hl' => hw ⟨l', hl'⟩⟩
  by_cases hw : ∃ l, waits i l
  · obtain ⟨l, hw⟩ := hw
    obtain ⟨j, hj⟩ := hheld i l hw
    obtain ⟨j', hholds, hfree⟩ := hfrom (N - rank l) j l hj (Nat.le_refl _)
    exact ⟨j', .inr hholds, hfree⟩
  · exact ⟨i, .inl rfl, fun l hl => hw ⟨l, hl⟩⟩

end Mutex
