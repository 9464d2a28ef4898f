import Mathlib.Algebra.Order.Group.Multiset
import Mathlib.Tactic.Abel
import Mathlib.Data.List.Basic

/-!
# Priority queues

A priority queue with a comparator is a list from which any element may be taken
that is below no other: a maximal one. Which one, among several, is left open.

* `popAt_eq_some`, `popAt_cons`: what a pop takes and what it leaves.
* `exists_pop`: a queue with elements has a maximal one, when the comparator compares
  keys.
* `pop_least_iff`: with the comparator `key a < key b` the element taken has the
  greatest key, so it has the least only if all keys are equal.
* `filterMap_set`: the sum of a list of slots after one slot changes.
-/

namespace PriorityQueue

variable {α β : Type*} (compare : α → α → Prop)

/-- `a` is below no element of the queue. -/
def IsTop (q : List α) (a : α) : Prop := ∀ b ∈ q, ¬ compare a b

instance [DecidableRel compare] (q : List α) (a : α) : Decidable (IsTop compare q a) :=
  inferInstanceAs (Decidable (∀ b ∈ q, _))

/-- **Take the element at index `j`**, if it is maximal. -/
def popAt [DecidableRel compare] (q : List α) (j : ℕ) : Option (α × List α) :=
  (q[j]?).bind fun a => if IsTop compare q a then some (a, q.eraseIdx j) else none

variable {compare} {q q' : List α} {a : α} {j : ℕ}

theorem popAt_eq_some [DecidableRel compare] :
    popAt compare q j = some (a, q') ↔ q[j]? = some a ∧ IsTop compare q a ∧ q' = q.eraseIdx j := by
  unfold popAt
  rw [Option.bind_eq_some_iff]
  constructor
  · rintro ⟨x, hx, h⟩
    split at h
    · rename_i htop
      obtain ⟨rfl, rfl⟩ := Prod.mk.inj (Option.some.inj h)
      exact ⟨hx, htop, rfl⟩
    · cases h
  · rintro ⟨hx, htop, rfl⟩
    exact ⟨a, hx, by rw [if_pos htop]⟩

/-- **A pop loses nothing**: the queue is the element taken and the rest. -/
theorem popAt_cons [DecidableRel compare] (h : popAt compare q j = some (a, q')) :
    (q : Multiset α) = a ::ₘ (q' : Multiset α) := by
  obtain ⟨ha, -, rfl⟩ := popAt_eq_some.1 h
  obtain ⟨hj, rfl⟩ := List.getElem?_eq_some_iff.1 ha
  rw [Multiset.cons_coe, Multiset.coe_eq_coe]
  exact (List.getElem_cons_eraseIdx_perm hj).symm

section Key

variable {key : α → ℤ} (hkey : ∀ a b, compare a b ↔ key a < key b)

include hkey

theorem isTop_iff : IsTop compare q a ↔ ∀ b ∈ q, key b ≤ key a := by
  unfold IsTop
  simp only [hkey, not_lt]

/-- **A queue with elements can be popped.** -/
theorem exists_pop [DecidableRel compare] (hq : q ≠ []) : ∃ j r, popAt compare q j = some r := by
  -- an element with the greatest key, by induction on the queue
  have hmax : ∃ a ∈ q, ∀ b ∈ q, key b ≤ key a := by
    induction q with
    | nil => exact absurd rfl hq
    | cons x q ih =>
      by_cases hnil : q = []
      · subst hnil
        exact ⟨x, List.mem_cons_self, by simp⟩
      · obtain ⟨a, ha, hle⟩ := ih hnil
        rcases le_total (key x) (key a) with hxa | hax
        · refine ⟨a, List.mem_cons_of_mem _ ha, ?_⟩
          intro b hb
          rcases List.mem_cons.1 hb with rfl | hb
          · exact hxa
          · exact hle b hb
        · refine ⟨x, List.mem_cons_self, ?_⟩
          intro b hb
          rcases List.mem_cons.1 hb with rfl | hb
          · exact le_rfl
          · exact (hle b hb).trans hax
  obtain ⟨a, ha, hle⟩ := hmax
  obtain ⟨j, hj, rfl⟩ := List.getElem_of_mem ha
  exact ⟨j, _, popAt_eq_some.2 ⟨List.getElem?_eq_getElem hj, (isTop_iff hkey).2 hle, rfl⟩⟩

/-- **The element taken has the least key only if all keys are equal.** -/
theorem pop_least_iff (ha : a ∈ q) (htop : IsTop compare q a) :
    (∀ b ∈ q, key a ≤ key b) ↔ ∀ b ∈ q, ∀ c ∈ q, key b = key c := by
  have hmax := (isTop_iff hkey).1 htop
  constructor
  · intro hmin b hb c hc
    have h1 := le_antisymm (hmax b hb) (hmin b hb)
    have h2 := le_antisymm (hmax c hc) (hmin c hc)
    exact h1.trans h2.symm
  · intro heq b hb
    exact (heq a ha b hb).le

end Key

/-- **Slots**: when one slot of a list changes, what the slots hold changes by what that slot
holds. -/
theorem filterMap_set {l : List α} {f : α → Option β} {j : ℕ} {x : α} (y : α) (h : l[j]? = some x) :
    ((l.set j y).filterMap f : Multiset β) + ((f x).toList : Multiset β) =
      (l.filterMap f : Multiset β) + ((f y).toList : Multiset β) := by
  induction l generalizing j with
  | nil => cases h
  | cons z l ih =>
    have hcons : ∀ (z : α) (l : List α), ((z :: l).filterMap f : Multiset β) =
        ((f z).toList : Multiset β) + (l.filterMap f : Multiset β) := by
      intro z l
      cases hz : f z <;> simp [hz]
    cases j with
    | zero =>
      obtain rfl : z = x := Option.some.inj h
      rw [List.set_cons_zero, hcons, hcons, add_assoc, add_comm]
      rw [add_comm ((l.filterMap f : Multiset β)) ((f z).toList : Multiset β)]
    | succ j =>
      rw [List.set_cons_succ, hcons, hcons, add_assoc, ih h, add_assoc]

end PriorityQueue
