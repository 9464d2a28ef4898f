import Mathlib.Algebra.BigOperators.Group.Finset.Piecewise
import Mathlib.Algebra.BigOperators.Intervals
import Mathlib.Algebra.Order.Group.Multiset

/-!
# Merged logs

A log that several writers append to, each entry with its writer. `part i log`
is what writer `i` wrote, in order; a log is the sum of its parts (`sum_part`).
-/

namespace Merge

variable {ι β : Type*} [DecidableEq ι]

/-- **The entries of writer `i`**, in order. -/
def part (i : ι) (log : List (ι × β)) : List β := (log.filter fun m => m.1 = i).map Prod.snd

@[simp] theorem part_nil (i : ι) : part i ([] : List (ι × β)) = [] := rfl

@[simp] theorem part_append (i : ι) (log log' : List (ι × β)) :
    part i (log ++ log') = part i log ++ part i log' := by
  simp [part]

@[simp] theorem part_singleton (i : ι) (b : β) : part i [(i, b)] = [b] := by simp [part]

theorem part_eq_nil {i : ι} {log : List (ι × β)} (h : ∀ m ∈ log, m.1 ≠ i) : part i log = [] := by
  unfold part
  rw [List.map_eq_nil_iff, List.filter_eq_nil_iff]
  simpa using h

/-- What one writer appends leaves the parts of the others as they are. -/
theorem part_append_ne {i j : ι} {log new : List (ι × β)} (hj : j ≠ i)
    (h : ∀ m ∈ new, m.1 = i) : part j (log ++ new) = part j log := by
  have hnone : part j new = [] := by
    refine part_eq_nil ?_
    intro m hm
    rw [h m hm]
    exact hj.symm
  rw [part_append, hnone, List.append_nil]

/-- A log with one writer is that writer's part. -/
theorem eq_map_part {i : ι} {log : List (ι × β)} (h : ∀ m ∈ log, m.1 = i) :
    log = (part i log).map fun b => (i, b) := by
  unfold part
  rw [List.filter_eq_self.2 (by simpa using h), List.map_map]
  conv_lhs => rw [← List.map_id log]
  exact List.map_congr_left fun m hm => Prod.ext (h m hm) rfl

@[simp] theorem part_map (i : ι) (out : List β) : part i (out.map fun b => (i, b)) = out := by
  induction out with
  | nil => rfl
  | cons b out ih => simpa [part] using ih

/-- **A log is the sum of its parts.** -/
theorem sum_part {T : Finset ι} {log : List (ι × β)} (h : ∀ m ∈ log, m.1 ∈ T) :
    ((log.map Prod.snd : List β) : Multiset β) = ∑ i ∈ T, (part i log : Multiset β) := by
  induction log with
  | nil => simp
  | cons m log ih =>
    have hm : ∀ i, (part i (m :: log) : Multiset β) =
        (if m.1 = i then {m.2} else 0) + (part i log : Multiset β) := by
      intro i
      by_cases hi : m.1 = i <;> simp [part, hi]
    rw [Finset.sum_congr rfl fun i _ => hm i, Finset.sum_add_distrib, Finset.sum_ite_eq,
      if_pos (h m List.mem_cons_self), ← ih fun x hx => h x (List.mem_cons_of_mem _ hx)]
    simp

/-- A sum over the indices of a list is the sum over its elements. -/
theorem sum_range_getElem? {γ M : Type*} [AddCommMonoid M] {l : List γ} {f : ℕ → M} {g : γ → M}
    (h : ∀ j x, l[j]? = some x → f j = g x) : ∑ j ∈ Finset.range l.length, f j = (l.map g).sum := by
  induction l generalizing f with
  | nil => rfl
  | cons x l ih =>
    rw [List.length_cons, Finset.sum_range_succ', List.map_cons, List.sum_cons, add_comm,
      h 0 x rfl, ih fun j y hy => h (j + 1) y (by simpa using hy)]

end Merge
