import Mathlib.Algebra.BigOperators.Group.Finset.Piecewise

/-!
# Counting threads

`count P` is the number of threads that meet `P`. `count_move`: when one thread moves,
the count changes by that thread's part alone.
-/

namespace Count

variable {ι : Type*} [Fintype ι] {P Q : ι → Prop} [DecidablePred P] [DecidablePred Q]

/-- The number of threads that meet `P`. -/
def count (P : ι → Prop) [DecidablePred P] : ℕ := (Finset.univ.filter P).card

theorem count_eq_sum : count P = ∑ i, if P i then 1 else 0 := Finset.card_filter P _

theorem count_eq_zero : count P = 0 ↔ ∀ i, ¬ P i := by
  simp [count, Finset.filter_eq_empty_iff]

theorem count_pos : 0 < count P ↔ ∃ i, P i := by
  simp [count, Finset.card_pos, Finset.filter_nonempty_iff]

theorem count_mono (h : ∀ i, P i → Q i) : count P ≤ count Q :=
  Finset.card_le_card (Finset.monotone_filter_right _ fun i _ hi => h i hi)

/-- One thread more makes the count larger. -/
theorem count_lt (h : ∀ i, P i → Q i) {i : ι} (hQ : Q i) (hP : ¬ P i) : count P < count Q := by
  refine Finset.card_lt_card ⟨Finset.monotone_filter_right _ fun i _ hi => h i hi, ?_⟩
  intro hsub
  have hmem := hsub (Finset.mem_filter.2 ⟨Finset.mem_univ i, hQ⟩)
  exact hP (Finset.mem_filter.1 hmem).2

theorem count_congr (h : ∀ i, P i ↔ Q i) : count P = count Q :=
  le_antisymm (count_mono fun i => (h i).1) (count_mono fun i => (h i).2)

/-- **When only thread `i` moves**, the count changes by its part. -/
theorem count_move [DecidableEq ι] (i : ι) (h : ∀ j, j ≠ i → (Q j ↔ P j)) :
    count Q + (if P i then 1 else 0) = count P + if Q i then 1 else 0 := by
  rw [count_eq_sum, count_eq_sum, ← Finset.add_sum_erase _ _ (Finset.mem_univ i),
    ← Finset.add_sum_erase _ (fun j => if P j then 1 else 0) (Finset.mem_univ i)]
  have hrest : ∑ j ∈ Finset.univ.erase i, (if Q j then 1 else 0) =
      ∑ j ∈ Finset.univ.erase i, if P j then 1 else 0 := by
    refine Finset.sum_congr rfl ?_
    intro j hj
    have hji := h j (Finset.ne_of_mem_erase hj)
    simp only [hji]
  rw [hrest]
  omega

end Count
