import MTFind2.Lib.Run
import Mathlib.Algebra.BigOperators.Group.Finset.Piecewise
import Mathlib.Data.Nat.Find
import Mathlib.Logic.Function.Iterate
import Mathlib.Logic.Relation

/-!
# Runs that come to an end

* `left f P x`: how often `f` is to be applied to `x` until `P` holds; an application
  takes one off (`left_apply`).
* `sum_move`: a sum over the members of a system, when one of them moves.
* `exec_countP_le`: a measure that falls with certain steps, and does not rise with the
  others, bounds how many of them a run has.
* `Schedule`: a run that goes on for ever, or rests; `WeaklyFair`: a step that stays possible is
  made. `eventually_never`: under such a measure the steps that lower it come to an end.
* `Leads`: a run of certain labels leads from one state to another.
* `exists_reach`: a goal can be reached if some step lowers a measure as long as it is not;
  `exists_stuck`: so a run can be continued until none of these steps is possible.
-/

namespace Run

section Left

variable {τ : Type*} {f : τ → τ} {P : τ → Prop} {x : τ}

/-- Applying `f` leads from `x` to a point where `P` holds. -/
def Reaches (f : τ → τ) (P : τ → Prop) (x : τ) : Prop := ∃ n, P (f^[n] x)

open Classical in
/-- **How often `f` is to be applied** until `P` holds, zero if that never happens. -/
noncomputable def left (f : τ → τ) (P : τ → Prop) (x : τ) : ℕ :=
  if h : Reaches f P x then Nat.find h else 0

theorem left_of (h : P x) : left f P x = 0 := by
  classical
  have h' : Reaches f P x := ⟨0, h⟩
  unfold left
  rw [dif_pos h']
  exact (Nat.find_eq_zero h').2 h

/-- A point on the way stays on the way. -/
theorem Reaches.apply (h : Reaches f P x) (hx : ¬ P x) : Reaches f P (f x) := by
  obtain ⟨n, hn⟩ := h
  cases n with
  | zero => exact absurd hn hx
  | succ n => exact ⟨n, by rwa [Function.iterate_succ_apply] at hn⟩

/-- **Each application takes one off.** -/
theorem left_apply (h : Reaches f P x) (hx : ¬ P x) : left f P (f x) + 1 = left f P x := by
  classical
  have h' : Reaches f P (f x) := h.apply hx
  unfold left
  rw [dif_pos h, dif_pos h']
  refine ((Nat.find_eq_iff h).2 ⟨?_, ?_⟩).symm
  · rw [Function.iterate_succ_apply]
    exact Nat.find_spec h'
  · intro n hn hP
    cases n with
    | zero => exact hx hP
    | succ n =>
      rw [Function.iterate_succ_apply] at hP
      exact Nat.find_min h' (by omega) hP

end Left

/-- **When one member moves**, a sum over all changes by the part of that member. -/
theorem sum_move {ι : Type*} [DecidableEq ι] {T : Finset ι} {f g : ι → ℕ} {i : ι} (hi : i ∈ T)
    (h : ∀ j, j ≠ i → g j = f j) : ∑ j ∈ T, g j + f i = ∑ j ∈ T, f j + g i := by
  rw [← Finset.add_sum_erase T g hi, ← Finset.add_sum_erase T f hi,
    Finset.sum_congr rfl fun j hj => h j (Finset.ne_of_mem_erase hj)]
  ring

variable {σ α : Type*} {step : σ → α → Option σ} {I : σ → Prop} {q : α → Bool} {μ : σ → ℕ}

/-- **Bounded runs.** If the measure falls with each step whose label meets `q`, and does not rise
with the others, a run has at most as many such steps as the measure says. -/
theorem exec_countP_le (hI : ∀ {s a t}, I s → step s a = some t → I t)
    (hμ : ∀ {s a t}, I s → step s a = some t → μ t + (if q a then 1 else 0) ≤ μ s)
    {s t : σ} {as : List α} (hs : I s) (h : exec step s as = some t) :
    as.countP q + μ t ≤ μ s := by
  induction as generalizing s with
  | nil => cases h; simp
  | cons a as ih =>
    obtain ⟨u, hu, h⟩ := exec_cons.1 h
    have hstep := hμ hs hu
    have hrest := ih (hI hs hu) h
    rw [List.countP_cons]
    omega

/-! ## Schedules -/

/-- **A schedule**: at every moment one step is made, or none. -/
def Schedule (step : σ → α → Option σ) (run : ℕ → σ) (act : ℕ → Option α) : Prop :=
  ∀ i, (act i).elim (run (i + 1) = run i) fun a => step (run i) a = some (run (i + 1))

/-- **Weak fairness**: again and again, a step with this label is made or is not possible. -/
def WeaklyFair (step : σ → α → Option σ) (run : ℕ → σ) (act : ℕ → Option α) (a : α) : Prop :=
  ∀ i, ∃ j, i ≤ j ∧ (act j = some a ∨ step (run j) a = none)

namespace Schedule

variable {run : ℕ → σ} {act : ℕ → Option α} {i : ℕ}

theorem rest (h : Schedule step run act) (hi : act i = none) : run (i + 1) = run i := by
  simpa [hi] using h i

theorem move (h : Schedule step run act) {a : α} (hi : act i = some a) :
    step (run i) a = some (run (i + 1)) := by
  simpa [hi] using h i

/-- What every step keeps holds from then on. -/
theorem inv (h : Schedule step run act) (hI : ∀ {s a t}, I s → step s a = some t → I t)
    (hi : I (run i)) {j : ℕ} (hij : i ≤ j) : I (run j) := by
  induction j, hij using Nat.le_induction with
  | base => exact hi
  | succ j _ ih =>
    cases ha : act j with
    | none => rwa [h.rest ha]
    | some a => exact hI ih (h.move ha)

/-- What no step raises does not rise. -/
theorem measure_le (h : Schedule step run act) (hI : ∀ {s a t}, I s → step s a = some t → I t)
    (hμ : ∀ {s a t}, I s → step s a = some t → μ t + (if q a then 1 else 0) ≤ μ s)
    (hi : I (run i)) {j : ℕ} (hij : i ≤ j) : μ (run j) ≤ μ (run i) := by
  induction j, hij using Nat.le_induction with
  | base => exact le_rfl
  | succ j hij ih =>
    cases ha : act j with
    | none => rwa [h.rest ha]
    | some a =>
      have hstep := hμ (h.inv hI hi hij) (h.move ha)
      omega

/-- **Steps that lower a measure come to an end**, when no step raises it. -/
theorem eventually_never (h : Schedule step run act)
    (hI : ∀ {s a t}, I s → step s a = some t → I t)
    (hμ : ∀ {s a t}, I s → step s a = some t → μ t + (if q a then 1 else 0) ≤ μ s)
    (hi : I (run i)) : ∃ j, i ≤ j ∧ ∀ k a, j ≤ k → act k = some a → q a = false := by
  induction hn : μ (run i) using Nat.strong_induction_on generalizing i with
  | _ n ih =>
    by_cases hnever : ∀ k a, i ≤ k → act k = some a → q a = false
    · exact ⟨i, le_rfl, hnever⟩
    · push Not at hnever
      obtain ⟨k, a, hik, ha, hq⟩ := hnever
      have hle := h.measure_le hI hμ hi hik
      have hstep := hμ (h.inv hI hi hik) (h.move ha)
      rw [if_pos (by simpa using hq)] at hstep
      obtain ⟨j, hkj, hj⟩ := ih (μ (run (k + 1))) (by omega)
        (h.inv hI hi (hik.trans (Nat.le_succ k))) rfl
      exact ⟨j, by omega, hj⟩

/-- **A finite run, and rest after it.** -/
theorem of_exec {s t : σ} {as : List α} (h : exec step s as = some t) :
    Schedule step (fun i => (exec step s (as.take i)).getD s) fun i => as[i]? := by
  intro i
  cases ha : as[i]? with
  | none =>
    have hle := List.getElem?_eq_none_iff.1 ha
    simp [ha, List.take_of_length_le hle, List.take_of_length_le (hle.trans (Nat.le_succ i))]
  | some a =>
    have hsplit : as = as.take i ++ as.drop i := (List.take_append_drop i as).symm
    rw [hsplit] at h
    obtain ⟨u, hu, hrest⟩ := exec_append.1 h
    obtain ⟨hlt, rfl⟩ := List.getElem?_eq_some_iff.1 ha
    rw [List.drop_eq_getElem_cons hlt] at hrest
    obtain ⟨v, hv, -⟩ := exec_cons.1 hrest
    have hnext : exec step s (as.take (i + 1)) = some v := by
      rw [List.take_succ_eq_append_getElem hlt]
      exact exec_append.2 ⟨u, hu, exec_singleton.2 hv⟩
    simp [ha, hu, hnext, hv]

end Schedule

/-- **Steps whose label meets `P` lead** from one state to another. -/
def Leads (step : σ → α → Option σ) (P : α → Prop) : σ → σ → Prop :=
  Relation.ReflTransGen fun s t => ∃ a, P a ∧ step s a = some t

namespace Leads

variable {P Q : α → Prop} {s t u : σ} {a : α}

theorem refl (s : σ) : Leads step P s s := Relation.ReflTransGen.refl

theorem trans (h : Leads step P s t) (h' : Leads step P t u) : Leads step P s u :=
  Relation.ReflTransGen.trans h h'

theorem single (ha : P a) (h : step s a = some t) : Leads step P s t :=
  Relation.ReflTransGen.single ⟨a, ha, h⟩

theorem mono (hPQ : ∀ a, P a → Q a) (h : Leads step P s t) : Leads step Q s t := by
  refine Relation.ReflTransGen.mono ?_ _ _ h
  rintro u v ⟨a, ha, hs⟩
  exact ⟨a, hPQ a ha, hs⟩

/-- What these steps keep holds at the end. -/
theorem inv (hstep : ∀ {s a t}, I s → P a → step s a = some t → I t) (hs : I s)
    (h : Leads step P s t) : I t := by
  induction h with
  | refl => exact hs
  | tail _ ht ih =>
    obtain ⟨a, ha, ht⟩ := ht
    exact hstep ih ha ht

/-- The run that leads there. -/
theorem exists_exec (h : Leads step P s t) : ∃ as, (∀ a ∈ as, P a) ∧ exec step s as = some t := by
  induction h with
  | refl => exact ⟨[], by simp, rfl⟩
  | tail _ ht ih =>
    obtain ⟨a, ha, ht⟩ := ht
    obtain ⟨as, has, h⟩ := ih
    refine ⟨as ++ [a], ?_, exec_append.2 ⟨_, h, exec_singleton.2 ht⟩⟩
    intro b hb
    rcases List.mem_append.1 hb with hb | hb
    · exact has b hb
    · rwa [List.mem_singleton.1 hb]

end Leads

/-- **A goal can be reached.** If in every state short of the goal some step keeps the invariant and
lowers the measure, these steps lead to the goal. -/
theorem exists_reach {P : α → Prop} {G : σ → Prop}
    (hstep : ∀ {s}, I s → ¬ G s → ∃ a t, P a ∧ step s a = some t ∧ I t ∧ μ t < μ s) {s : σ}
    (hs : I s) : ∃ t, Leads step P s t ∧ I t ∧ G t := by
  induction hn : μ s using Nat.strong_induction_on generalizing s with
  | _ n ih =>
    by_cases hG : G s
    · exact ⟨s, .refl s, hs, hG⟩
    · obtain ⟨a, u, ha, hu, hIu, hlt⟩ := hstep hs hG
      obtain ⟨t, ht, hIt, hGt⟩ := ih (μ u) (by omega) hIu rfl
      exact ⟨t, (Leads.single ha hu).trans ht, hIt, hGt⟩

/-- **Runs can be completed.** If the steps whose label meets `q` keep the invariant and lower the
measure, some run of such steps ends in a state where none is possible. -/
theorem exists_stuck
    (hq : ∀ {s a t}, I s → q a = true → step s a = some t → I t ∧ μ t < μ s) {s : σ} (hs : I s) :
    ∃ as t, (∀ a ∈ as, q a = true) ∧ exec step s as = some t ∧ I t ∧
      ∀ a, q a = true → step t a = none := by
  have hreach : ∃ t, Leads step (fun a => q a = true) s t ∧ I t ∧
      ∀ a, q a = true → step t a = none := by
    refine exists_reach (μ := μ) ?_ hs
    intro s hI hmoves
    push Not at hmoves
    obtain ⟨a, ha, hne⟩ := hmoves
    obtain ⟨u, hu⟩ := Option.ne_none_iff_exists'.1 hne
    exact ⟨a, u, ha, hu, hq hI ha hu⟩
  obtain ⟨t, ht, hIt, hblocked⟩ := hreach
  obtain ⟨as, hq, has⟩ := ht.exists_exec
  exact ⟨as, t, hq, has, hIt, hblocked⟩

end Run
