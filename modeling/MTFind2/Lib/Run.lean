import Mathlib.Tactic.Ring
import Mathlib.Data.List.Basic

/-!
# Runs of a labelled step function

A system is a partial step function `step : σ → α → Option σ`: the label says
who moves (a thread, an event), and `none` says that the move is not possible
there. A run is a list of labels, so "every interleaving" is "every list".

* `exec`: the state after a run, if each of its steps was possible.
* `Along`: a condition met by every step of a run, read in the state before it.
* `tally`: the number of steps of a run that meet a condition; `tally_rule`: what
  these steps change, added up.
* `exec_inv`: the induction rule (what one step preserves, a run preserves);
  `Along.inv`: the same for runs whose steps meet a condition.
* `exec_filter`, `exec_simulate`: a run is matched by a run of some of its labels, when
  the steps deleted change nothing that is compared; `exec_refine`: by a run of a system
  with labels of its own.
* `events`: what an observer makes of the steps of a run. `exec_events`: a function of the
  state is itself run by these events; `exec_project`: by some of the labels.
-/

namespace Run

variable {σ σ' α : Type*} {step : σ → α → Option σ}

/-- **The state after a run**, or `none` if one of its steps was not possible. -/
def exec (step : σ → α → Option σ) : σ → List α → Option σ
  | s, [] => some s
  | s, a :: as => (step s a).bind fun t => exec step t as

theorem exec_cons {s t : σ} {a : α} {as : List α} :
    exec step s (a :: as) = some t ↔ ∃ u, step s a = some u ∧ exec step u as = some t := by
  simp [exec, Option.bind_eq_some_iff]

theorem exec_singleton {s t : σ} {a : α} : exec step s [a] = some t ↔ step s a = some t := by
  simp [exec]

theorem exec_append {s t : σ} {as bs : List α} :
    exec step s (as ++ bs) = some t ↔ ∃ u, exec step s as = some u ∧ exec step u bs = some t := by
  induction as generalizing s with
  | nil => simp [exec]
  | cons a as ih =>
    rw [List.cons_append, exec_cons]
    constructor
    · rintro ⟨v, hv, h⟩
      obtain ⟨u, hu, h⟩ := ih.1 h
      exact ⟨u, exec_cons.2 ⟨v, hv, hu⟩, h⟩
    · rintro ⟨u, hu, h⟩
      obtain ⟨v, hv, hu⟩ := exec_cons.1 hu
      exact ⟨v, hv, ih.2 ⟨u, hu, h⟩⟩

/-- **A step invariant is a run invariant.** -/
theorem exec_inv {I : σ → Prop} (hstep : ∀ {s a t}, I s → step s a = some t → I t)
    {s t : σ} {as : List α} (hs : I s) (h : exec step s as = some t) : I t := by
  induction as generalizing s with
  | nil => cases h; exact hs
  | cons a as ih =>
    obtain ⟨u, hu, h⟩ := exec_cons.1 h
    exact ih (hstep hs hu) h

/-- Every step of the run meets `P`, in the state it starts from. -/
def Along (step : σ → α → Option σ) (P : σ → α → Prop) : σ → List α → Prop
  | _, [] => True
  | s, a :: as => P s a ∧ ∀ t ∈ step s a, Along step P t as

theorem Along.mono {P Q : σ → α → Prop} (hPQ : ∀ s a, P s a → Q s a) {s : σ} {as : List α}
    (h : Along step P s as) : Along step Q s as := by
  induction as generalizing s with
  | nil => trivial
  | cons a as ih => exact ⟨hPQ s a h.1, fun t ht => ih (h.2 t ht)⟩

/-- The condition is met at the step that follows any first part of the run. -/
theorem Along.at_step {P : σ → α → Prop} {s t : σ} {as cs : List α} {a : α}
    (h : Along step P s (as ++ a :: cs)) (hs : exec step s as = some t) : P t a := by
  induction as generalizing s with
  | nil => cases hs; exact h.1
  | cons b as ih =>
    obtain ⟨u, hu, hs⟩ := exec_cons.1 hs
    exact ih (h.2 u hu) hs

/-- A condition met at the step after every first part of a run is met along it. -/
theorem along_of_at_step {P : σ → α → Prop} {s : σ} {as : List α}
    (h : ∀ bs a cs t, as = bs ++ a :: cs → exec step s bs = some t → P t a) :
    Along step P s as := by
  induction as generalizing s with
  | nil => trivial
  | cons a as ih =>
    refine ⟨h [] a as s rfl rfl, ?_⟩
    intro t ht
    refine ih ?_
    rintro bs b cs u rfl hu
    exact h (a :: bs) b cs u rfl (exec_cons.2 ⟨t, ht, hu⟩)

/-- The condition is met along a first part of the run. -/
theorem Along.left {P : σ → α → Prop} {s : σ} {as bs : List α} (h : Along step P s (as ++ bs)) :
    Along step P s as := by
  induction as generalizing s with
  | nil => trivial
  | cons a as ih => exact ⟨h.1, fun t ht => ih (h.2 t ht)⟩

/-- **What the steps that meet the condition keep, a run along it keeps.** -/
theorem Along.inv {P : σ → α → Prop} {I : σ → Prop}
    (hstep : ∀ {s a t}, I s → P s a → step s a = some t → I t) {s t : σ} {as : List α} (hs : I s)
    (hP : Along step P s as) (h : exec step s as = some t) : I t := by
  induction as generalizing s with
  | nil => cases h; exact hs
  | cons a as ih =>
    obtain ⟨u, hu, h⟩ := exec_cons.1 h
    exact ih (hstep hs hP.1 hu) (hP.2 u hu) h

/-- Two conditions that agree at every step agree along every run. -/
theorem along_congr {P Q : σ → α → Prop} (hPQ : ∀ s a, P s a ↔ Q s a) {s : σ} {as : List α} :
    Along step P s as ↔ Along step Q s as :=
  ⟨Along.mono fun s a => (hPQ s a).1, Along.mono fun s a => (hPQ s a).2⟩

section Tally

variable (Q : σ → α → Prop) [∀ s a, Decidable (Q s a)]

/-- The number of steps of a run that start in a state where they meet `Q`. -/
def tally (step : σ → α → Option σ) : σ → List α → ℕ
  | _, [] => 0
  | s, a :: as => (if Q s a then 1 else 0) + ((step s a).map fun t => tally step t as).getD 0

variable {Q}

theorem tally_cons {s u : σ} {a : α} (as : List α) (hu : step s a = some u) :
    tally Q step s (a :: as) = (if Q s a then 1 else 0) + tally Q step u as := by
  simp [tally, hu]

/-- **Counting rule.** If each step changes a quantity by `x` where it meets `Q` and by `y` where
it meets `R`, a run changes it by as many `x` and `y` as it has such steps. -/
theorem tally_rule {R : σ → α → Prop} [∀ s a, Decidable (R s a)] {f : σ → ℤ} {x y : ℤ}
    (hf : ∀ {s a t}, step s a = some t →
      f t = f s + (if Q s a then x else 0) + (if R s a then y else 0))
    {s t : σ} {as : List α} (h : exec step s as = some t) :
    f t = f s + x * tally Q step s as + y * tally R step s as := by
  induction as generalizing s with
  | nil => cases h; simp [tally]
  | cons a as ih =>
    obtain ⟨u, hu, h⟩ := exec_cons.1 h
    rw [ih h, hf hu, tally_cons as hu, tally_cons as hu]
    by_cases hq : Q s a <;> by_cases hq' : R s a <;> simp only [hq, hq', if_true, if_false] <;>
      push_cast <;> ring

end Tally

/-- **Deletion.** If the steps whose label fails `q` keep `R`, and the others are matched one by
one, then a run is matched by the run of the labels that meet `q`. -/
theorem exec_filter {step' : σ' → α → Option σ'} {R : σ → σ' → Prop} (q : α → Bool)
    (hkeep : ∀ {s s' a t}, R s s' → q a = true → step s a = some t →
      ∃ t', step' s' a = some t' ∧ R t t')
    (hdrop : ∀ {s s' a t}, R s s' → q a = false → step s a = some t → R t s')
    {s t : σ} {s' : σ'} {as : List α} (hR : R s s') (h : exec step s as = some t) :
    ∃ t', exec step' s' (as.filter q) = some t' ∧ R t t' := by
  induction as generalizing s s' with
  | nil => cases h; exact ⟨s', rfl, hR⟩
  | cons a as ih =>
    obtain ⟨u, hu, h⟩ := exec_cons.1 h
    cases hq : q a with
    | true =>
      obtain ⟨u', hu', hRu⟩ := hkeep hR hq hu
      obtain ⟨t', ht', hRt⟩ := ih hRu h
      rw [List.filter_cons_of_pos hq]
      exact ⟨t', exec_cons.2 ⟨u', hu', ht'⟩, hRt⟩
    | false =>
      rw [List.filter_cons_of_neg (by simp [hq])]
      exact ih (hdrop hR hq hu) h

/-- **Refinement.** If each step either keeps `R` or is matched by some step of the other system,
with a label of its own, then a run is matched by a run. -/
theorem exec_refine {β : Type*} {step' : σ' → β → Option σ'} {R : σ → σ' → Prop}
    (hstep : ∀ {s s' a t}, R s s' → step s a = some t →
      R t s' ∨ ∃ b t', step' s' b = some t' ∧ R t t')
    {s t : σ} {s' : σ'} {as : List α} (hR : R s s') (h : exec step s as = some t) :
    ∃ bs t', exec step' s' bs = some t' ∧ R t t' := by
  induction as generalizing s s' with
  | nil => cases h; exact ⟨[], s', rfl, hR⟩
  | cons a as ih =>
    obtain ⟨u, hu, h⟩ := exec_cons.1 h
    rcases hstep hR hu with hRu | ⟨b, u', hu', hRu⟩
    · exact ih hRu h
    · obtain ⟨bs, t', ht', hRt⟩ := ih hRu h
      exact ⟨b :: bs, t', exec_cons.2 ⟨u', hu', ht'⟩, hRt⟩

/-- **Simulation with stuttering.** If each step either keeps `R` or is matched by a step of the
other system, then a run is matched by a run that leaves some of its labels out. -/
theorem exec_simulate {step' : σ' → α → Option σ'} {R : σ → σ' → Prop}
    (hstep : ∀ {s s' a t}, R s s' → step s a = some t →
      R t s' ∨ ∃ t', step' s' a = some t' ∧ R t t')
    {s t : σ} {s' : σ'} {as : List α} (hR : R s s') (h : exec step s as = some t) :
    ∃ bs t', bs.Sublist as ∧ exec step' s' bs = some t' ∧ R t t' := by
  induction as generalizing s s' with
  | nil => cases h; exact ⟨[], s', List.Sublist.slnil, rfl, hR⟩
  | cons a as ih =>
    obtain ⟨u, hu, h⟩ := exec_cons.1 h
    rcases hstep hR hu with hRu | ⟨u', hu', hRu⟩
    · obtain ⟨bs, t', hbs, ht', hRt⟩ := ih hRu h
      exact ⟨bs, t', hbs.cons a, ht', hRt⟩
    · obtain ⟨bs, t', hbs, ht', hRt⟩ := ih hRu h
      exact ⟨a :: bs, t', hbs.cons_cons a, exec_cons.2 ⟨u', hu', ht'⟩, hRt⟩

/-! ## What an observer sees -/

section Events

variable {β : Type*} {I : σ → Prop} {π : σ → σ'} {step' : σ' → β → Option σ'}

/-- **The events of a run**: those that `ev` makes of its steps, each read in the state that the
step starts from. -/
def events (step : σ → α → Option σ) (ev : σ → α → Option β) : σ → List α → List β
  | _, [] => []
  | s, a :: as =>
    (ev s a).toList ++ ((step s a).map fun t => events step ev t as).getD []

theorem events_cons {ev : σ → α → Option β} {s u : σ} {a : α} (as : List α)
    (hu : step s a = some u) :
    events step ev s (a :: as) = (ev s a).toList ++ events step ev u as := by
  simp [events, hu]

/-- Events that depend on the label alone. -/
theorem events_label (g : α → Option β) {s t : σ} {as : List α} (h : exec step s as = some t) :
    events step (fun _ => g) s as = as.filterMap g := by
  induction as generalizing s with
  | nil => rfl
  | cons a as ih =>
    obtain ⟨u, hu, h⟩ := exec_cons.1 h
    rw [events_cons as hu, ih h]
    cases hg : g a with
    | none => rw [List.filterMap_cons_none hg, Option.toList_none, List.nil_append]
    | some b => rw [List.filterMap_cons_some hg, Option.toList_some, List.singleton_append]

/-- **Refinement mapping.** If each step either keeps `π` and is no event, or is an event that takes
`π` to its new value, then `π` is run by the events. -/
theorem exec_events {ev : σ → α → Option β} (hI : ∀ {s a t}, I s → step s a = some t → I t)
    (hstep : ∀ {s a t}, I s → step s a = some t →
      (ev s a).elim (π t = π s) fun b => step' (π s) b = some (π t))
    {s t : σ} {as : List α} (hs : I s) (h : exec step s as = some t) :
    exec step' (π s) (events step ev s as) = some (π t) := by
  induction as generalizing s with
  | nil => cases h; rfl
  | cons a as ih =>
    obtain ⟨u, hu, h⟩ := exec_cons.1 h
    have hrest := ih (hI hs hu) h
    have hmove := hstep hs hu
    rw [events_cons as hu]
    cases hev : ev s a with
    | none =>
      rw [hev, Option.elim_none] at hmove
      rw [Option.toList_none, List.nil_append, ← hmove]
      exact hrest
    | some b =>
      rw [hev, Option.elim_some] at hmove
      exact exec_cons.2 ⟨π u, hmove, hrest⟩

/-- **Projection.** If the steps whose label `g` leaves out keep the projection `π`, and the others
are steps of the projection under the label that `g` gives them, then the projection of a run is the
run of those labels. -/
theorem exec_project (g : α → Option β) (hI : ∀ {s a t}, I s → step s a = some t → I t)
    (hkeep : ∀ {s a t}, I s → step s a = some t → g a = none → π t = π s)
    (hmove : ∀ {s a t b}, I s → step s a = some t → g a = some b → step' (π s) b = some (π t))
    {s t : σ} {as : List α} (hs : I s) (h : exec step s as = some t) :
    exec step' (π s) (as.filterMap g) = some (π t) := by
  rw [← events_label g h]
  refine exec_events hI ?_ hs h
  intro s a t hi ht
  cases hg : g a with
  | none => exact hkeep hi ht hg
  | some b => exact hmove hi ht hg

end Events

end Run
