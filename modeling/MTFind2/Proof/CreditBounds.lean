import MTFind2.Lib.Count
import MTFind2.Proof.Accounting

/-!
# Bounds on the credit

A thread that found no credit asks for a recharge later, when others may have
recharged the client. So the bound on the credit is one on the credit with 15 for each
thread that is about to ask (`Bounded`): a thread joins these only while the credit is
at most 0, and then there are 15 for each of the `M` threads at most.

* `bounded_step`, `floor_step`: the bounds are kept by every step, the lower one as long
  as no recharge wraps.
* `credit_bounded`: what follows for every run.
* `stale_wraps`: with `15 * M` past the `int32_t` the credit can wrap below zero.
-/

namespace MTFind2

open Run Count

namespace Job

variable {ι κ : Type} (job : Job κ) {i : ι} {c c' : Client ι} {p p' : Phase}

/-- **Who is about to ask for credit**: a thread comes to it from a check that found none, and
leaves it with the recharge. -/
theorem asking_step (h : job.step i c p = some (c', p')) :
    (p.call = .pushNotEnoughCredit ∧ p'.call ≠ .pushNotEnoughCredit ∧
      c'.credit.toInt = c.credit.toInt + c.answered - if c.Wraps then 2 ^ 32 else 0) ∨
    (p.call ≠ .pushNotEnoughCredit ∧ p'.call = .pushNotEnoughCredit ∧ c' = c ∧
      c.credit.toInt ≤ 0) ∨
    (p.call ≠ .pushNotEnoughCredit ∧ p'.call ≠ .pushNotEnoughCredit ∧
      c'.credit.toInt ≤ c.credit.toInt ∧ min c.credit.toInt 0 ≤ c'.credit.toInt) := by
  have hmin : min c.credit.toInt 0 ≤ c.credit.toInt := min_le_left _ _
  cases job.step_cases h with
  | check f =>
    right
    by_cases hc : c.hasCredit = true
    · right
      rw [if_pos hc]
      exact ⟨by simp, by simp, le_rfl, hmin⟩
    · left
      rw [if_neg hc]
      exact ⟨by simp, by simp, rfl, not_lt.1 (mt c.hasCredit_iff.2 hc)⟩
  | request f sem =>
    left
    refine ⟨rfl, ?_, Client.toInt_pushNotEnough_credit c i sem⟩
    split <;> simp
  | wait f sem hsem =>
    right; right
    exact ⟨by simp, by simp, le_rfl, hmin⟩
  | consume f b =>
    right; right
    have hcons := c.toInt_consumeCredit
    refine ⟨by simp, by simp, ?_, ?_⟩ <;> split at hcons <;> omega
  | deliver f b =>
    right; right
    exact ⟨by simp, by simp, le_rfl, hmin⟩

end Job

namespace System

variable {ι κ : Type} [DecidableEq κ] {A : κ} {s s' : System ι κ} {i : ι} {sched : List ι}

/-- Thread `i` serves the client `A`. -/
def Serves (A : κ) (s : System ι κ) (i : ι) : Prop := ∃ t ∈ s.threads i, t.job.client = A

instance (i : ι) : Decidable (s.Serves A i) :=
  inferInstanceAs (Decidable (∃ t ∈ s.threads i, _))

/-- Thread `i` is about to ask for credit for `A`. -/
abbrev Asks (A : κ) (s : System ι κ) (i : ι) : Prop := s.Calls A i .pushNotEnoughCredit

variable [DecidableEq ι]

/-- No thread changes the client it serves. -/
theorem serves_step (h : s.step i = some s') (j : ι) : s'.Serves A j ↔ s.Serves A j := by
  obtain ⟨t, c, p, ht, -, rfl⟩ := step_cases h
  by_cases hji : j = i
  · subst hji
    simp [Serves, ht]
  · simp [Serves, hji]

/-- The other threads make the calls they were about to make. -/
theorem calls_step_ne (h : s.step i = some s') (m : Call) {j : ι} (hj : j ≠ i) :
    s'.Calls A j m ↔ s.Calls A j m := by
  obtain ⟨t, c, p, ht, -, rfl⟩ := step_cases h
  simp [Calls, hj]

variable [Fintype ι]

/-- The credit of `A`, with 15 for each thread about to ask for credit, is at most `b`. -/
def Bounded (A : κ) (b : ℤ) (s : System ι κ) : Prop :=
  (s.clients A).credit.toInt + 15 * Count.count (s.Asks A) ≤ b

omit [DecidableEq ι] in
/-- A thread that asks for credit serves the client. -/
theorem asks_le_serves : Count.count (s.Asks A) ≤ Count.count (s.Serves A) :=
  count_mono fun _ ⟨t, ht, hA, _⟩ => ⟨t, ht, hA⟩

/-- **Every step keeps the bound**, if it allows 15 for each thread that serves the client. -/
theorem bounded_step {b : ℤ} (hM : 15 * (Count.count (s.Serves A) : ℤ) ≤ b) (hB : s.Bounded A b)
    (h : s.step i = some s') : s'.Bounded A b := by
  have hmove := count_move (P := s.Asks A) (Q := s'.Asks A) i fun j hj => calls_step_ne h _ hj
  have hle := asks_le_serves (s := s') (A := A)
  have hserves : Count.count (s'.Serves A) = Count.count (s.Serves A) :=
    count_congr fun j => serves_step h j
  obtain ⟨t, c, p, ht, hs, heq⟩ := step_cases h
  have hold : s.Asks A i ↔ t.job.client = A ∧ t.phase.call = .pushNotEnoughCredit :=
    calls_iff ht _
  have hnew : s'.Asks A i ↔ t.job.client = A ∧ p.call = .pushNotEnoughCredit := by
    have ht' : s'.threads i = some { t with phase := p } := by
      rw [heq]
      exact Function.update_self ..
    exact calls_iff ht' _
  simp only [hold, hnew] at hmove
  unfold Bounded at hB ⊢
  by_cases hA : t.job.client = A
  · subst hA
    have hc : s'.clients t.job.client = c := by
      rw [heq]
      exact Function.update_self ..
    simp only [true_and] at hmove
    rw [hc]
    have hans := (s.clients t.job.client).answered_le
    rcases t.job.asking_step hs with ⟨h1, h2, hc'⟩ | ⟨h1, h2, rfl, hc'⟩ | ⟨h1, h2, hc', -⟩
    · -- a recharge, by one of the threads about to ask
      rw [if_pos h1, if_neg h2] at hmove
      split at hc' <;> omega
    · -- one more is about to ask, but there is no credit
      omega
    · rw [if_neg h1, if_neg h2] at hmove
      omega
  · have hc : s'.clients A = s.clients A := by
      rw [heq]
      exact Function.update_of_ne (Ne.symm hA) ..
    simp only [hA, false_and, if_false] at hmove
    rw [hc]
    omega

omit [DecidableEq ι] in
/-- **Below `2 ^ 31` no recharge wraps.** -/
theorem not_wraps {b : ℤ} (hb : b < 2 ^ 31) (hB : s.Bounded A b) (hi : s.Asks A i) :
    ¬ (s.clients A).Wraps := by
  have hpos : 0 < Count.count (s.Asks A) := count_pos.2 ⟨i, hi⟩
  have hans := (s.clients A).answered_le
  unfold Bounded at hB
  unfold Client.Wraps
  omega

/-- And as long as none wraps, the credit does not fall below 0 or its initial value. -/
theorem floor_step {b lo : ℤ} (hb : b < 2 ^ 31) (hlo : lo ≤ 0) (hB : s.Bounded A b)
    (hc : lo ≤ (s.clients A).credit.toInt) (h : s.step i = some s') :
    lo ≤ (s'.clients A).credit.toInt := by
  obtain ⟨t, c, p, ht, hs, rfl⟩ := step_cases h
  dsimp only
  by_cases hA : t.job.client = A
  · subst hA
    rw [Function.update_self]
    rcases t.job.asking_step hs with ⟨h1, -, hc'⟩ | ⟨-, -, rfl, -⟩ | ⟨-, -, -, hc'⟩
    · rw [if_neg (not_wraps hb hB ((calls_iff ht _).2 ⟨rfl, h1⟩))] at hc'
      omega
    · exact hc
    · omega
  · rw [Function.update_of_ne (Ne.symm hA)]
    exact hc

/-- **The bounds** for a client with initial credit `c` that `M` threads serve. -/
structure Within (A : κ) (c : ℤ) (M : ℕ) (s : System ι κ) : Prop where
  serves : Count.count (s.Serves A) = M
  bounded : s.Bounded A (max c (15 * M))
  floor : 15 * M < 2 ^ 31 → min c 0 ≤ (s.clients A).credit.toInt

theorem within_step {c : ℤ} {M : ℕ} (hc : c < 2 ^ 31) (hW : s.Within A c M)
    (h : s.step i = some s') : s'.Within A c M := by
  have hM : 15 * (Count.count (s.Serves A) : ℤ) ≤ max c (15 * M) := by
    rw [hW.serves]
    exact le_max_right _ _
  refine ⟨?_, bounded_step hM hW.bounded h, ?_⟩
  · rw [count_congr fun j => serves_step h j]
    exact hW.serves
  · intro hfit
    exact floor_step (by omega) (min_le_right _ _) hW.bounded (hW.floor hfit) h

section Run

variable {clients : κ → Client ι} {jobs : ι → Option (Job κ)}

omit [DecidableEq ι] in
theorem within_init : (init clients jobs).Within A (clients A).credit.toInt
    (Count.count fun i => ∃ job ∈ jobs i, job.client = A) := by
  have hasks : Count.count ((init clients jobs).Asks A) = 0 := by
    refine count_eq_zero.2 ?_
    rintro i ⟨t, ht, -, hp⟩
    obtain ⟨job, -, rfl⟩ := Option.map_eq_some_iff.1 ht
    rcases Phase.enterLine_call 1 job.source.lines with h | h
    · exact absurd (h.symm.trans hp) (by decide)
    · exact absurd (h.symm.trans hp) (by decide)
  refine ⟨count_congr ?_, ?_, fun _ => min_le_left _ _⟩
  · intro i
    simp [Serves, init]
  · unfold Bounded
    rw [hasks]
    show (clients A).credit.toInt + 15 * ((0 : ℕ) : ℤ) ≤ _
    omega

/-- **The credit stays bounded** by its initial value `c` and 15 for each of the `M` threads that
serve the client, in every state of every run. If `15 * M` fits the `int32_t`, it does not fall
below 0 or `c` either, and every recharge adds exactly the amount of its response. -/
theorem credit_bounded {M : ℕ} (hM : M = Count.count fun i => ∃ job ∈ jobs i, job.client = A)
    (h : exec step (init clients jobs) sched = some s) :
    (s.clients A).credit.toInt ≤ max (clients A).credit.toInt (15 * M) ∧
      (15 * M < 2 ^ 31 → min (clients A).credit.toInt 0 ≤ (s.clients A).credit.toInt ∧
        ∀ i, s.Asks A i → ∀ semaphore,
          ((s.clients A).pushNotEnoughCredit i semaphore).1.credit.toInt =
            (s.clients A).credit.toInt + (s.clients A).answered) := by
  have hc := (clients A).credit.toInt_lt
  have hW : s.Within A (clients A).credit.toInt M := by
    refine exec_inv (I := Within A (clients A).credit.toInt M) (within_step hc) ?_ h
    rw [hM]
    exact within_init
  have hB := hW.bounded
  refine ⟨?_, ?_⟩
  · unfold Bounded at hB
    omega
  · intro hfit
    refine ⟨hW.floor hfit, ?_⟩
    intro i hi semaphore
    rw [Client.toInt_pushNotEnough_credit, if_neg (not_wraps (by omega) hB hi), sub_zero]

end Run

/-! ## Stale checks -/

section Stale

variable {job : Job κ} {f : Frame}

omit [Fintype ι] in
/-- All threads check, and find no credit. -/
theorem check_all {js : List ι} (hjs : js.Nodup)
    (hcredit : (s.clients job.client).hasCredit = false)
    (hthreads : ∀ i ∈ js, s.threads i = some ⟨job, .checking f⟩) :
    ∃ s', exec step s js = some s' ∧ s'.clients = s.clients ∧
      (∀ i ∈ js, s'.threads i = some ⟨job, .requesting f ⟨0⟩⟩) ∧
      ∀ i, i ∉ js → s'.threads i = s.threads i := by
  induction js generalizing s with
  | nil => exact ⟨s, rfl, rfl, by simp, fun _ _ => rfl⟩
  | cons j js ih =>
    obtain ⟨hj, hjs⟩ := List.nodup_cons.1 hjs
    -- thread `j` checks, and nothing else changes
    obtain ⟨s₁, hstep, hclients, hself, hrest⟩ : ∃ s₁, s.step j = some s₁ ∧
        s₁.clients = s.clients ∧ s₁.threads j = some ⟨job, .requesting f ⟨0⟩⟩ ∧
        ∀ i, i ≠ j → s₁.threads i = s.threads i := by
      refine ⟨_, by simp [step, hthreads j List.mem_cons_self, Job.step, Job.stepGiven]; rfl,
        by simp, by simp [hcredit], ?_⟩
      intro i hi
      simp [hi]
    obtain ⟨s', hs', hclients', hreq, hrest'⟩ := ih hjs (s := s₁) (by rwa [hclients]) (by
      intro i hi
      rw [hrest i fun h => hj (h ▸ hi)]
      exact hthreads i (List.mem_cons_of_mem _ hi))
    refine ⟨s', exec_cons.2 ⟨s₁, hstep, hs'⟩, hclients'.trans hclients, ?_, ?_⟩
    · intro i hi
      rcases List.mem_cons.1 hi with rfl | hi
      · rw [hrest' i hj]
        exact hself
      · exact hreq i hi
    · intro i hi
      rw [List.mem_cons, not_or] at hi
      rw [hrest' i hi.2]
      exact hrest i hi.1

omit [Fintype ι] in
/-- Then all of them are recharged, whatever the credit is by then. -/
theorem request_all {js : List ι} (hjs : js.Nodup)
    (hprem : (s.clients job.client).subscriptionType = .premium)
    (hthreads : ∀ i ∈ js, s.threads i = some ⟨job, .requesting f ⟨0⟩⟩) :
    ∃ s', exec step s js = some s' ∧ (s'.clients job.client).credit.toInt =
      ((s.clients job.client).credit.toInt + 15 * js.length).bmod (2 ^ 32) := by
  induction js generalizing s with
  | nil =>
    have hlo := (s.clients job.client).credit.le_toInt
    have hhi := (s.clients job.client).credit.toInt_lt
    refine ⟨s, rfl, ?_⟩
    rw [Int.bmod_eq_of_le (by simp; omega) (by simp; omega)]
    simp
  | cons j js ih =>
    obtain ⟨hj, hjs⟩ := List.nodup_cons.1 hjs
    obtain ⟨s₁, hstep, hclient, hrest⟩ : ∃ s₁, s.step j = some s₁ ∧
        s₁.clients job.client = ((s.clients job.client).pushNotEnoughCredit j ⟨0⟩).1 ∧
        ∀ i, i ≠ j → s₁.threads i = s.threads i := by
      refine ⟨_, by simp [step, hthreads j List.mem_cons_self, Job.step, Job.stepGiven]; rfl,
        by simp, ?_⟩
      intro i hi
      simp [hi]
    have hcredit : (s₁.clients job.client).credit.toInt =
        ((s.clients job.client).credit.toInt + 15).bmod (2 ^ 32) := by
      rw [hclient, Client.pushNotEnough_credit, if_pos hprem, Client.toInt_addCredit]
      rfl
    obtain ⟨s', hs', hc⟩ := ih hjs (s := s₁) (by rw [hclient]; simpa using hprem) (by
      intro i hi
      rw [hrest i fun h => hj (h ▸ hi)]
      exact hthreads i (List.mem_cons_of_mem _ hi))
    refine ⟨s', exec_cons.2 ⟨s₁, hstep, hs'⟩, ?_⟩
    rw [hc, hcredit, Int.bmod_add_bmod]
    congr 1
    push_cast [List.length_cons]
    ring

end Stale

/-- A Premium client without credit. -/
def emptyClient (ι : Type) : Client ι := ⟨0, .premium, 0, []⟩

/-- `n` threads that search for it. -/
def staleStart (n : ℕ) : System (Fin n) Unit :=
  init (fun _ => emptyClient _) fun _ => some (Job.letterJob 97 97)

/-- Each of them checks, and then each is recharged. -/
def staleSched (n : ℕ) : List (Fin n) := List.finRange n ++ List.finRange n

/-- **The recharges add up**, modulo `2 ^ 32`. -/
theorem stale_run (n : ℕ) : ∃ s, exec step (staleStart n) (staleSched n) = some s ∧
    (s.clients ()).credit.toInt = (15 * n : ℤ).bmod (2 ^ 32) := by
  have hstart : ∀ i ∈ List.finRange n, (staleStart n).threads i = some ⟨Job.letterJob 97 97,
      .checking ⟨1, ⟨[97, 32, 98], by simp⟩, [], 0, 0⟩⟩ := fun i _ => rfl
  obtain ⟨s₁, hs₁, hclients, hreq, -⟩ := check_all (List.nodup_finRange n) rfl hstart
  have hclient : s₁.clients (Job.letterJob 97 97).client = emptyClient (Fin n) := by
    rw [hclients]
    rfl
  obtain ⟨s₂, hs₂, hcredit⟩ := request_all (s := s₁) (List.nodup_finRange n)
    (by rw [hclient]; rfl) hreq
  refine ⟨s₂, exec_append.2 ⟨s₁, hs₁, hs₂⟩, ?_⟩
  have h0 : (emptyClient (Fin n)).credit.toInt = 0 := rfl
  rw [hclient, h0, List.length_finRange, zero_add] at hcredit
  exact hcredit

theorem credit_bounded_pair :
    ∃ s, exec step (staleStart 2) (staleSched 2) = some s ∧
      (s.clients ()).credit.toInt ≤ max (emptyClient (Fin 2)).credit.toInt (15 * (2 : ℕ)) ∧
      (15 * 2 < 2 ^ 31 → min (emptyClient (Fin 2)).credit.toInt 0 ≤ (s.clients ()).credit.toInt ∧
        ∀ i, s.Asks () i → ∀ semaphore,
          ((s.clients ()).pushNotEnoughCredit i semaphore).1.credit.toInt =
            (s.clients ()).credit.toInt + (s.clients ()).answered) := by
  obtain ⟨s, hs, -⟩ := stale_run 2
  have hbounded := credit_bounded (A := ()) (M := 2) (by decide) hs
  exact ⟨s, hs, hbounded⟩

/-- With 143165577 threads the sum passes the `int32_t`, and the credit ends below 0. -/
theorem stale_wraps : ∃ s, exec step (staleStart 143165577) (staleSched 143165577) = some s ∧
    (s.clients ()).credit.toInt = -2147483641 ∧
    ¬ min (emptyClient (Fin 143165577)).credit.toInt 0 ≤ (s.clients ()).credit.toInt := by
  obtain ⟨s, hs, hcredit⟩ := stale_run 143165577
  have hneg : (15 * (143165577 : ℕ) : ℤ).bmod (2 ^ 32) = -2147483641 := by decide
  have h0 : (emptyClient (Fin 143165577)).credit.toInt = 0 := rfl
  rw [hneg] at hcredit
  refine ⟨s, hs, hcredit, ?_⟩
  rw [hcredit, h0]
  decide

end System

end MTFind2
