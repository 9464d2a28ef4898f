import MTFind2.Proof.Scan
import Mathlib.Algebra.Order.BigOperators.Group.Finset

/-!
# Results and credit

A result is paid for by the `consume_credit` call before it, which takes nothing
when the credit is gone: another thread may have used it up since the check.

* `debt_step`: what a step does to results, credit and recharges together. Only a
  `consume_credit` without credit (`Unpaid`) and a recharge that leaves the
  `int32_t` (`Wraps`) change their balance.
* `balance_run`: over a run the balance changes by the number of these steps.
* `accounted_iff`: so results and credit agree at the end of a run exactly if these
  steps cancel, as they do if there is none of them.
-/

namespace MTFind2

open Run

/-! ## One thread -/

/-- The calls of a thread of `find_in_source`. -/
inductive Call
  | hasCredit
  | pushNotEnoughCredit
  | wait
  | consumeCredit
  | pushSearchResultFound
  | returned
deriving DecidableEq

namespace Phase

/-- The call the thread makes next. -/
def call : Phase → Call
  | .checking _ => .hasCredit
  | .requesting _ _ => .pushNotEnoughCredit
  | .waiting _ _ => .wait
  | .consuming _ _ => .consumeCredit
  | .delivering _ _ => .pushSearchResultFound
  | .finished => .returned

variable (f : Frame) (sem : Semaphore) (b : Bool)

@[simp] theorem call_checking : (checking f).call = .hasCredit := rfl

@[simp] theorem call_requesting : (requesting f sem).call = .pushNotEnoughCredit := rfl

@[simp] theorem call_waiting : (waiting f sem).call = .wait := rfl

@[simp] theorem call_consuming : (consuming f b).call = .consumeCredit := rfl

@[simp] theorem call_delivering : (delivering f b).call = .pushSearchResultFound := rfl

@[simp] theorem call_finished : finished.call = .returned := rfl

/-- A line starts with a check; after the last one the search returns. -/
theorem enterLine_call (n : UInt64) (lines : List StdString) :
    (enterLine n lines).call = .hasCredit ∨ (enterLine n lines).call = .returned := by
  cases lines with
  | nil => exact .inr rfl
  | cons => exact .inl rfl

theorem loopHead_call : f.loopHead.call = .hasCredit ∨ f.loopHead.call = .returned := by
  unfold Frame.loopHead
  split
  · exact enterLine_call _ _
  · exact .inl rfl

@[simp] theorem enterLine_not_delivering (n : UInt64) (lines : List StdString) :
    (enterLine n lines).call ≠ .pushSearchResultFound := by
  rcases enterLine_call n lines with h | h <;> simp [h]

@[simp] theorem loopHead_not_delivering : f.loopHead.call ≠ .pushSearchResultFound := by
  rcases loopHead_call f with h | h <;> simp [h]

@[simp] theorem loopHead_not_requesting : f.loopHead.call ≠ .pushNotEnoughCredit := by
  rcases loopHead_call f with h | h <;> simp [h]

end Phase

namespace Job

variable {ι κ : Type} (job : Job κ) {i : ι} {c c' : Client ι} {p p' : Phase}

/-- The find is followed by the credit taken for a match, or by the next line. -/
theorem search_call (f : Frame) : (job.search f).call = .consumeCredit ∨
    (job.search f).call = .hasCredit ∨ (job.search f).call = .returned := by
  rcases job.search_cases f with h | ⟨f', b, h, -⟩
  · rw [h]
    exact .inr (Phase.enterLine_call _ _)
  · rw [h]
    exact .inl rfl

@[simp] theorem search_not_delivering (f : Frame) :
    (job.search f).call ≠ .pushSearchResultFound := by
  rcases job.search_call f with h | h | h <;> simp [h]

@[simp] theorem search_not_requesting (f : Frame) :
    (job.search f).call ≠ .pushNotEnoughCredit := by
  rcases job.search_call f with h | h | h <;> simp [h]

/-- Results delivered or about to be, with the credit left and without the recharges. -/
def debt (c : Client ι) (p : Phase) : ℤ :=
  c.delivered + c.credit.toInt - c.recharged + if p.call = .pushSearchResultFound then 1 else 0

/-- **What a step does to the debt**: a consume without credit adds one, a recharge that wraps
takes `2 ^ 32`. -/
theorem debt_step (h : job.step i c p = some (c', p')) :
    debt c' p' = debt c p + (if p.call = .consumeCredit ∧ c.hasCredit = false then 1 else 0) +
      (if p.call = .pushNotEnoughCredit ∧ c.Wraps then -2 ^ 32 else 0) := by
  unfold debt
  cases job.step_cases h with
  | check f => cases hc : c.hasCredit <;> simp
  | request f sem =>
    -- the amount of the response is added on both sides, unless the sum wraps
    rw [Client.toInt_pushNotEnough_credit]
    cases hs : c.subscriptionType <;> by_cases hw : c.Wraps <;> simp [hw] <;> ring
  | wait f sem => simp
  | consume f b =>
    -- the credit taken is the result about to be delivered
    have hc := c.hasCredit_iff
    rw [Client.toInt_consumeCredit]
    by_cases hpos : 0 < c.credit.toInt
    · simp [hpos, hc.2 hpos]
      ring
    · have hnone : c.hasCredit = false := by simpa using mt hc.1 hpos
      simp [hpos, hnone]
  | deliver f b =>
    simp
    ring

end Job

/-! ## Systems -/

namespace System

variable {ι κ : Type} [DecidableEq κ] (A : κ) (s : System ι κ) (i : ι)

/-- Thread `i` serves the client `A`, and makes the call `m` next. -/
def Calls (m : Call) : Prop := ∃ t ∈ s.threads i, t.job.client = A ∧ t.phase.call = m

instance (m : Call) : Decidable (s.Calls A i m) :=
  inferInstanceAs (Decidable (∃ t ∈ s.threads i, _))

/-- The step is a `consume_credit()` on `A`, which has no credit. -/
def Unpaid : Prop := s.Calls A i .consumeCredit ∧ (s.clients A).hasCredit = false

/-- The step is a recharge of `A` that leaves the range of its `int32_t`. -/
def Wraps : Prop := s.Calls A i .pushNotEnoughCredit ∧ (s.clients A).Wraps

instance : Decidable (s.Unpaid A i) := inferInstanceAs (Decidable (_ ∧ _))

instance : Decidable (s.Wraps A i) := inferInstanceAs (Decidable (_ ∧ _))

variable {A s i} {s' : System ι κ} {sched : List ι}

omit [DecidableEq κ] in
theorem calls_iff {t : Thread κ} (ht : s.threads i = some t) (m : Call) :
    s.Calls A i m ↔ t.job.client = A ∧ t.phase.call = m := by
  simp [Calls, ht]

section Init

variable [Fintype ι]

/-- Results of `A` delivered or about to be, with its credit and without its recharges. -/
def balance (A : κ) (s : System ι κ) : ℤ :=
  (s.clients A).delivered + (s.clients A).credit.toInt - (s.clients A).recharged +
    ∑ j, if s.Calls A j .pushSearchResultFound then 1 else 0

theorem balance_init (clients : κ → Client ι) (jobs : ι → Option (Job κ)) :
    (init clients jobs).balance A = (clients A).credit.toInt := by
  have h0 : ∀ j, ¬ (init clients jobs).Calls A j .pushSearchResultFound := by
    rintro j ⟨t, ht, -, hp⟩
    obtain ⟨job, -, rfl⟩ := Option.map_eq_some_iff.1 ht
    exact Phase.enterLine_not_delivering _ _ hp
  rw [balance, Finset.sum_eq_zero fun j _ => if_neg (h0 j)]
  simp [init, Client.delivered, Client.recharged]

theorem balance_finished (hfin : s.Finished) : s.balance A =
    (s.clients A).delivered + (s.clients A).credit.toInt - (s.clients A).recharged := by
  have h0 : ∀ j, ¬ s.Calls A j .pushSearchResultFound := by
    rintro j ⟨t, ht, -, hp⟩
    rw [hfin j t ht] at hp
    cases hp
  simp [balance, h0]

end Init

variable [DecidableEq ι]

/-- A Standard client with a credit of zero or more that was recharged nothing. -/
def InCredit (A : κ) (s : System ι κ) : Prop :=
  (s.clients A).subscriptionType = .standard ∧ (s.clients A).recharged = 0 ∧
    0 ≤ (s.clients A).credit.toInt

theorem inCredit_step (hI : s.InCredit A) (h : s.step i = some s') : s'.InCredit A := by
  obtain ⟨t, c, p, ht, hs, rfl⟩ := step_cases h
  by_cases hA : t.job.client = A
  · subst hA
    obtain ⟨hstd, hre, hcr⟩ := hI
    have hans : (s.clients t.job.client).answered = 0 := by
      simp [Client.answered, PaymentService.answer, hstd]
    unfold InCredit
    simp only [Function.update_self]
    refine ⟨(t.job.step_subscriptionType hs).trans hstd, ?_⟩
    generalize hp : t.phase = p₀ at hs
    cases t.job.step_cases hs with
    | check | wait => exact ⟨hre, hcr⟩
    | request => simp [hre, hans, Client.pushNotEnough_credit, hstd, hcr]
    | consume =>
      rw [Client.consumeCredit_recharged, Client.toInt_consumeCredit]
      exact ⟨hre, by split <;> omega⟩
    | deliver => simp [hre, hcr]
  · simpa [InCredit, Ne.symm hA] using hI

theorem subscriptionType_step (h : s.step i = some s') :
    (s'.clients A).subscriptionType = (s.clients A).subscriptionType := by
  obtain ⟨t, c, p, ht, hs, rfl⟩ := step_cases h
  by_cases hA : t.job.client = A
  · subst hA
    simpa using t.job.step_subscriptionType hs
  · simp [Ne.symm hA]

section Balance

variable [Fintype ι]

/-- **What a step does to the balance of a client.** -/
theorem balance_step (h : s.step i = some s') :
    s'.balance A = s.balance A + (if s.Unpaid A i then 1 else 0) +
      (if s.Wraps A i then -2 ^ 32 else 0) := by
  obtain ⟨t, c, p, ht, hs, rfl⟩ := step_cases h
  set s' : System ι κ := ⟨Function.update s.clients t.job.client c,
    Function.update s.threads i (some { t with phase := p })⟩ with hs'
  have ht' : s'.threads i = some { t with phase := p } := by simp [hs']
  -- only thread `i` has moved
  have hrest : ∑ j ∈ Finset.univ.erase i,
      (if s'.Calls A j .pushSearchResultFound then (1 : ℤ) else 0) =
      ∑ j ∈ Finset.univ.erase i, if s.Calls A j .pushSearchResultFound then 1 else 0 := by
    refine Finset.sum_congr rfl ?_
    intro j hj
    have hji : j ≠ i := Finset.ne_of_mem_erase hj
    simp [Calls, hs', hji]
  -- the debt of its thread is the balance without the other threads' part
  unfold balance
  rw [← Finset.add_sum_erase Finset.univ _ (Finset.mem_univ i),
    ← Finset.add_sum_erase Finset.univ (fun j => if s.Calls A j _ then (1 : ℤ) else 0)
      (Finset.mem_univ i), hrest]
  simp only [Unpaid, Wraps, calls_iff ht, calls_iff ht']
  by_cases hA : t.job.client = A
  · subst hA
    have hd := t.job.debt_step hs
    have hc : s'.clients t.job.client = c := by simp [hs']
    simp only [Job.debt] at hd
    simp only [hc, true_and]
    omega
  · have hc : s'.clients A = s.clients A := by simp [hs', Ne.symm hA]
    simp [hA, hc]

/-- **Over a run**, the balance changes by the unpaid steps and the recharges that wrap. -/
theorem balance_run (h : exec step s sched = some s') :
    s'.balance A = s.balance A + tally (Unpaid A) step s sched -
      2 ^ 32 * tally (Wraps A) step s sched := by
  rw [tally_rule (Q := Unpaid A) (R := Wraps A) (f := balance A) balance_step h]
  ring

end Balance

/-- **Every delivered result is paid for**: results, recharges and the credit left add up to the
initial credit `c`, and a Standard client is sent at most `c` results. -/
def Accounted (A : κ) (c : ℤ) (s : System ι κ) : Prop :=
  ((s.clients A).delivered : ℤ) = c + (s.clients A).recharged - (s.clients A).credit.toInt ∧
    ((s.clients A).subscriptionType = .standard → ((s.clients A).delivered : ℤ) ≤ c)

section Run

variable [Fintype ι] {clients : κ → Client ι} {jobs : ι → Option (Job κ)}

theorem accounted_of_tally (hc : 0 ≤ (clients A).credit.toInt)
    (h : exec step (init clients jobs) sched = some s) (hfin : s.Finished)
    (ht : tally (Unpaid A) step (init clients jobs) sched =
      2 ^ 32 * tally (Wraps A) step (init clients jobs) sched) :
    s.Accounted A (clients A).credit.toInt := by
  have hb := balance_run (A := A) h
  rw [balance_init, balance_finished hfin] at hb
  have he : ((s.clients A).delivered : ℤ) =
      (clients A).credit.toInt + (s.clients A).recharged - (s.clients A).credit.toInt := by
    omega
  refine ⟨he, ?_⟩
  intro hstd
  have htype := exec_inv
    (I := fun s : System ι κ => (s.clients A).subscriptionType = (clients A).subscriptionType)
    (fun hI hs => (subscriptionType_step hs).trans hI) rfl h
  obtain ⟨-, hre, hcr⟩ := exec_inv (I := InCredit A) inCredit_step
    ⟨htype.symm.trans hstd, rfl, hc⟩ h
  omega

/-- **Results and credit agree at the end of a run exactly if** there are `2 ^ 32` times as many
`consume_credit` calls without credit as recharges that wrap: as a rule, none of either. -/
theorem accounted_iff (hc : 0 ≤ (clients A).credit.toInt)
    (h : exec step (init clients jobs) sched = some s) (hfin : s.Finished) :
    s.Accounted A (clients A).credit.toInt ↔
      tally (Unpaid A) step (init clients jobs) sched =
        2 ^ 32 * tally (Wraps A) step (init clients jobs) sched := by
  constructor
  · rintro ⟨he, -⟩
    have hb := balance_run (A := A) h
    rw [balance_init, balance_finished hfin] at hb
    omega
  · exact accounted_of_tally hc h hfin

end Run

/-- A Standard client with one credit. -/
def sharedClients : Unit → Client (Fin 2) := fun _ => ⟨0, .standard, 1, []⟩

/-- Two sources with one match each, searched for it. -/
def sharedStart : System (Fin 2) Unit := init sharedClients fun _ => some (Job.letterJob 97 97)

/-- Both threads check the credit before one of them consumes it. -/
def sharedSched : List (Fin 2) := [0, 1, 0, 0, 1, 1, 0, 0, 1, 1]

def sharedEnd : System (Fin 2) Unit := (exec step sharedStart sharedSched).get (by decide +kernel)

theorem sharedEnd_finished : sharedEnd.Finished := by
  have h : ∀ i : Fin 2, (sharedEnd.threads i).map Thread.phase = some .finished := by
    decide +kernel
  intro i t ht
  have hi := h i
  rw [ht] at hi
  exact Option.some.inj hi

theorem accounted_iff_shared : sharedEnd.Accounted () (sharedClients ()).credit.toInt ↔
    tally (Unpaid ()) step sharedStart sharedSched =
      2 ^ 32 * tally (Wraps ()) step sharedStart sharedSched :=
  accounted_iff (show 0 ≤ (sharedClients ()).credit.toInt by decide) (Option.some_get _).symm
    sharedEnd_finished

/-- The one credit of the Standard client pays for two results. -/
theorem shared_unpaid :
    exec step sharedStart sharedSched = some sharedEnd ∧ sharedEnd.Finished ∧
      (sharedClients ()).credit.toInt = 1 ∧ (sharedEnd.clients ()).subscriptionType = .standard ∧
      (sharedEnd.clients ()).delivered = 2 ∧ (sharedEnd.clients ()).recharged = 0 ∧
      (sharedEnd.clients ()).credit = 0 ∧
      ¬ sharedEnd.Accounted () (sharedClients ()).credit.toInt := by
  have hd : (sharedEnd.clients ()).delivered = 2 := by decide +kernel
  have hs : (sharedEnd.clients ()).subscriptionType = .standard := by decide +kernel
  refine ⟨(Option.some_get _).symm, sharedEnd_finished, rfl, hs, hd, by decide +kernel,
    by decide +kernel, fun h => ?_⟩
  have hle := h.2 hs
  have hc : (sharedClients ()).credit.toInt = 1 := by decide
  omega

end System

end MTFind2
