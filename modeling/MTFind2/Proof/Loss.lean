import MTFind2.Proof.CreditBounds
import Mathlib.Algebra.BigOperators.Ring.Finset

/-!
# What the unpaid results cost

`consume_credit` takes nothing when another thread used up the credit after the check
(`System.Unpaid`). Here we bound how often this happens.

A thread can go without paying only if it was already past its check when the credit
ran out (`Phase.Pending`), and the thread that took the last credit is not one of these.
So between two recharges at most `M - 1` of the `M` threads that serve a client go without
paying, each once.

* `Account`: the numbers that this is about, and what the steps make of them; `lossy_step`:
  the account of a client is kept by every step.
* `charged_fairly`: in every state of every run, no more credit is taken than results are
  sent, and at most `M - 1` results per recharge, and `M - 1` more, are sent for free.

Here as in all of `System` each call of `has_credit` and `consume_credit` is one step, so
this is the price of the check being apart from the payment, not that of updates to
`m_credit` that get lost.
-/

namespace MTFind2

open Run Count

namespace Phase

/-- The thread is past its check, and has not consumed the credit yet. -/
def Pending (p : Phase) : Prop := p.call = .wait ∨ p.call = .consumeCredit

instance (p : Phase) : Decidable p.Pending := inferInstanceAs (Decidable (_ ∨ _))

end Phase

namespace Job

variable {ι κ : Type} (job : Job κ) {i : ι} {c c' : Client ι} {p p' : Phase}

/-- **What a step does to the credit and the recharges**, if no recharge wraps: a recharge adds 15
to both, a `consume_credit` takes one of what is there, and only while there is credit does a
thread get past its check. -/
theorem pending_step (h : job.step i c p = some (c', p'))
    (hwrap : p.call = .pushNotEnoughCredit → ¬ c.Wraps) :
    (p.call ≠ .consumeCredit ∧ c'.recharged = c.recharged + 15 ∧
      c'.credit.toInt = c.credit.toInt + 15) ∨
    (p.call = .consumeCredit ∧ ¬ p'.Pending ∧ c'.recharged = c.recharged ∧
      c'.credit.toInt = c.credit.toInt - if 0 < c.credit.toInt then 1 else 0) ∨
    (p.call ≠ .consumeCredit ∧ c'.recharged = c.recharged ∧
      c'.credit.toInt = c.credit.toInt ∧ (p'.Pending → p.Pending ∨ 0 < c.credit.toInt)) := by
  cases job.step_cases h with
  | check f =>
    right; right
    refine ⟨by simp, rfl, rfl, ?_⟩
    intro hp
    by_cases hc : c.hasCredit = true
    · exact .inr (c.hasCredit_iff.1 hc)
    · rw [if_neg hc] at hp
      rcases hp with hp | hp <;> cases hp
  | request f sem =>
    have hcredit := Client.toInt_pushNotEnough_credit c i sem
    rw [if_neg (hwrap rfl), sub_zero] at hcredit
    have hre := Client.pushNotEnough_recharged c i sem
    cases hs : c.subscriptionType with
    | premium =>
      left
      have hans : c.answered = 15 := by
        simp [Client.answered, PaymentService.answer, Client.rechargeAmount, hs]
      rw [hans] at hcredit hre
      exact ⟨by simp, hre, hcredit⟩
    | standard =>
      right; right
      have hans : c.answered = 0 := by simp [Client.answered, PaymentService.answer, hs]
      rw [hans] at hcredit hre
      refine ⟨by simp, hre, by simpa using hcredit, ?_⟩
      intro hp
      rcases hp with hp | hp <;> cases hp
  | wait f sem hsem => exact .inr (.inr ⟨by simp, rfl, rfl, fun _ => .inl (.inl rfl)⟩)
  | consume f b =>
    right; left
    refine ⟨rfl, ?_, Client.consumeCredit_recharged c, ?_⟩
    · rintro (hp | hp) <;> cases hp
    · exact c.toInt_consumeCredit
  | deliver f b =>
    right; right
    refine ⟨by simp, by simp, by simp, ?_⟩
    intro hp
    exfalso
    rcases Phase.loopHead_call f with hcall | hcall <;> rcases hp with hp | hp <;>
      rw [hcall] at hp <;> cases hp

end Job

/-! ## The account -/

/-- **The account of a client** that `m + 1` threads serve: what it got for free, its credit, what
it was recharged, and how many threads are past their check. There are at most `m` free results for
each recharge. Once the credit has run out, `m` more are possible, and those of the threads past
their check are still to come. -/
structure Account (m free credit recharged pending : ℤ) : Prop where
  nonneg : 0 ≤ free
  funded : 0 < credit → 15 * free ≤ m * recharged
  empty : credit ≤ 0 → 15 * (free + pending) ≤ m * (recharged + 15)

namespace Account

variable {m free credit recharged pending pending' : ℤ}

theorem init (hm : 0 ≤ m) : Account m 0 credit 0 0 := by
  refine ⟨le_rfl, ?_, ?_⟩ <;> intro <;> omega

/-- What is free is bounded by the recharges. -/
theorem bound (h : Account m free credit recharged pending) (hm : 0 ≤ m) (hpending : 0 ≤ pending) :
    15 * free ≤ m * (recharged + 15) := by
  by_cases hcredit : 0 < credit
  · have hfunded := h.funded hcredit
    rw [mul_add]
    omega
  · have hempty := h.empty (not_lt.1 hcredit)
    omega

/-- A recharge brings the credit above zero. -/
theorem recharge (h : Account m free credit recharged pending) (hm : 0 ≤ m) (hpending : 0 ≤ pending)
    (hlow : -15 < credit) : Account m free (credit + 15) (recharged + 15) pending' := by
  refine ⟨h.nonneg, fun _ => h.bound hm hpending, ?_⟩
  intro hle
  omega

/-- A thread takes the credit for a result, if there is any. -/
theorem consume (h : Account m free credit recharged pending) (hpending : pending' + 1 ≤ pending)
    (hm : pending' ≤ m) :
    Account m (free + if credit ≤ 0 then 1 else 0) (credit - if 0 < credit then 1 else 0) recharged
      pending' := by
  have hnonneg := h.nonneg
  by_cases hcredit : 0 < credit
  · have hfunded := h.funded hcredit
    rw [if_neg (not_le.2 hcredit), if_pos hcredit, add_zero]
    refine ⟨hnonneg, fun _ => hfunded, ?_⟩
    intro _
    rw [mul_add m]
    omega
  · have hempty := h.empty (not_lt.1 hcredit)
    rw [if_pos (not_lt.1 hcredit), if_neg hcredit, sub_zero]
    refine ⟨by omega, fun hpos => absurd hpos hcredit, ?_⟩
    intro _
    omega

/-- While there is no credit, no thread comes past its check. -/
theorem keep (h : Account m free credit recharged pending)
    (hpending : credit ≤ 0 → pending' ≤ pending) : Account m free credit recharged pending' := by
  refine ⟨h.nonneg, h.funded, ?_⟩
  intro hle
  have hempty := h.empty hle
  have hle' := hpending hle
  omega

end Account

namespace System

variable {ι κ : Type} [DecidableEq κ] {A : κ} {s s' : System ι κ} {i : ι} {sched : List ι} {c : ℤ}
  {M : ℕ}

/-- Thread `i` serves `A` and is past its check. -/
def PendingFor (A : κ) (s : System ι κ) (i : ι) : Prop :=
  ∃ t ∈ s.threads i, t.job.client = A ∧ t.phase.Pending

instance (i : ι) : Decidable (s.PendingFor A i) :=
  inferInstanceAs (Decidable (∃ t ∈ s.threads i, _))

omit [DecidableEq κ] in
theorem pendingFor_iff {t : Thread κ} (ht : s.threads i = some t) :
    s.PendingFor A i ↔ t.job.client = A ∧ t.phase.Pending := by
  simp [PendingFor, ht]

variable [DecidableEq ι]

/-- The other threads stay where they are. -/
theorem pendingFor_step_ne (h : s.step i = some s') {j : ι} (hj : j ≠ i) :
    s'.PendingFor A j ↔ s.PendingFor A j := by
  obtain ⟨t, d, p, ht, -, rfl⟩ := step_cases h
  simp [PendingFor, hj]

variable [Fintype ι]

omit [DecidableEq κ] [DecidableEq ι] [Fintype ι] in
theorem serves_of_pendingFor (h : s.PendingFor A i) : s.Serves A i := by
  obtain ⟨t, ht, hA, -⟩ := h
  exact ⟨t, ht, hA⟩

/-- **The unpaid results of `A`**, with initial credit `c` and `M` threads. -/
def Lossy (A : κ) (c : ℤ) (M : ℕ) (s : System ι κ) : Prop :=
  Account (M - 1 : ℕ) (s.balance A - c) (s.clients A).credit.toInt (s.clients A).recharged
    (count (s.PendingFor A))

omit [DecidableEq ι] in
theorem lossy_init {clients : κ → Client ι} {jobs : ι → Option (Job κ)} :
    (init clients jobs).Lossy A (clients A).credit.toInt M := by
  have hpending : count ((init clients jobs).PendingFor A) = 0 := by
    refine count_eq_zero.2 ?_
    rintro i ⟨t, ht, -, hp⟩
    obtain ⟨job, -, rfl⟩ := Option.map_eq_some_iff.1 ht
    rcases Phase.enterLine_call 1 job.source.lines with hcall | hcall <;> rcases hp with hp | hp <;>
      rw [Job.start, hcall] at hp <;> cases hp
  have hre : ((init clients jobs).clients A).recharged = 0 := rfl
  unfold Lossy
  rw [balance_init, sub_self, hpending, hre]
  exact Account.init (by omega)

/-- **Every step keeps the account**, as long as no recharge wraps and a recharge brings the credit
above zero. -/
theorem lossy_step (hM : count (s.Serves A) = M) (hwrap : ∀ i, s.Asks A i → ¬ (s.clients A).Wraps)
    (hlow : -15 < (s.clients A).credit.toInt) (hL : s.Lossy A c M) (h : s.step i = some s') :
    s'.Lossy A c M := by
  have hbalance : s'.balance A = s.balance A + if s.Unpaid A i then 1 else 0 := by
    rw [balance_step h, if_neg (show ¬ s.Wraps A i from fun hw => hwrap i hw.1 hw.2), add_zero]
  have hmove := count_move (P := s.PendingFor A) (Q := s'.PendingFor A) i
    fun j hj => pendingFor_step_ne h hj
  have hserves : count (s'.Serves A) = M := by
    rw [count_congr fun j => serves_step h j, hM]
  obtain ⟨t, d, p, ht, hs, heq⟩ := step_cases h
  have ht' : s'.threads i = some { t with phase := p } := by
    rw [heq]
    exact Function.update_self ..
  have hnew : s'.PendingFor A i ↔ t.job.client = A ∧ p.Pending := pendingFor_iff ht'
  simp only [pendingFor_iff ht, hnew] at hmove
  unfold Lossy at hL ⊢
  by_cases hA : t.job.client = A
  · subst hA
    have hd : s'.clients t.job.client = d := by
      rw [heq]
      exact Function.update_self ..
    have hunpaid : s.Unpaid t.job.client i ↔ t.phase.call = .consumeCredit ∧
        (s.clients t.job.client).credit.toInt ≤ 0 := by
      rw [Unpaid, calls_iff ht, ← not_lt, ← Client.hasCredit_iff]
      simp
    simp only [hunpaid] at hbalance
    simp only [true_and] at hmove
    rcases t.job.pending_step hs fun hp => hwrap i ((calls_iff ht _).2 ⟨rfl, hp⟩) with
      ⟨hcall, hre, hcr⟩ | ⟨hcall, hp, hre, hcr⟩ | ⟨hcall, hre, hcr, hp⟩
    · -- a recharge
      simp only [hcall, false_and, if_false, add_zero] at hbalance
      rw [hbalance, hd, hcr, hre]
      push_cast
      exact hL.recharge (by omega) (by omega) hlow
    · -- the thread takes the credit for a result, and `M - 1` threads are left at most
      have hpend : t.phase.Pending := .inr hcall
      rw [if_pos hpend, if_neg hp] at hmove
      have hlt : count (s'.PendingFor t.job.client) < M := by
        rw [← hserves]
        refine count_lt (fun j hj => serves_of_pendingFor hj) (i := i) ⟨_, ht', rfl⟩ ?_
        rw [hnew]
        exact fun hp' => hp hp'.2
      simp only [hcall, true_and] at hbalance
      rw [hbalance, hd, hcr, hre, add_sub_right_comm]
      exact hL.consume (by omega) (by omega)
    · simp only [hcall, false_and, if_false, add_zero] at hbalance
      rw [hbalance, hd, hcr, hre]
      refine hL.keep ?_
      intro hle
      have hkeep : (if p.Pending then 1 else 0) ≤ if t.phase.Pending then 1 else 0 := by
        by_cases hp' : p.Pending
        · rcases hp hp' with hpend | hpos
          · rw [if_pos hp', if_pos hpend]
          · omega
        · rw [if_neg hp']
          exact Nat.zero_le _
      omega
  · -- a step for another client
    have hd : s'.clients A = s.clients A := by
      rw [heq]
      exact Function.update_of_ne (Ne.symm hA) ..
    have hunpaid : ¬ s.Unpaid A i := by
      rw [Unpaid, calls_iff ht]
      exact fun hu => hA hu.1.1
    simp only [hA, false_and, if_false, add_zero] at hmove
    rw [if_neg hunpaid, add_zero] at hbalance
    rw [hd, hbalance, hmove]
    exact hL

/-- **A client is charged fairly up to the race**: `M` threads serve it, and its credit was `c`. -/
structure ChargedFairly (A : κ) (c : ℤ) (M : ℕ) (s : System ι κ) : Prop where
  /-- No credit is taken without a result that is sent, or about to be. -/
  earned : c + (s.clients A).recharged - (s.clients A).credit.toInt ≤
    (s.clients A).delivered + count (s.Calls A · .pushSearchResultFound)
  /-- For each recharge, and once more, `M - 1` results can be free. -/
  free : 15 * (((s.clients A).delivered : ℤ) + count (s.Calls A · .pushSearchResultFound) -
      (c + (s.clients A).recharged - (s.clients A).credit.toInt)) ≤
    ((M - 1 : ℕ) : ℤ) * ((s.clients A).recharged + 15)
  /-- A Standard client is sent at most `M - 1` results more than its credit. -/
  standard : (s.clients A).subscriptionType = .standard → 0 ≤ c →
    ((s.clients A).delivered : ℤ) ≤ c + (M - 1 : ℕ)

section Run

variable {clients : κ → Client ι} {jobs : ι → Option (Job κ)}

theorem lossy_run (hM : M = count fun i => ∃ job ∈ jobs i, job.client = A)
    (hlow : -15 < (clients A).credit.toInt) (hfit : 15 * M < 2 ^ 31)
    (h : exec step (init clients jobs) sched = some s) :
    s.Lossy A (clients A).credit.toInt M := by
  have hc := (clients A).credit.toInt_lt
  have hinit : (init clients jobs).Within A (clients A).credit.toInt M := by
    rw [hM]
    exact within_init
  refine (exec_inv (I := fun s => s.Within A (clients A).credit.toInt M ∧
    s.Lossy A (clients A).credit.toInt M) ?_ ⟨hinit, lossy_init⟩ h).2
  rintro s i s' ⟨hW, hL⟩ hs
  have hfloor := hW.floor hfit
  refine ⟨within_step hc hW hs, lossy_step hW.serves ?_ (by omega) hL hs⟩
  exact fun j hj => not_wraps (by omega) hW.bounded hj

/-- **What the race costs.** In every state of every run, no more credit was taken from a client
than results were sent to it, and at most `M - 1` of its results for each recharge, and `M - 1`
more, were free. With one thread none is. -/
theorem charged_fairly (hM : M = count fun i => ∃ job ∈ jobs i, job.client = A)
    (hlow : -15 < (clients A).credit.toInt) (hfit : 15 * M < 2 ^ 31)
    (h : exec step (init clients jobs) sched = some s) :
    s.ChargedFairly A (clients A).credit.toInt M := by
  have hL := lossy_run hM hlow hfit h
  have hnonneg := hL.nonneg
  have hfree := hL.bound (by omega) (by omega)
  have hbalance : s.balance A = (s.clients A).delivered + (s.clients A).credit.toInt -
      (s.clients A).recharged + count (s.Calls A · .pushSearchResultFound) := by
    rw [balance, Finset.sum_boole]
    rfl
  refine ⟨by omega, by omega, ?_⟩
  intro hstd hc
  have htype := exec_inv
    (I := fun s : System ι κ => (s.clients A).subscriptionType = (clients A).subscriptionType)
    (fun hI hs => (subscriptionType_step hs).trans hI) rfl h
  obtain ⟨-, hre, hcr⟩ := exec_inv (I := InCredit A) inCredit_step
    ⟨htype.symm.trans hstd, rfl, hc⟩ h
  rw [hre] at hfree
  omega

end Run

/-- One credit and two threads: one of the two results is free. -/
theorem charged_fairly_shared : sharedEnd.ChargedFairly () 1 2 :=
  charged_fairly (show 2 = _ by decide) (show -15 < (sharedClients ()).credit.toInt by decide)
    (by decide) (Option.some_get _).symm

end System

end MTFind2
