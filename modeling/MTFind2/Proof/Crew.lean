import MTFind2.Proof.Answers
import MTFind2.Proof.Loss

/-!
# What the clients of the program pay

A call of `query` spawns its threads one after the other, while in `System.init` all of
them are there. But a thread that is not yet spawned is like one that has not moved yet:
`crew` is the pool of a call with these threads filled in.

* `CrewOK.spawn`, `CrewOK.step`: so spawning changes nothing, and a step of a thread is a step of
  the system. What holds in every run of a `System` holds in every call of the program.
* `exec_crew`: this holds for the calls of the program.
* `clients_charged`: so the bounds on the credit (`System.within_run`) and on the price of the
  race (`System.lossy_run`) hold for the clients of the program.

As everywhere in `System`, each call of `has_credit` and `consume_credit` is one step.
-/

namespace MTFind2

open Run Count

variable {κ : Type} (A : κ) (req : SearchRequest) (S : List ContentSource)

/-- The index of the source that thread `i` of a call searches. -/
def sourceIndex (i : ℕ) : Option (Fin S.length) :=
  if h : S.length ≤ i ∧ i < S.length + S.length then some ⟨i - S.length, by omega⟩ else none

theorem sourceIndex_add (j : Fin S.length) : sourceIndex S (S.length + j) = some j := by
  have hj := j.isLt
  have hlt : S.length ≤ S.length + j ∧ S.length + j < S.length + S.length := by omega
  simp [sourceIndex, hlt]

/-- One thread for each source. -/
def crewJobs (o : Option (Fin S.length)) : Option (Job κ) := o.map fun j => jobOf A req (S.get j)

/-- **The threads of a call**, those that are not yet spawned at their start. -/
def crew (pool : System ℕ κ) : System (Option (Fin S.length)) κ where
  clients k := (pool.clients k).rename (sourceIndex S)
  threads o := o.map fun j : Fin S.length => (pool.threads (S.length + j)).getD
    ⟨jobOf A req (S.get j), (jobOf A req (S.get j)).start⟩

/-- The crew when nobody has moved. -/
def crewStart (clients : κ → Client ℕ) : System (Option (Fin S.length)) κ :=
  .init (fun k => (clients k).rename (sourceIndex S)) (crewJobs A req S)

variable {A req S} in
theorem crew_threads {pool : System ℕ κ} {j : Fin S.length} {t : Thread κ}
    (ht : pool.threads (S.length + j) = some t) :
    (crew A req S pool).threads (some j) = some t := by
  simp [crew, ht]

variable [DecidableEq κ]

/-- **The pool of a call, after `d` of its sources have got their threads, is a state of a run of
the crew.** -/
structure CrewOK (clients : κ → Client ℕ) (d : ℕ) (pool : System ℕ κ) : Prop where
  run : ∃ sched, exec System.step (crewStart A req S clients) sched = some (crew A req S pool)
  named : NamedFrom S.length d pool
  le : d ≤ S.length

variable {A req S} {clients : κ → Client ℕ} {d i : ℕ} {pool pool' : System ℕ κ}

theorem crewOK_init : CrewOK A req S clients 0 (System.init clients fun _ => none) := by
  refine ⟨⟨[], congrArg some ?_⟩, .init, Nat.zero_le _⟩
  simp only [crewStart, System.init, crew, System.mk.injEq]
  refine ⟨rfl, ?_⟩
  funext o
  cases o <;> rfl

/-- **A spawned thread was there before**, and had not moved. -/
theorem CrewOK.spawn (h : CrewOK A req S clients d pool) {src : ContentSource}
    (hsrc : S[d]? = some src) :
    CrewOK A req S clients (d + 1) { pool with
      threads := Function.update pool.threads (S.length + d)
        (some ⟨jobOf A req src, (jobOf A req src).start⟩) } := by
  obtain ⟨hd, hget⟩ := List.getElem?_eq_some_iff.1 hsrc
  set pool' : System ℕ κ := { pool with
    threads := Function.update pool.threads (S.length + d)
      (some ⟨jobOf A req src, (jobOf A req src).start⟩) }
  have hsame : crew A req S pool' = crew A req S pool := by
    simp only [crew, System.mk.injEq]
    refine ⟨rfl, ?_⟩
    funext o
    cases o with
    | none => rfl
    | some j =>
      by_cases hj : (j : ℕ) = d
      · -- the thread was at its start
        have hnone := h.named (S.length + d) (.inr le_rfl)
        simp [pool', hj, hnone, hget]
      · simp [pool', hj]
  refine ⟨?_, h.named.spawn _, hd⟩
  rw [hsame]
  exact h.run

/-- **A step of a thread is a step of the crew.** -/
theorem CrewOK.step (h : CrewOK A req S clients d pool) (hs : pool.step i = some pool') :
    CrewOK A req S clients d pool' := by
  have hnamed := h.named.step hs
  obtain ⟨t, c, p, ht, hstep, rfl⟩ := System.step_cases hs
  have hrange := h.named.range ht
  have hle := h.le
  obtain ⟨j, rfl⟩ : ∃ j : Fin S.length, i = S.length + j :=
    ⟨⟨i - S.length, by omega⟩, by simp; omega⟩
  have hrename := Job.step_rename (sourceIndex S) t.job (S.length + j)
    (pool.clients t.job.client) t.phase
  rw [hstep, sourceIndex_add, Option.map_some] at hrename
  have hcrew : (crew A req S pool).step (some j) = some (crew A req S
      { clients := Function.update pool.clients t.job.client c
        threads := Function.update pool.threads (S.length + j) (some { t with phase := p }) }) := by
    rw [System.step, crew_threads ht, Option.bind_some]
    simp only [crew, hrename, Option.map_some, Option.some.injEq, System.mk.injEq]
    constructor
    · funext k
      by_cases hk : k = t.job.client
      · subst hk
        simp
      · simp [hk]
    · funext o
      cases o with
      | none => rfl
      | some k =>
        by_cases hk : k = j
        · subst hk
          simp
        · have hne : (k : ℕ) ≠ j := fun he => hk (Fin.ext he)
          simp [hk, hne]
  obtain ⟨sched, hsched⟩ := h.run
  exact ⟨⟨sched ++ [some j], exec_append.2 ⟨_, hsched, exec_singleton.2 hcrew⟩⟩, hnamed, hle⟩

/-- The crew has one thread for each source. -/
theorem count_crew :
    count (fun o => ∃ job ∈ crewJobs A req S o, job.client = A) = S.length := by
  rw [count_eq_sum, Fintype.sum_option]
  simp [crewJobs, jobOf]

namespace Client

variable {ι ι' : Type} (f : ι → ι') (c : Client ι)

@[simp] theorem rename_delivered : (c.rename f).delivered = c.delivered := by
  simp [delivered, rename_received, List.countP_map, Function.comp_def]

@[simp] theorem rename_recharged : (c.rename f).recharged = c.recharged := by
  simp [recharged, rename_received, Function.comp_def]

end Client

namespace System

variable {ι : Type} [DecidableEq ι] [Fintype ι] {B : κ} {s : System ι κ} {sched : List ι}
  {owners : κ → Client ι} {jobs : ι → Option (Job κ)} {M : ℕ}

/-- The bounds of the credit hold in every run. -/
theorem within_run (hM : M = count fun i => ∃ job ∈ jobs i, job.client = B)
    (h : exec step (init owners jobs) sched = some s) :
    s.Within B (owners B).credit.toInt M := by
  rw [hM]
  exact exec_inv (fun hW hs => within_step (owners B).credit.toInt_lt hW hs) within_init h

end System

/-! ## The program -/

namespace Process

variable {env : Environment} {s : Process} {as : List Action} {n : ℕ}

/-- The call for task `n` has not begun, or its pool is a state of the crew. -/
theorem call_crew (h : exec (step env) (init env) as = some s) (n : ℕ) :
    s.callState env n = Service.init env.client env.contentSources n (env.request n) ∨
      Service.CallInv n (env.request n) env.contentSources
        (CrewOK n (env.request n) env.contentSources env.client) (s.callState env n) :=
  Service.callInv_run crewOK_init (fun hp hsrc => hp.spawn hsrc) (fun hp hi => hp.step hi)
    (ofCall_move as n) (exec_callState h n)

/-- The pool of the call for task `n` is that of a run of its crew. -/
def RunsCrew (env : Environment) (s : Process) (n : ℕ) : Prop := ∃ sched,
  exec System.step (crewStart n (env.request n) env.contentSources env.client) sched =
    some (crew n (env.request n) env.contentSources (s.callState env n).pool)

/-- **Each call in a run of the program is a run of its crew.** -/
theorem exec_crew (h : exec (step env) (init env) as = some s) (n : ℕ) : s.RunsCrew env n := by
  unfold RunsCrew
  rcases call_crew h n with hinit | ⟨-, -, d, -, hp⟩
  · rw [hinit]
    exact crewOK_init.run
  · exact hp.run

/-- When the call has returned, no thread is about to send a result. -/
theorem crew_returned (h : exec (step env) (init env) as = some s)
    (hret : s.hasReturned n = true) :
    count ((crew n (env.request n) env.contentSources (s.callState env n).pool).Calls n ·
      .pushSearchResultFound) = 0 := by
  rw [hasReturned_iff env] at hret
  rcases call_crew h n with hinit | ⟨-, -, d, hc, -⟩
  · rw [hinit] at hret
    cases hret
  · simp only [Service.CallerOK, hret] at hc
    obtain ⟨rfl, hended⟩ := hc
    refine count_eq_zero.2 ?_
    rintro o ⟨t, ht, -, hcall⟩
    cases o with
    | none => cases ht
    | some j =>
      have hend := hended j j.isLt
      simp only [Service.ended, decide_eq_true_eq, Option.map_eq_some_iff] at hend
      obtain ⟨u, hu, hfinished⟩ := hend
      rw [crew_threads hu] at ht
      cases ht
      rw [hfinished] at hcall
      cases hcall

/-- All results that a client is sent are for its request. -/
theorem delivered_card (h : exec (step env) (init env) as = some s) (n : ℕ) :
    (s.delivered env n).card = (s.pool.clients n).delivered := by
  unfold delivered Client.results Client.delivered
  rw [Multiset.coe_card, List.length_map, List.length_filterMap_eq_countP]
  refine List.countP_congr ?_
  intro m hm
  cases hmsg : m.2 with
  | searchResultFound req r =>
    have hreq := received_request h hm hmsg
    simp [Message.resultFor, Message.isResult, hreq]
  | notEnoughCredit | creditRechargeResponse | noSearchResultsFound =>
    simp [Message.resultFor, Message.isResult]

/-- **The account of a Premium client**, who had a credit of 15, with one thread for each of the `M`
sources: its credit stays within bounds, at most `M - 1` of its results are free for each recharge,
and once more; and once its call has returned, it has been sent its answer, and has paid for no
more than that. -/
structure Charged (env : Environment) (s : Process) (n : ℕ) : Prop where
  /-- All results that it is sent are for its request. -/
  own : (s.pool.clients n).delivered = (s.delivered env n).card
  nonneg : 0 ≤ (s.pool.clients n).credit.toInt
  le : (s.pool.clients n).credit.toInt ≤ max 15 (15 * env.contentSources.length)
  free : 15 * (((s.pool.clients n).delivered : ℤ) -
      (15 + (s.pool.clients n).recharged - (s.pool.clients n).credit.toInt)) ≤
    ((env.contentSources.length - 1 : ℕ) : ℤ) * ((s.pool.clients n).recharged + 15)
  earned : s.hasReturned n = true → s.delivered env n = env.answer n ∧
    15 + (s.pool.clients n).recharged - (s.pool.clients n).credit.toInt ≤ (env.answer n).card

/-- **A Premium client is charged for its answer**, up to the race on its credit. -/
theorem premium_charged (henv : env.Tame) (hfit : 15 * env.contentSources.length < 2 ^ 31)
    (h : exec (step env) (init env) as = some s) (hprem : (env.draws n).premium = true) :
    s.Charged env n := by
  obtain ⟨hI, hA⟩ := apart_run h
  obtain ⟨sched, hsched⟩ := exec_crew h n
  have hM := (@count_crew _ n (env.request n) env.contentSources _).symm
  have hcredit : (env.client n : Client ℕ).credit.toInt = 15 := by
    simp [Environment.client, Client.createRandom, hprem]
  have hW := System.within_run hM hsched
  have hL := System.lossy_run hM (by simp [hcredit]) hfit hsched
  set t := crew n (env.request n) env.contentSources (s.callState env n).pool with ht
  -- the client of the crew is that of the program, but for the names of its threads
  have hclient : t.clients n =
      ((s.pool.clients n).rename Prod.snd).rename (sourceIndex env.contentSources) := by
    rw [← callState_client hI (hA n)]
    rfl
  have hfloor := hW.floor hfit
  have hbounded := hW.bounded
  have hfree := hL.bound (by omega) (by omega)
  have hnonneg := hL.nonneg
  have hbalance : t.balance n = (t.clients n).delivered + (t.clients n).credit.toInt -
      (t.clients n).recharged + count (t.Calls n · .pushSearchResultFound) := by
    rw [System.balance, Finset.sum_boole]
    rfl
  unfold System.Bounded at hbounded
  rw [hbalance] at hfree hnonneg
  simp only [hclient, Client.rename_credit, Client.rename_delivered, Client.rename_recharged,
    hcredit] at hfloor hbounded hfree hnonneg
  have hown := delivered_card h n
  refine ⟨hown.symm, by omega, by omega, by omega, ?_⟩
  intro hret
  have hnone : count (t.Calls n · .pushSearchResultFound) = 0 := crew_returned h hret
  have hanswer := delivered_returned h hprem (henv.limits n) hret
  rw [hanswer] at hown
  exact ⟨hanswer, by omega⟩

/-- A Standard client goes on not using credit. -/
theorem standard_credit (h : exec (step env) (init env) as = some s)
    (hstd : (env.draws n).premium = false) :
    (s.pool.clients n).credit = Client.notUsingCredit := by
  obtain ⟨hI, hA⟩ := apart_run h
  have hcredit : (env.client n : Client ℕ).credit = Client.notUsingCredit := by
    simp [Environment.client, Client.createRandom, hstd]
  have hclient := congrArg Client.credit (callState_client hI (hA n))
  rw [Client.rename_credit] at hclient
  rw [← hclient, ← hcredit]
  rcases standard_call h hstd with hinit | ⟨-, -, d, -, hp⟩
  · rw [hinit]
    rfl
  · exact hp.credit_eq

/-- **What the clients of the program pay**, on short texts and with non-empty queries, and with so
few files that the recharges of a client fit its credit: in every state of every run, the call for a
client is a run of its crew; Premium clients are charged for their answers, up to the race on the
credit, and Standard clients go on not using credit. -/
theorem clients_charged (henv : env.Tame) (hfit : 15 * env.contentSources.length < 2 ^ 31)
    (h : exec (step env) (init env) as = some s) (n : ℕ) :
    s.RunsCrew env n ∧
      if (env.draws n).premium then s.Charged env n
      else (s.pool.clients n).credit = Client.notUsingCredit := by
  refine ⟨exec_crew h n, ?_⟩
  split_ifs with hprem
  · exact premium_charged henv hfit h hprem
  · exact standard_credit h (Bool.eq_false_of_not_eq_true hprem)

theorem clients_charged_sample : sampleAnswered.RunsCrew sampleEnvironment 14 ∧
    sampleAnswered.Charged sampleEnvironment 14 :=
  clients_charged sampleEnvironment_tame (by decide +kernel) sampleAnswered_run 14

end Process

end MTFind2
