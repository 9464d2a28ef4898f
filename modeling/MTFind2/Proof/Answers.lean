import MTFind2.Proof.Projection
import MTFind2.Proof.QueryEnds
import MTFind2.Proof.Billing
import MTFind2.Proof.Refusal
import Mathlib.Algebra.Order.BigOperators.Group.Finset

/-!
# What the clients of the program are told

For every run of the whole program, and every task:

* `premium_answered`: a Premium client has at no time been delivered anything but part of
  its answer (`Environment.answer`), and all of it once its call has returned.
* `standard_refused`: a Standard client is never delivered a result; once its call has
  returned it has been refused once for each source with a line.
* `received_request`: the results that a client is sent are for its request.
-/

namespace MTFind2

open Run

namespace Service

variable {κ : Type} {A : κ} {req : SearchRequest} {S : List ContentSource} {s : Service κ}

/-- No more threads are spawned than there are sources. -/
theorem CallerOK.le {d : ℕ} (h : CallerOK S d s) : d ≤ S.length := by
  unfold CallerOK at h
  cases hp : s.phase <;> rw [hp] at h
  case called => exact h.elim
  case spawning => exact h.2.1
  case joining => exact h.1.le
  case returned => exact h.1.le

/-- **A Premium client has only been delivered results of the sources**, each at most as often as it
is there. -/
theorem delivered_le (hlimits : Limits S req) (h : QueryInv A req S s) :
    ((((s.pool.clients A).results req).map Prod.snd : List SearchResult) : Multiset SearchResult) ≤
      (S.map fun src => ((jobOf A req src).found : Multiset SearchResult)).sum := by
  obtain ⟨-, -, d, hc, hp⟩ := h
  have hd := hc.le
  have hsum : (S.map fun src => ((jobOf A req src).found : Multiset SearchResult)).sum =
      ∑ j ∈ Finset.range S.length, ((S[j]?.map fun src =>
        ((jobOf A req src).found : Multiset SearchResult)).getD 0) := by
    refine (Merge.sum_range_getElem? ?_).symm
    intro j src hsrc
    rw [hsrc]
    rfl
  rw [hsum, Merge.sum_part (T := Finset.Ico S.length (S.length + S.length))
    fun m hm => Finset.mem_Ico.2 (by have := hp.tags m hm; omega), Finset.sum_Ico_eq_sum_range,
    Nat.add_sub_cancel]
  refine Finset.sum_le_sum ?_
  intro j hj
  by_cases hjd : j < d
  · obtain ⟨src, hsrc, p, m, -, hm⟩ := hp.thread j hjd
    have hpre : ((jobOf A req src).scanAt m).2 <+: (jobOf A req src).found :=
      Job.scanAt_prefix_found (hlimits.1 src (List.mem_of_getElem? hsrc)) hlimits.2 m
    rw [hm] at hpre
    rw [hsrc]
    exact hpre.sublist.subperm
  · -- the thread of this source does not exist yet
    have hnil : Merge.part (S.length + j) ((s.pool.clients A).results req) = [] := by
      refine Merge.part_eq_nil ?_
      intro m hm
      have := hp.tags m hm
      omega
    rw [hnil]
    exact Multiset.zero_le _

/-- What a client without credit has been sent, at any time. -/
theorem refused_messages {credit : Int32}
    (h : CallInv A req S (RefusedOK A req credit S S.length) s) :
    ∀ m ∈ (s.pool.clients A).received,
      m.2 = .notEnoughCredit ∨ m.2 = .creditRechargeResponse 0 := by
  obtain ⟨-, -, d, -, hp⟩ := h
  intro m hm
  have htag := hp.tags m hm
  obtain ⟨src, p, -, -, hrefuses⟩ := hp.thread (m.1 - S.length) (by omega)
  rw [Nat.add_sub_cancel' htag.1] at hrefuses
  have hmem : m.2 ∈ Merge.part m.1 (s.pool.clients A).received := by
    unfold Merge.part
    exact List.mem_map_of_mem (List.mem_filter.2 ⟨hm, by simp⟩)
  cases p with
  | checking f | requesting f sem =>
    rw [hrefuses.2] at hmem
    cases hmem
  | waiting f sem | consuming f b | delivering f b => exact hrefuses.elim
  | finished =>
    have heq : Merge.part m.1 (s.pool.clients A).received = src.refusal := hrefuses
    rw [heq, ContentSource.refusal] at hmem
    split at hmem
    · cases hmem
    · simpa using hmem

variable [DecidableEq κ] {clients : κ → Client ℕ} {moves : List Move}

/-- A run of the moves of a call starts with taking the lock. -/
theorem run_cases (hm : ∀ m ∈ moves, m.ofCall = true)
    (h : exec step (init clients S A req) moves = some s) :
    s = init clients S A req ∨ ∃ t after, (init clients S A req).step .caller = some t ∧
      exec step t after = some s ∧ ∀ m ∈ after, m.ofCall = true := by
  cases moves with
  | nil =>
    cases h
    exact .inl rfl
  | cons m moves =>
    obtain ⟨t, ht, hafter⟩ := exec_cons.1 h
    have hrest : ∀ m ∈ moves, m.ofCall = true := fun m' hm' => hm m' (List.mem_cons_of_mem _ hm')
    cases m with
    | addContentSource source => cases hm _ List.mem_cons_self
    | caller => exact .inr ⟨t, moves, ht, hafter, hrest⟩
    | thread i => cases ht

/-- The caller's side of a call, once it has the lock. -/
theorem callInv_run {P : ℕ → System ℕ κ → Prop} (hP : P 0 (System.init clients fun _ => none))
    (hspawn : ∀ {d : ℕ} {pool : System ℕ κ} {src : ContentSource}, P d pool → S[d]? = some src →
      P (d + 1) { pool with
        threads := Function.update pool.threads (S.length + d)
          (some ⟨jobOf A req src, (jobOf A req src).start⟩) })
    (hthread : ∀ {d i : ℕ} {pool pool' : System ℕ κ}, P d pool → pool.step i = some pool' →
      P d pool')
    (hm : ∀ m ∈ moves, m.ofCall = true)
    (h : exec step (init clients S A req) moves = some s) :
    s = init clients S A req ∨ CallInv A req S P s := by
  rcases run_cases hm h with h | ⟨t, after, ht, h, -⟩
  · exact .inl h
  · have h₁ : exec step (init clients S A req) [] = some (init clients S A req) := rfl
    have hlocked : CallInv A req S P t := acquire_callInv hP h₁ rfl ht
    exact .inr (exec_inv (fun hi hs => step_callInv @hspawn @hthread hi hs) hlocked h)

end Service

/-- The threads of the pool are `d` threads named from `n` on. -/
def NamedFrom {κ : Type} (n d : ℕ) (pool : System ℕ κ) : Prop :=
  ∀ i, i < n ∨ n + d ≤ i → pool.threads i = none

namespace NamedFrom

variable {κ : Type} {n d i : ℕ} {pool pool' : System ℕ κ}

theorem init {clients : κ → Client ℕ} : NamedFrom n 0 (System.init clients fun _ => none) :=
  fun _ _ => rfl

theorem range (h : NamedFrom n d pool) {t : Thread κ} (ht : pool.threads i = some t) :
    n ≤ i ∧ i < n + d := by
  by_contra hout
  rw [h i (by omega)] at ht
  cases ht

theorem spawn (h : NamedFrom n d pool) (t : Thread κ) :
    NamedFrom n (d + 1) { pool with
      threads := Function.update pool.threads (n + d) (some t) } := by
  intro j hj
  have hne : j ≠ n + d := by omega
  simpa [hne] using h j (by omega)

theorem step [DecidableEq κ] (h : NamedFrom n d pool) (hs : pool.step i = some pool') :
    NamedFrom n d pool' := by
  obtain ⟨t, c, p, ht, -, rfl⟩ := System.step_cases hs
  have hrange := h.range ht
  intro j hj
  have hne : j ≠ i := by omega
  simpa [hne] using h j hj

end NamedFrom

/-- **The threads of a call search for its request**, and so do the results in it. -/
structure Asks {κ : Type} (A : κ) (req : SearchRequest) (pool : System ℕ κ) : Prop where
  jobs : ∀ i t, pool.threads i = some t → t.job.client = A ∧ t.job.request = req
  results : ∀ m ∈ (pool.clients A).received, ∀ req' r, m.2 = .searchResultFound req' r → req' = req

section Asks

variable {κ : Type} [DecidableEq κ] {A : κ} {req : SearchRequest} {pool pool' : System ℕ κ} {i : ℕ}

omit [DecidableEq κ] in
theorem asks_init {clients : κ → Client ℕ} : Asks A req (System.init clients fun _ => none) where
  jobs i t ht := by cases ht
  results m hm := by cases hm

omit [DecidableEq κ] in
theorem Asks.spawn (h : Asks A req pool) {source : ContentSource} :
    Asks A req { pool with
      threads := Function.update pool.threads i
        (some ⟨jobOf A req source, (jobOf A req source).start⟩) } := by
  refine ⟨?_, h.results⟩
  intro j t ht
  by_cases hj : j = i
  · subst hj
    simp only [Function.update_self, Option.some.injEq] at ht
    rw [← ht]
    exact ⟨rfl, rfl⟩
  · exact h.jobs j t (by simpa [hj] using ht)

theorem Asks.step (h : Asks A req pool) (hs : pool.step i = some pool') : Asks A req pool' := by
  obtain ⟨⟨job, phase⟩, c, p, ht, hstep, rfl⟩ := System.step_cases hs
  obtain ⟨hclient, hreq⟩ := h.jobs i _ ht
  constructor
  · intro j u hu
    by_cases hj : j = i
    · subst hj
      simp only [Function.update_self, Option.some.injEq] at hu
      rw [← hu]
      exact ⟨hclient, hreq⟩
    · exact h.jobs j u (by simpa [hj] using hu)
  · intro m hm req' r hmr
    dsimp only at hclient hreq hstep
    simp only [hclient, Function.update_self] at hm
    rw [hclient] at hstep
    cases job.step_cases hstep with
    | check | wait => exact h.results m hm req' r hmr
    | request f sem =>
      rw [Client.pushNotEnough_received] at hm
      rcases List.mem_append.1 hm with hm | hm
      · exact h.results m hm req' r hmr
      · simp only [List.mem_cons, List.not_mem_nil, or_false] at hm
        rcases hm with rfl | rfl <;> cases hmr
    | consume f b =>
      rw [Client.consumeCredit_received] at hm
      exact h.results m hm req' r hmr
    | deliver f b =>
      rw [Client.pushResult_received] at hm
      rcases List.mem_append.1 hm with hm | hm
      · exact h.results m hm req' r hmr
      · rw [List.mem_singleton.1 hm] at hmr
        cases hmr
        exact hreq

end Asks

/-! ## The program -/

/-- The texts have short lines, and the dictionary has no empty word. -/
structure Environment.Tame (env : Environment) : Prop where
  short : ∀ src ∈ env.contentSources, src.Short
  words : ∀ word ∈ env.dictionary.words, word.bytes ≠ []

/-- The query of a request is a word of the dictionary. -/
theorem Environment.query_mem (env : Environment) (n : ℕ) :
    (env.request n).query ∈ env.dictionary.words := by
  simp [request, SearchRequest.createRandom, Dictionary.randomWord]

theorem Environment.Tame.limits {env : Environment} (h : env.Tame) (n : ℕ) :
    Limits env.contentSources (env.request n) :=
  ⟨h.short, h.words _ (env.query_mem n)⟩

/-- **The answer to request `n`**: the results of every source. -/
def Environment.answer (env : Environment) (n : ℕ) : Multiset SearchResult :=
  (env.contentSources.map fun src =>
    ((jobOf n (env.request n) src).found : Multiset SearchResult)).sum

/-- The refusal of request `n`: one for each source with a line. -/
def Environment.refusal (env : Environment) : Multiset Message :=
  (env.contentSources.map fun src => (src.refusal : Multiset Message)).sum

namespace Process

variable {env : Environment} {s : Process} {as : List Action} {n : ℕ}

/-- What client `n` has been delivered for its request. -/
def delivered (env : Environment) (s : Process) (n : ℕ) : Multiset SearchResult :=
  (((s.pool.clients n).results (env.request n)).map Prod.snd : List SearchResult)

/-- The moves of a call are those of its caller and its threads. -/
theorem ofCall_move (as : List Action) (n : ℕ) :
    ∀ m ∈ as.filterMap (Action.move n), m.ofCall = true := by
  intro m hm
  obtain ⟨a, -, ha⟩ := List.mem_filterMap.1 hm
  cases a with
  | caller k =>
    simp only [Action.move, Option.ite_none_right_eq_some, Option.some.injEq] at ha
    rw [← ha.2]
    rfl
  | thread k i =>
    simp only [Action.move, Option.ite_none_right_eq_some, Option.some.injEq] at ha
    rw [← ha.2]
    rfl
  | interrupt | main | mock | worker => cases ha

theorem delivered_eq (hI : Inv env s) (hA : Apart env s n) :
    s.delivered env n = ((((s.callState env n).pool.clients n).results (env.request n)).map
      Prod.snd : List SearchResult) := by
  rw [callState_client hI hA, Client.rename_results, List.map_map]
  rfl

/-- The call for a Premium client has not begun, or is on its way to the answer. -/
theorem premium_call (h : exec (step env) (init env) as = some s)
    (hprem : (env.draws n).premium = true) :
    s.callState env n = Service.init env.client env.contentSources n (env.request n) ∨
      Service.QueryInv n (env.request n) env.contentSources (s.callState env n) := by
  have hclient : (env.client n : Client ℕ).subscriptionType = .premium := by
    simp [Environment.client, Client.createRandom, hprem]
  exact Service.callInv_run (poolOK_init hclient) (fun hp hsrc => hp.spawn hsrc)
    (fun hp hi => hp.step hi) (ofCall_move as n) (exec_callState h n)

theorem delivered_le (h : exec (step env) (init env) as = some s)
    (hprem : (env.draws n).premium = true) (hlimits : Limits env.contentSources (env.request n)) :
    s.delivered env n ≤ env.answer n := by
  obtain ⟨hI, hA⟩ := apart_run h
  rw [delivered_eq hI (hA n)]
  rcases premium_call h hprem with hinit | hinv
  · rw [hinit]
    exact Multiset.zero_le _
  · exact Service.delivered_le hlimits hinv

theorem delivered_returned (h : exec (step env) (init env) as = some s)
    (hprem : (env.draws n).premium = true) (hlimits : Limits env.contentSources (env.request n))
    (hret : s.hasReturned n = true) : s.delivered env n = env.answer n := by
  obtain ⟨hI, hA⟩ := apart_run h
  rw [hasReturned_iff env] at hret
  rw [delivered_eq hI (hA n)]
  rcases premium_call h hprem with hinit | hinv
  · rw [hinit] at hret
    cases hret
  · exact Service.delivered_found hlimits hinv hret

/-- The worker serves the Premium client 14, and then the Standard client 13. -/
def sampleCalls : List Action :=
  sampleStart ++ List.replicate 3 (.caller 14) ++ List.replicate 8 (.thread 14 1) ++
    List.replicate 3 (.caller 14) ++
    [.worker 0 .done, .worker 0 .loop, .worker 0 (.draw 1), .worker 0 (.take 6), .worker 0 .hand] ++
    List.replicate 3 (.caller 13) ++ List.replicate 2 (.thread 13 1) ++
    List.replicate 3 (.caller 13) ++ [.worker 0 .done]

def sampleAnswered : Process :=
  (exec (step sampleEnvironment) (init sampleEnvironment) sampleCalls).get (by decide +kernel)

theorem sampleAnswered_run :
    exec (step sampleEnvironment) (init sampleEnvironment) sampleCalls = some sampleAnswered :=
  (Option.some_get _).symm

theorem sampleEnvironment_tame : sampleEnvironment.Tame :=
  ⟨by decide +kernel, by decide⟩

/-- What a client is sent, it is sent in its call. -/
theorem callState_received (h : exec (step env) (init env) as = some s)
    {m : (ℕ × ℕ) × Message} (hm : m ∈ (s.pool.clients n).received) :
    (m.1.2, m.2) ∈ ((s.callState env n).pool.clients n).received := by
  obtain ⟨hI, hA⟩ := apart_run h
  rw [callState_client hI (hA n), Client.rename_received]
  exact List.mem_map_of_mem hm

/-- **The results that a client is sent are for its request.** -/
theorem received_request (h : exec (step env) (init env) as = some s) {m : (ℕ × ℕ) × Message}
    (hm : m ∈ (s.pool.clients n).received) {req : SearchRequest} {r : SearchResult}
    (hmr : m.2 = .searchResultFound req r) : req = env.request n := by
  have hmem := callState_received h hm
  rcases Service.callInv_run (P := fun _ => Asks n (env.request n)) asks_init
    (fun hP _ => hP.spawn) (fun hP hi => hP.step hi) (ofCall_move as n) (exec_callState h n) with
    hinit | ⟨-, -, d, -, hP⟩
  · rw [hinit] at hmem
    cases hmem
  · exact hP.results _ hmem req r hmr

/-- **A Premium client is delivered its answer, and no other result**, in every run of the program:
at any time it has been delivered a part of its answer, and all of it once its call has returned;
and all results that it has been sent are for its request. -/
theorem premium_answered (h : exec (step env) (init env) as = some s) {n : ℕ}
    (hprem : (env.draws n).premium = true) (hlimits : Limits env.contentSources (env.request n)) :
    s.delivered env n ≤ env.answer n ∧
      (s.hasReturned n = true → s.delivered env n = env.answer n) ∧
      ∀ m ∈ (s.pool.clients n).received, ∀ req r, m.2 = .searchResultFound req r →
        req = env.request n :=
  ⟨delivered_le h hprem hlimits, delivered_returned h hprem hlimits,
    fun _ hm _ _ hmr => received_request h hm hmr⟩

theorem premium_answered_sample :
    sampleAnswered.delivered sampleEnvironment 14 ≤ sampleEnvironment.answer 14 ∧
      (sampleAnswered.hasReturned 14 = true →
        sampleAnswered.delivered sampleEnvironment 14 = sampleEnvironment.answer 14) ∧
      ∀ m ∈ (sampleAnswered.pool.clients 14).received, ∀ req r, m.2 = .searchResultFound req r →
        req = sampleEnvironment.request 14 :=
  premium_answered sampleAnswered_run rfl (sampleEnvironment_tame.limits 14)

/-- The call for a Standard client has not begun, or refuses it. -/
theorem standard_call (h : exec (step env) (init env) as = some s)
    (hstd : (env.draws n).premium = false) :
    s.callState env n = Service.init env.client env.contentSources n (env.request n) ∨
      Service.CallInv n (env.request n) env.contentSources
        (RefusedOK n (env.request n) (env.client n : Client ℕ).credit env.contentSources
          env.contentSources.length) (s.callState env n) := by
  have hclient : (env.client n : Client ℕ).subscriptionType = .standard := by
    simp [Environment.client, Client.createRandom, hstd]
  have hcredit : ¬ 0 < (env.client n : Client ℕ).credit := by
    simp [Environment.client, Client.createRandom, hstd, Client.notUsingCredit]
  exact Service.callInv_run (refusedOK_init hclient) (fun hp hsrc => hp.spawn hsrc)
    (fun hp hi => hp.step hcredit hi) (ofCall_move as n) (exec_callState h n)

theorem received_refused (h : exec (step env) (init env) as = some s)
    (hstd : (env.draws n).premium = false) :
    ∀ m ∈ (s.pool.clients n).received,
      m.2 = .notEnoughCredit ∨ m.2 = .creditRechargeResponse 0 := by
  intro m hm
  have hmem := callState_received h hm
  rcases standard_call h hstd with hinit | hinv
  · rw [hinit] at hmem
    cases hmem
  · exact Service.refused_messages hinv _ hmem

theorem received_returned (h : exec (step env) (init env) as = some s)
    (hstd : (env.draws n).premium = false) (hret : s.hasReturned n = true) :
    (((s.pool.clients n).received.map Prod.snd : List Message) : Multiset Message) =
      env.refusal := by
  obtain ⟨hI, hA⟩ := apart_run h
  have hmessages : ((s.callState env n).pool.clients n).received.map Prod.snd =
      (s.pool.clients n).received.map Prod.snd := by
    rw [callState_client hI (hA n), Client.rename_received, List.map_map]
    rfl
  rw [hasReturned_iff env] at hret
  rw [← hmessages]
  rcases standard_call h hstd with hinit | hinv
  · rw [hinit] at hret
    cases hret
  · exact (Service.refused_returned hinv hret).1

/-- **A Standard client is refused once for each source**, in every run of the program: at any time
it has been sent requests for credit and recharges of zero only, and when its call has returned, one
of each for every source with a line. -/
theorem standard_refused (h : exec (step env) (init env) as = some s) {n : ℕ}
    (hstd : (env.draws n).premium = false) :
    (∀ m ∈ (s.pool.clients n).received,
        m.2 = .notEnoughCredit ∨ m.2 = .creditRechargeResponse 0) ∧
      (s.hasReturned n = true →
        (((s.pool.clients n).received.map Prod.snd : List Message) : Multiset Message) =
          env.refusal) :=
  ⟨received_refused h hstd, received_returned h hstd⟩

theorem standard_refused_sample :
    (∀ m ∈ (sampleAnswered.pool.clients 13).received,
        m.2 = .notEnoughCredit ∨ m.2 = .creditRechargeResponse 0) ∧
      (sampleAnswered.hasReturned 13 = true →
        (((sampleAnswered.pool.clients 13).received.map Prod.snd : List Message) :
            Multiset Message) = sampleEnvironment.refusal) :=
  standard_refused sampleAnswered_run rfl

end Process

end MTFind2
