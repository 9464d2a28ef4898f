import MTFind2.Proof.Query

/-!
# Calls of `query` for a client without credit

A Standard client without credit, such as every one that `create_random` makes, is
searched by one thread per source like any other. Each thread asks it for credit once,
is answered with a recharge of zero, and ends.

* `refuses_step`: a thread sends nothing up to its request for credit, and then the
  request and its answer.
* `refused_once`: so when the call has returned, the client has been sent one request and
  one answer for each source that has a line, and nothing else.
-/

namespace MTFind2

open Run

/-- What the search of a source sends to a client without credit. -/
def ContentSource.refusal (src : ContentSource) : List Message :=
  if src.lines = [] then [] else [.notEnoughCredit, .creditRechargeResponse 0]

/-- A thread that searches `src` for a client without credit has sent `out`, and is here. -/
def Phase.Refuses (src : ContentSource) (out : List Message) : Phase → Prop
  | .checking _ | .requesting _ _ => src.lines ≠ [] ∧ out = []
  | .finished => out = src.refusal
  | .waiting _ _ | .consuming _ _ | .delivering _ _ => False

namespace Job

variable {ι κ : Type} [DecidableEq ι] (job : Job κ) {i : ι} {c c' : Client ι} {p p' : Phase}

theorem refuses_start : job.start.Refuses job.source [] := by
  unfold start
  cases h : job.source.lines with
  | nil => simp [Phase.enterLine, Phase.Refuses, ContentSource.refusal, h]
  | cons line later => simp [Phase.enterLine, Phase.Refuses, h]

/-- **A thread that serves a client without credit** is refused, and leaves its credit alone. -/
theorem refuses_step (hstd : c.subscriptionType = .standard) (hcredit : c.hasCredit = false)
    (hp : p.Refuses job.source (Merge.part i c.received))
    (h : job.step i c p = some (c', p')) :
    c'.credit = c.credit ∧ p'.Refuses job.source (Merge.part i c'.received) := by
  cases job.step_cases h with
  | check f =>
    rw [hcredit]
    exact ⟨rfl, hp⟩
  | request f sem =>
    obtain ⟨hlines, hout⟩ := hp
    rw [if_pos hstd]
    refine ⟨by simp [Client.pushNotEnough_credit, hstd], ?_⟩
    have hnew : Merge.part i [(i, Message.notEnoughCredit),
        (i, .creditRechargeResponse (PaymentService.answer c.subscriptionType
          Client.rechargeAmount))] = job.source.refusal := by
      simp [Merge.part, ContentSource.refusal, hlines, PaymentService.answer, hstd]
    rw [Client.pushNotEnough_received, Merge.part_append, hout, hnew]
    rfl
  | wait | consume | deliver => exact hp.elim

end Job

variable {κ : Type} {A : κ} {req : SearchRequest} {S : List ContentSource} {n d : ℕ}

/-- **The pool of a call for a client without credit**, after `d` of the sources `S` have got their
threads, named from `n` on. -/
structure RefusedOK (A : κ) (req : SearchRequest) (credit : Int32) (S : List ContentSource)
    (n d : ℕ) (pool : System ℕ κ) : Prop where
  std : (pool.clients A).subscriptionType = .standard
  credit_eq : (pool.clients A).credit = credit
  thread : ∀ j < d, ∃ src p, S[j]? = some src ∧ pool.threads (n + j) = some ⟨jobOf A req src, p⟩ ∧
    p.Refuses src (Merge.part (n + j) (pool.clients A).received)
  unnamed : ∀ i, i < n ∨ n + d ≤ i → pool.threads i = none
  tags : ∀ m ∈ (pool.clients A).received, n ≤ m.1 ∧ m.1 < n + d

theorem refusedOK_init {clients : κ → Client ℕ}
    (hstd : (clients A).subscriptionType = .standard) :
    RefusedOK A req (clients A).credit S n 0 (System.init clients fun _ => none) where
  std := hstd
  credit_eq := rfl
  thread j hj := absurd hj (Nat.not_lt_zero j)
  unnamed _ _ := rfl
  tags m hm := by simp [System.init, Client.fresh] at hm

variable {credit : Int32}

theorem RefusedOK.spawn {pool : System ℕ κ} (h : RefusedOK A req credit S n d pool)
    {src : ContentSource} (hsrc : S[d]? = some src) :
    RefusedOK A req credit S n (d + 1) { pool with
      threads := Function.update pool.threads (n + d)
        (some ⟨jobOf A req src, (jobOf A req src).start⟩) } := by
  constructor
  · exact h.std
  · exact h.credit_eq
  · intro j hj
    by_cases hjd : j = d
    · subst hjd
      -- nothing was sent by a thread that did not exist
      have hnil : Merge.part (n + j) (pool.clients A).received = [] := by
        refine Merge.part_eq_nil ?_
        intro m hm
        have := h.tags m hm
        omega
      refine ⟨src, _, hsrc, by simp; rfl, ?_⟩
      rw [hnil]
      exact (jobOf A req src).refuses_start
    · obtain ⟨src', p, hsrc', hp, hm⟩ := h.thread j (by omega)
      exact ⟨src', p, hsrc', by simp [hjd, hp], hm⟩
  · intro i hi
    have hne : i ≠ n + d := by omega
    simpa [hne] using h.unnamed i (by omega)
  · intro m hm
    have := h.tags m hm
    omega

variable [DecidableEq κ]

/-- **A step of a thread keeps the pool in order.** -/
theorem RefusedOK.step (hcredit : ¬ 0 < credit) {pool pool' : System ℕ κ} {i : ℕ}
    (h : RefusedOK A req credit S n d pool) (hs : pool.step i = some pool') :
    RefusedOK A req credit S n d pool' := by
  obtain ⟨t, c, p, ht, hstep, rfl⟩ := System.step_cases hs
  have hrange : n ≤ i ∧ i < n + d := by
    by_contra hc
    rw [h.unnamed i (by omega)] at ht
    cases ht
  obtain ⟨src, p₀, hsrc, hi, hp₀⟩ := h.thread (i - n) (by omega)
  rw [Nat.add_sub_cancel' hrange.1] at hi hp₀
  rw [hi] at ht
  cases ht
  change (jobOf A req src).step i (pool.clients A) p₀ = some (c, p) at hstep
  have hbroke : (pool.clients A).hasCredit = false := by
    rw [Client.hasCredit, h.credit_eq]
    exact decide_eq_false hcredit
  obtain ⟨hc, hp⟩ := (jobOf A req src).refuses_step h.std hbroke hp₀ hstep
  constructor
  · simpa [jobOf] using ((jobOf A req src).step_subscriptionType hstep).trans h.std
  · simpa [jobOf] using hc.trans h.credit_eq
  · intro j hj
    by_cases hij : n + j = i
    · obtain rfl : j = i - n := by omega
      exact ⟨src, p, hsrc, by simp [hij], by simpa [hij, jobOf] using hp⟩
    · obtain ⟨src', p', hsrc', hj', hp'⟩ := h.thread j hj
      refine ⟨src', p', hsrc', by simp [hij, hj'], ?_⟩
      have hpart := (jobOf A req src).step_part_ne hstep hij
      simpa [jobOf, hpart] using hp'
  · intro j hj
    have hne : j ≠ i := by omega
    simpa [hne] using h.unnamed j hj
  · intro m hm
    obtain ⟨new, hnew, hown⟩ := (jobOf A req src).step_received hstep
    simp only [jobOf, Function.update_self, hnew] at hm
    rcases List.mem_append.1 hm with hm | hm
    · exact h.tags m hm
    · rw [hown m hm]
      exact hrange

namespace Service

omit [DecidableEq κ] in
/-- When the call has returned, each thread has ended with its refusal. -/
theorem refused_returned {s : Service κ}
    (h : CallInv A req S (RefusedOK A req credit S S.length) s) (hret : s.phase = .returned) :
    (((s.pool.clients A).received.map Prod.snd : List Message) : Multiset Message) =
        (S.map fun src => (src.refusal : Multiset Message)).sum ∧
      (s.pool.clients A).credit = credit ∧
      ∀ j src, S[j]? = some src →
        Merge.part (S.length + j) (s.pool.clients A).received = src.refusal := by
  obtain ⟨-, -, d, hc, hp⟩ := h
  simp only [CallerOK, hret] at hc
  obtain ⟨rfl, hend⟩ := hc
  have hparts : ∀ j src, S[j]? = some src →
      Merge.part (S.length + j) (s.pool.clients A).received = src.refusal := by
    intro j src hsrc
    obtain ⟨hj, -⟩ := List.getElem?_eq_some_iff.1 hsrc
    obtain ⟨src', p, hsrc', hp', hm⟩ := hp.thread j hj
    rw [hsrc] at hsrc'
    cases hsrc'
    have he := hend j hj
    simp only [ended, hp', Option.map_some, Option.some.injEq, decide_eq_true_eq] at he
    subst he
    exact hm
  refine ⟨?_, hp.credit_eq, hparts⟩
  rw [Merge.sum_part (T := Finset.Ico S.length (S.length + S.length))
    fun m hm => Finset.mem_Ico.2 (hp.tags m hm), Finset.sum_Ico_eq_sum_range,
    Nat.add_sub_cancel]
  exact Merge.sum_range_getElem? fun j src hj => by rw [hparts j src hj]

/-- **A client without credit is refused once per source.** A call of `query` for a Standard client
without credit takes the lock in state `s₁` and returns in state `s₃`, after any interleaving. The
client has been sent one request for credit and one recharge of zero for each source with a line
that was registered at `s₁`, by the thread of that source, and nothing else. -/
theorem refused_once {clients : κ → Client ℕ}
    (hstd : (clients A).subscriptionType = .standard) (hcredit : (clients A).hasCredit = false)
    {sources : List ContentSource} {before after : List Move} {s₁ s₂ s₃ : Service κ}
    (h₁ : exec step (init clients sources A req) before = some s₁) (hcalled : s₁.phase = .called)
    (h₂ : s₁.step .caller = some s₂) (h₃ : exec step s₂ after = some s₃)
    (hret : s₃.phase = .returned) :
    (((s₃.pool.clients A).received.map Prod.snd : List Message) : Multiset Message) =
        (s₁.contentSources.map fun src => (src.refusal : Multiset Message)).sum ∧
      (s₃.pool.clients A).credit = (clients A).credit ∧
      ∀ j src, s₁.contentSources[j]? = some src →
        Merge.part (s₁.contentSources.length + j) (s₃.pool.clients A).received = src.refusal := by
  have hbroke : ¬ 0 < (clients A).credit := of_decide_eq_false hcredit
  set S := s₁.contentSources
  have hcall : CallInv A req S (RefusedOK A req (clients A).credit S S.length) s₂ :=
    acquire_callInv (refusedOK_init hstd) h₁ hcalled h₂
  have hinv := exec_inv (step_callInv (fun h hsrc => h.spawn hsrc) fun h hs => h.step hbroke hs)
    hcall h₃
  exact refused_returned hinv hret

/-- A service that searches `sampleSource` for a client as the program creates it. -/
def standardService : Service Unit :=
  init (fun _ => Client.createRandom 0 false) [sampleSource] () sampleRequest

def standardLocked : Service Unit := (standardService.step .caller).get (by decide +kernel)

def standardReturned : Service Unit :=
  (exec step standardLocked
    ([.caller, .thread 1, .caller, .thread 1] ++ List.replicate 3 .caller)).get (by decide +kernel)

theorem refused_once_standard :
    (((standardReturned.pool.clients ()).received.map Prod.snd : List Message) : Multiset Message) =
        (standardService.contentSources.map fun src => (src.refusal : Multiset Message)).sum ∧
      (standardReturned.pool.clients ()).credit = Client.notUsingCredit ∧
      ∀ j src, standardService.contentSources[j]? = some src →
        Merge.part (standardService.contentSources.length + j)
          (standardReturned.pool.clients ()).received = src.refusal :=
  have h₁ : exec step standardService [] = some standardService := rfl
  refused_once rfl rfl h₁ rfl (Option.some_get _).symm (Option.some_get _).symm
    (by decide +kernel)

end Service

end MTFind2
