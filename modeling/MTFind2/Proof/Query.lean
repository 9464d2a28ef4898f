import MTFind2.Proof.Scan
import MTFind2.Spec.Service
import Mathlib.Algebra.BigOperators.Group.Multiset.Basic

/-!
# Concurrent search refines sequential search

`PoolOK` is the state of the threads that a call of `query` has spawned: each is
at a point of its own scan and has sent exactly the results of that point, and
nobody else has sent anything. `CallerOK` is the caller's side: how far it has
spawned and joined. Both are kept by every step of the service
(`step_queryInv`), so after the call has returned every thread has ended its scan
(`query_ended`).

`query_refines_sequential`: for a Premium client, whatever the interleaving, what
is delivered is the sum of the single-threaded runs over the sources registered
when the call took the lock.
-/

namespace MTFind2

open Run

variable {κ : Type} {A : κ} {req : SearchRequest} {S : List ContentSource} {n d : ℕ}

/-- The call of `find_in_source` made for a source. -/
def jobOf (A : κ) (req : SearchRequest) (source : ContentSource) : Job κ := ⟨A, source, req⟩

/-- Thread `n + j` runs the search of the `j`-th source `src` and has sent what its scan has
found so far. -/
def ThreadOK (A : κ) (req : SearchRequest) (pool : System ℕ κ) (i : ℕ) (src : ContentSource) :
    Prop :=
  ∃ p m, pool.threads i = some ⟨jobOf A req src, p⟩ ∧
    (jobOf A req src).scanAt m = (p.scan, (jobOf A req src).sentBy i (pool.clients A))

/-- **The pool after `d` of the sources `S` have got their threads**, named from `n` on. -/
structure PoolOK (A : κ) (req : SearchRequest) (S : List ContentSource) (n d : ℕ)
    (pool : System ℕ κ) : Prop where
  prem : (pool.clients A).subscriptionType = .premium
  thread : ∀ j < d, ∃ src, S[j]? = some src ∧ ThreadOK A req pool (n + j) src
  none : ∀ i, i < n ∨ n + d ≤ i → pool.threads i = none
  tags : ∀ m ∈ (pool.clients A).results req, n ≤ m.1 ∧ m.1 < n + d

/-- Before any thread is spawned. -/
theorem poolOK_init {clients : κ → Client ℕ} (hprem : (clients A).subscriptionType = .premium) :
    PoolOK A req S n 0 (System.init clients fun _ => none) where
  prem := hprem
  thread j hj := absurd hj (Nat.not_lt_zero j)
  none _ _ := rfl
  tags m hm := by simp [System.init] at hm

/-- Nothing has been sent by a thread that does not exist yet. -/
theorem PoolOK.sentBy_nil {pool : System ℕ κ} (h : PoolOK A req S n d pool) (src : ContentSource)
    {i : ℕ} (hi : i < n ∨ n + d ≤ i) : (jobOf A req src).sentBy i (pool.clients A) = [] := by
  refine Merge.part_eq_nil fun m hm => ?_
  have := h.tags m hm
  omega

/-- **Spawning the next thread keeps the pool in order.** -/
theorem PoolOK.spawn {pool : System ℕ κ} (h : PoolOK A req S n d pool) {src : ContentSource}
    (hsrc : S[d]? = some src) :
    PoolOK A req S n (d + 1) { pool with
      threads := Function.update pool.threads (n + d)
        (some ⟨jobOf A req src, (jobOf A req src).start⟩) } := by
  constructor
  · exact h.prem
  · intro j hj
    by_cases hjd : j = d
    · subst hjd
      refine ⟨src, hsrc, (jobOf A req src).start, 0, by simp, ?_⟩
      rw [Job.scanAt_zero]
      simp [h.sentBy_nil src (i := n + j) (by omega)]
    · obtain ⟨src', hsrc', p, m, hp, hm⟩ := h.thread j (by omega)
      exact ⟨src', hsrc', p, m, by simp [hjd, hp], hm⟩
  · intro i hi
    have : i ≠ n + d := by omega
    simpa [this] using h.none i (by omega)
  · intro m hm
    have := h.tags m hm
    omega

namespace Service

section Steps

variable [DecidableEq κ]

/-- The steps of a service. -/
inductive Step (s : Service κ) : Move → Service κ → Prop
  | addContentSource (source : ContentSource) (hl : s.locked = false) :
      Step s (.addContentSource source) { s with contentSources := s.contentSources ++ [source] }
  | acquire (hp : s.phase = .called) (hl : s.locked = false) : Step s .caller { s with
      locked := true
      threads := List.replicate s.contentSources.length none
      phase := .spawning s.contentSources }
  | spawned (hp : s.phase = .spawning []) : Step s .caller { s with phase := .joining 0 }
  | spawn (source : ContentSource) (rest : List ContentSource)
      (hp : s.phase = .spawning (source :: rest)) :
      Step s .caller { s.spawn source with phase := .spawning rest }
  | join (k i : ℕ) (hp : s.phase = .joining k) (hk : s.threads[k]? = some (some i))
      (hend : s.ended i = true) :
      Step s .caller { s with threads := s.threads.set k none, phase := .joining (k + 1) }
  | notJoinable (k : ℕ) (hp : s.phase = .joining k) (hk : s.threads[k]? = some none) :
      Step s .caller { s with phase := .joining (k + 1) }
  | release (k : ℕ) (hp : s.phase = .joining k) (hk : s.threads[k]? = none) :
      Step s .caller { s with threads := [], locked := false, phase := .returned }
  | thread (i : ℕ) (pool : System ℕ κ) (hi : s.pool.step i = some pool) :
      Step s (.thread i) { s with pool }

/-- **What a step does**, one case for each. -/
theorem step_cases {s s' : Service κ} {m : Move} (h : s.step m = some s') : Step s m s' := by
  cases m with
  | addContentSource source =>
    simp only [step] at h
    split at h
    · cases h
    · rename_i hl
      cases h
      exact .addContentSource source (by simpa using hl)
  | thread i =>
    obtain ⟨pool, hi, rfl⟩ := Option.map_eq_some_iff.1 h
    exact .thread i pool hi
  | caller =>
    simp only [step, stepCaller] at h
    split at h
    · rename_i hp
      split at h
      · cases h
      · rename_i hl
        cases h
        exact .acquire hp (by simpa using hl)
    · rename_i hp
      cases h
      exact .spawned hp
    · rename_i source rest hp
      cases h
      exact .spawn source rest hp
    · rename_i k hp
      split at h
      · rename_i i hk
        split at h
        · rename_i hend
          cases h
          exact .join k i hp hk hend
        · cases h
      · rename_i hk
        cases h
        exact .notJoinable k hp hk
      · rename_i hk
        cases h
        exact .release k hp hk
    · cases h

end Steps

/-- How far the caller of `query` is, with `d` threads spawned. -/
def CallerOK (S : List ContentSource) (d : ℕ) (s : Service κ) : Prop :=
  match s.phase with
  | .called => False
  | .spawning rest => rest = S.drop d ∧ d ≤ S.length ∧
      s.threads = List.replicate S.length none ++ (List.range d).map fun j => some (S.length + j)
  | .joining k => d = S.length ∧ s.threads.length = 2 * d ∧
      ∀ j < d, (d + j < k → s.ended (d + j) = true) ∧
        (k ≤ d + j → s.threads[d + j]? = some (some (d + j)))
  | .returned => d = S.length ∧ ∀ j < d, s.ended (d + j) = true

/-- **The invariant of a call** that found the sources `S` registered. -/
def QueryInv (A : κ) (req : SearchRequest) (S : List ContentSource) (s : Service κ) : Prop :=
  s.client = A ∧ s.request = req ∧ ∃ d, CallerOK S d s ∧ PoolOK A req S S.length d s.pool

/-- An entry that is passed over by the joining loop belongs to a thread that has ended. -/
theorem joined_next {s : Service κ} {k : ℕ}
    (hj : ∀ j < d, (d + j < k → s.ended (d + j) = true) ∧
      (k ≤ d + j → s.threads[d + j]? = some (some (d + j))))
    (hk : ∀ i, s.threads[k]? = some (some i) → s.ended i = true) :
    ∀ j < d, d + j < k + 1 → s.ended (d + j) = true := by
  intro j hjd hlt
  rcases Nat.lt_or_ge (d + j) k with hlt' | hge
  · exact (hj j hjd).1 hlt'
  · obtain rfl : k = d + j := by omega
    exact hk _ ((hj j hjd).2 le_rfl)

/-- **After the return every thread has ended its scan**, and nobody else has sent anything. -/
theorem query_ended {s : Service κ} (h : QueryInv A req S s) (hret : s.phase = .returned) :
    PoolOK A req S S.length S.length s.pool ∧ ∀ j src, S[j]? = some src →
      ∃ m, (jobOf A req src).scanAt m =
        (.finished, (jobOf A req src).sentBy (S.length + j) (s.pool.clients A)) := by
  obtain ⟨-, -, d, hc, hp⟩ := h
  simp only [CallerOK, hret] at hc
  obtain ⟨rfl, hend⟩ := hc
  refine ⟨hp, ?_⟩
  intro j src hsrc
  obtain ⟨hj, -⟩ := List.getElem?_eq_some_iff.1 hsrc
  obtain ⟨src', hsrc', p, m, hp', hm⟩ := hp.thread j hj
  rw [hsrc] at hsrc'
  cases hsrc'
  have he := hend j hj
  simp only [ended, hp', Option.map_some, Option.some.injEq, decide_eq_true_eq] at he
  subst he
  exact ⟨m, hm⟩

end Service

variable [DecidableEq κ]

/-- **A step of a thread keeps the pool in order**: the moving thread follows its scan, and what
the others have sent stays. -/
theorem PoolOK.step {pool pool' : System ℕ κ} {i : ℕ} (h : PoolOK A req S n d pool)
    (hs : pool.step i = some pool') : PoolOK A req S n d pool' := by
  obtain ⟨t, c, p, ht, hstep, rfl⟩ := System.step_cases hs
  -- the thread that moves is one of those spawned
  have hrange : n ≤ i ∧ i < n + d := by
    by_contra hc
    rw [h.none i (by omega)] at ht
    cases ht
  obtain ⟨src, hsrc, p₀, m, hi, hm⟩ := h.thread (i - n) (by omega)
  rw [Nat.add_sub_cancel' hrange.1] at hi hm
  rw [hi] at ht
  cases ht
  change (jobOf A req src).step i (pool.clients A) p₀ = some (c, p) at hstep
  constructor
  · simpa [jobOf] using ((jobOf A req src).step_subscriptionType hstep).trans h.prem
  · intro j hj
    by_cases hij : n + j = i
    · -- the moving thread stays at its scan or goes one step on
      obtain rfl : j = i - n := by omega
      refine ⟨src, hsrc, p, ?_⟩
      rw [hij]
      rcases (jobOf A req src).step_premium h.prem hstep with he | he
      · exact ⟨m, by simp, by rw [hm, ← he]; simp [jobOf]⟩
      · exact ⟨m + 1, by simp, by rw [Job.scanAt_succ, hm, ← he]; simp [jobOf]⟩
    · obtain ⟨src', hsrc', p', m', hj', hm'⟩ := h.thread j hj
      refine ⟨src', hsrc', p', m', by simp [hij, hj'], ?_⟩
      rw [hm']
      simp only [jobOf, Function.update_self, Prod.mk.injEq, true_and]
      exact ((jobOf A req src).step_sentBy_ne (jobOf A req src') hstep hij).symm
  · intro j hj
    have : j ≠ i := by omega
    simpa [this] using h.none j hj
  · intro m hm
    simp only [jobOf, Function.update_self] at hm
    obtain ⟨new, hnew, hown⟩ := (jobOf A req src).step_results hstep req
    rw [hnew] at hm
    rcases List.mem_append.1 hm with hm | hm
    · exact h.tags m hm
    · rw [hown m hm]; exact hrange

namespace Service

/-- A thread that has ended stays so. -/
theorem ended_step {s : Service κ} {pool : System ℕ κ} {i j : ℕ} (hs : s.pool.step i = some pool)
    (h : s.ended j = true) : ({ s with pool } : Service κ).ended j = true := by
  obtain ⟨t, c, p, ht, hstep, rfl⟩ := System.step_cases hs
  by_cases hij : j = i
  · subst hij
    simp only [ended, ht, Option.map_some, Option.some.injEq, decide_eq_true_eq] at h
    rw [h] at hstep
    cases hstep
  · simpa [ended, hij] using h

/-- The caller's side does not change when a thread moves. -/
theorem CallerOK.thread {s : Service κ} {pool : System ℕ κ} {i : ℕ} (h : CallerOK S d s)
    (hs : s.pool.step i = some pool) : CallerOK S d ({ s with pool } : Service κ) := by
  unfold CallerOK at h ⊢
  dsimp only
  cases hp : s.phase with
  | called => rw [hp] at h; exact h
  | spawning rest => rw [hp] at h; exact h
  | joining k =>
    rw [hp] at h
    obtain ⟨h1, h2, h3⟩ := h
    exact ⟨h1, h2, fun j hj => ⟨fun hk => ended_step hs ((h3 j hj).1 hk), (h3 j hj).2⟩⟩
  | returned =>
    rw [hp] at h
    exact ⟨h.1, fun j hj => ended_step hs (h.2 j hj)⟩

/-- The caller's side of a call, and what `P` says of the pool for the threads spawned so far. -/
def CallInv (A : κ) (req : SearchRequest) (S : List ContentSource) (P : ℕ → System ℕ κ → Prop)
    (s : Service κ) : Prop :=
  s.client = A ∧ s.request = req ∧ ∃ d, CallerOK S d s ∧ P d s.pool

/-- **What spawning and the steps of the threads keep, every step of the service keeps.** -/
theorem step_callInv {P : ℕ → System ℕ κ → Prop}
    (hspawn : ∀ {d : ℕ} {pool : System ℕ κ} {src : ContentSource}, P d pool → S[d]? = some src →
      P (d + 1) { pool with
        threads := Function.update pool.threads (S.length + d)
          (some ⟨jobOf A req src, (jobOf A req src).start⟩) })
    (hthread : ∀ {d i : ℕ} {pool pool' : System ℕ κ}, P d pool → pool.step i = some pool' →
      P d pool')
    {s s' : Service κ} {m : Move} (h : CallInv A req S P s) (hs : s.step m = some s') :
    CallInv A req S P s' := by
  obtain ⟨hA, hreq, d, hc, hp⟩ := h
  unfold CallerOK at hc
  cases step_cases hs with
  | addContentSource source hl => exact ⟨hA, hreq, d, hc, hp⟩
  | acquire hph hl =>
    rw [hph] at hc
    exact hc.elim
  | spawned hph =>
    rw [hph] at hc
    obtain ⟨hrest, hd, hth⟩ := hc
    have hdS : d = S.length := by
      have := List.drop_eq_nil_iff.1 hrest.symm
      omega
    have hlen : s.threads.length = 2 * d := by
      rw [hth, List.length_append, List.length_replicate, List.length_map, List.length_range]
      omega
    -- the vector starts with as many entries that are not joinable as there are sources
    have hentry : ∀ j < d, s.threads[d + j]? = some (some (d + j)) := by
      intro j hj
      rw [hth, List.getElem?_append_right (by simp; omega)]
      simp [← hdS, hj]
    refine ⟨hA, hreq, d, ⟨hdS, hlen, ?_⟩, hp⟩
    intro j hj
    exact ⟨fun h => by omega, fun _ => hentry j hj⟩
  | spawn src rest hph =>
    rw [hph] at hc
    obtain ⟨hrest, hd, hth⟩ := hc
    have hlt : d < S.length := by
      by_contra hge
      rw [List.drop_eq_nil_iff.2 (by omega)] at hrest
      cases hrest
    rw [List.drop_eq_getElem_cons hlt] at hrest
    obtain ⟨hsrc, hrest⟩ := List.cons.inj hrest
    have hlen : s.threads.length = S.length + d := by simp [hth]
    have hsrc' : S[d]? = some src := by rw [List.getElem?_eq_getElem hlt, hsrc]
    refine ⟨hA, hreq, d + 1, ⟨hrest, hlt, ?_⟩, ?_⟩
    · simp only [Service.spawn, hlen]
      rw [hth, List.append_assoc, List.range_succ, List.map_append]
      rfl
    · simp only [Service.spawn, hlen, hA, hreq]
      exact hspawn hp hsrc'
  | join k i hph hk hend =>
    rw [hph] at hc
    obtain ⟨hd, hlen, hj⟩ := hc
    have hended : ∀ i', s.threads[k]? = some (some i') → s.ended i' = true := by
      intro i' hk'
      rw [hk] at hk'
      cases hk'
      exact hend
    have hnext := joined_next hj hended
    have hlater : ∀ j < d, k + 1 ≤ d + j →
        (s.threads.set k none)[d + j]? = some (some (d + j)) := by
      intro j hjd hle
      have hne : k ≠ d + j := by omega
      rw [List.getElem?_set_ne hne]
      exact (hj j hjd).2 (by omega)
    have hlen' : (s.threads.set k none).length = 2 * d := by simpa using hlen
    exact ⟨hA, hreq, d, ⟨hd, hlen', fun j hjd => ⟨hnext j hjd, hlater j hjd⟩⟩, hp⟩
  | notJoinable k hph hk =>
    rw [hph] at hc
    obtain ⟨hd, hlen, hj⟩ := hc
    have hended : ∀ i, s.threads[k]? = some (some i) → s.ended i = true := by
      intro i hk'
      rw [hk] at hk'
      cases hk'
    have hnext := joined_next hj hended
    have hlater : ∀ j < d, k + 1 ≤ d + j → s.threads[d + j]? = some (some (d + j)) := by
      intro j hjd hle
      exact (hj j hjd).2 (by omega)
    exact ⟨hA, hreq, d, ⟨hd, hlen, fun j hjd => ⟨hnext j hjd, hlater j hjd⟩⟩, hp⟩
  | release k hph hk =>
    rw [hph] at hc
    obtain ⟨hd, hlen, hj⟩ := hc
    have hge := List.getElem?_eq_none_iff.1 hk
    have hended : ∀ j < d, s.ended (d + j) = true := by
      intro j hjd
      exact (hj j hjd).1 (by omega)
    exact ⟨hA, hreq, d, ⟨hd, hended⟩, hp⟩
  | thread i pool hi => exact ⟨hA, hreq, d, CallerOK.thread hc hi, hthread hp hi⟩

/-- **Every step of the service keeps the invariant of the call.** -/
theorem step_queryInv {s s' : Service κ} {m : Move} (h : QueryInv A req S s)
    (hs : s.step m = some s') : QueryInv A req S s' :=
  step_callInv (fun hp hsrc => hp.spawn hsrc) (fun hp hi => hp.step hi) h hs

/-- Before the call takes the lock no thread exists. -/
def Waiting (clients : κ → Client ℕ) (A : κ) (req : SearchRequest) (s : Service κ) : Prop :=
  s.client = A ∧ s.request = req ∧
    (s.phase = .called → s.pool = System.init clients fun _ => none)

theorem step_waiting {clients : κ → Client ℕ} {s s' : Service κ} {m : Move}
    (h : Waiting clients A req s) (hs : s.step m = some s') : Waiting clients A req s' := by
  obtain ⟨hA, hreq, hpool⟩ := h
  cases step_cases hs with
  | addContentSource => exact ⟨hA, hreq, hpool⟩
  | acquire | spawned | spawn | join | notJoinable | release =>
    exact ⟨hA, hreq, fun h => by cases h⟩
  | thread i pool hi =>
    refine ⟨hA, hreq, ?_⟩
    intro hc
    rw [hpool hc] at hi
    cases hi

/-- Taking the lock starts the caller's side, with the sources registered then. -/
theorem acquire_callInv {P : ℕ → System ℕ κ → Prop} {clients : κ → Client ℕ}
    (hP : P 0 (System.init clients fun _ => none)) {sources : List ContentSource}
    {before : List Move} {s₁ s₂ : Service κ}
    (h₁ : exec step (init clients sources A req) before = some s₁) (hcalled : s₁.phase = .called)
    (h₂ : s₁.step .caller = some s₂) : CallInv A req s₁.contentSources P s₂ := by
  have h0 : Waiting clients A req (init clients sources A req) := ⟨rfl, rfl, fun _ => rfl⟩
  obtain ⟨hA, hreq, hpool⟩ := exec_inv step_waiting h0 h₁
  cases step_cases h₂ with
  | acquire hp hl =>
    exact ⟨hA, hreq, 0, ⟨by simp, Nat.zero_le _, by simp⟩, by simpa only [hpool hcalled] using hP⟩
  | spawned hp | spawn _ _ hp | join _ _ hp | notJoinable _ hp | release _ hp =>
    rw [hcalled] at hp
    cases hp

/-- **Taking the lock starts the invariant**, with the sources registered then. -/
theorem acquire_queryInv {clients : κ → Client ℕ} (hprem : (clients A).subscriptionType = .premium)
    {sources : List ContentSource} {before : List Move} {s₁ s₂ : Service κ}
    (h₁ : exec step (init clients sources A req) before = some s₁) (hcalled : s₁.phase = .called)
    (h₂ : s₁.step .caller = some s₂) : QueryInv A req s₁.contentSources s₂ :=
  acquire_callInv (poolOK_init hprem) h₁ hcalled h₂

/-- **Concurrent search refines sequential search.** A call of `query` for a Premium client takes
the lock in state `s₁`, after any calls of `add_content_source`, and returns in state `s₃`, after
any interleaving. There are result lists `R`, one for each source, such that

* a single-threaded run on a source registered at `s₁` ends and delivers `R` of it, whatever the
  credit of the Premium client;
* what the call delivers is the sum of `R` over the sources registered at `s₁`;
* each spawned thread delivers `R` of its source, in that order. -/
theorem query_refines_sequential {clients : κ → Client ℕ}
    (hprem : (clients A).subscriptionType = .premium) {sources : List ContentSource}
    {before after : List Move} {s₁ s₂ s₃ : Service κ}
    (h₁ : exec step (init clients sources A req) before = some s₁) (hcalled : s₁.phase = .called)
    (h₂ : s₁.step .caller = some s₂) (h₃ : exec step s₂ after = some s₃)
    (hret : s₃.phase = .returned) :
    ∃ R : ContentSource → List SearchResult,
      (∀ src ∈ s₁.contentSources, ∀ (i : ℕ) (c : Client ℕ), c.subscriptionType = .premium →
        (jobOf A req src).Delivers i c (R src)) ∧
      ((((s₃.pool.clients A).results req).map Prod.snd : List SearchResult) :
          Multiset SearchResult) =
        (s₁.contentSources.map fun src => (R src : Multiset SearchResult)).sum ∧
      ∀ j src, s₁.contentSources[j]? = some src →
        (jobOf A req src).sentBy (s₁.contentSources.length + j) (s₃.pool.clients A) = R src := by
  classical
  set S := s₁.contentSources
  have hq : QueryInv A req S s₃ := exec_inv step_queryInv (acquire_queryInv hprem h₁ hcalled h₂) h₃
  obtain ⟨hp, hend⟩ := query_ended hq hret
  -- `R` is the outcome of the scan, where it has one
  let R : ContentSource → List SearchResult := fun src =>
    if h : ∃ out n, (jobOf A req src).scanAt n = (.finished, out) then h.choose else []
  have hR : ∀ j src, S[j]? = some src →
      (jobOf A req src).sentBy (S.length + j) (s₃.pool.clients A) = R src := by
    intro j src hsrc
    obtain ⟨m, hm⟩ := hend j src hsrc
    have hex : ∃ out n, (jobOf A req src).scanAt n = (.finished, out) := ⟨_, m, hm⟩
    obtain ⟨m', hm'⟩ := hex.choose_spec
    simp only [R, dif_pos hex]
    exact (jobOf A req src).scan_unique hm hm'
  refine ⟨R, ?_, ?_, hR⟩
  · intro src hsrc i c hc
    obtain ⟨j, hj⟩ := List.getElem?_of_mem hsrc
    obtain ⟨m, hm⟩ := hend j src hj
    rw [hR j src hj] at hm
    exact (jobOf A req src).delivers_of_scan hc hm
  · -- the log is the sum of what each thread has sent
    rw [Merge.sum_part (T := Finset.Ico S.length (S.length + S.length))
      fun m hm => Finset.mem_Ico.2 (hp.tags m hm), Finset.sum_Ico_eq_sum_range,
      Nat.add_sub_cancel]
    exact Merge.sum_range_getElem? fun j src hj => by rw [← hR j src hj]; rfl

/-! ### A run with two threads on one source -/

/-- Two lines with a match of `a` each. -/
def sampleSource : ContentSource where
  filePath := ⟨[115], by decide⟩
  lines := [⟨[97, 32, 98], by decide⟩, ⟨[98, 97], by decide⟩]
  lines_lt := by decide

def sampleRequest : SearchRequest := ⟨0, .singleton 97, 0⟩

def sampleClients : Unit → Client ℕ := fun _ => ⟨0, .premium, 1, []⟩

/-- The source is registered a second time before the call takes the lock. -/
def sampleRegistered : Service Unit :=
  (exec step (init sampleClients [sampleSource] () sampleRequest)
    [.addContentSource sampleSource]).get (by decide +kernel)

def sampleLocked : Service Unit := (sampleRegistered.step .caller).get (by decide +kernel)

/-- Thread 2 uses the credit up while thread 3 is stopped after its check. -/
def sampleMoves : List Move :=
  [.caller, .thread 2, .caller, .thread 3] ++ List.replicate 2 (.thread 2) ++
    List.replicate 9 (.thread 3) ++ List.replicate 5 (.thread 2) ++ List.replicate 6 .caller

def sampleReturned : Service Unit := (exec step sampleLocked sampleMoves).get (by decide +kernel)

theorem query_refines_sequential_sample :
    ∃ R : ContentSource → List SearchResult,
      (∀ src ∈ sampleRegistered.contentSources, ∀ (i : ℕ) (c : Client ℕ),
        c.subscriptionType = .premium → (jobOf () sampleRequest src).Delivers i c (R src)) ∧
      ((((sampleReturned.pool.clients ()).results sampleRequest).map Prod.snd :
          List SearchResult) : Multiset SearchResult) =
        (sampleRegistered.contentSources.map fun src => (R src : Multiset SearchResult)).sum ∧
      ∀ j src, sampleRegistered.contentSources[j]? = some src →
        (jobOf () sampleRequest src).sentBy (sampleRegistered.contentSources.length + j)
          (sampleReturned.pool.clients ()) = R src := by
  have h₁ : exec step (init sampleClients [sampleSource] () sampleRequest)
      [.addContentSource sampleSource] = some sampleRegistered := (Option.some_get _).symm
  have h₂ : sampleRegistered.step .caller = some sampleLocked := (Option.some_get _).symm
  have h₃ : exec step sampleLocked sampleMoves = some sampleReturned := (Option.some_get _).symm
  exact query_refines_sequential rfl h₁ (by decide +kernel) h₂ h₃ (by decide +kernel)

end Service

end MTFind2
