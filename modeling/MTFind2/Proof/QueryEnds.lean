import MTFind2.Lib.Ending
import MTFind2.Proof.Enumeration
import MTFind2.Proof.Query

/-!
# Every call of `query` returns

A thread of `find_in_source` has a rank that each of its steps lowers: four times what
is left of its scan, and where it is in the exchange about credit (`rank_step`). It can
move until it has finished, since its semaphore is notified before it waits
(`exists_step`). The rank of a call adds up those of its threads, those of the threads to
come, and what the caller has to do (`Service.rank`).

* `ready_step`: what a call is made of is kept, and every step of the call lowers its rank.
* `ready_progress`: a call that has not returned can move.
* `query_returns`: so on short texts with a non-empty query a call of `query` returns
  under every schedule that keeps moving, for every client and whatever its credit.
-/

namespace MTFind2

open Run

/-- The semaphore of a thread that asks for credit is zero, and was notified before it waits. -/
def Phase.Awake : Phase → Prop
  | .requesting _ semaphore => semaphore.count = 0
  | .waiting _ semaphore => semaphore.count ≠ 0
  | _ => True

/-- How far the thread is from the next step of its scan. -/
def Phase.offset : Phase → ℕ
  | .checking _ => 3
  | .requesting _ _ | .consuming _ _ => 2
  | .waiting _ _ | .delivering _ _ => 1
  | .finished => 0

theorem Phase.offset_le (p : Phase) : p.offset ≤ 3 := by
  cases p <;> simp [offset]

theorem Phase.awake_enterLine (n : UInt64) (lines : List StdString) :
    (enterLine n lines).Awake := by
  cases lines <;> trivial

theorem Phase.awake_loopHead (f : Frame) : f.loopHead.Awake := by
  unfold Frame.loopHead
  split
  · exact awake_enterLine _ _
  · trivial

namespace Job

variable {ι κ : Type} (job : Job κ)

theorem awake_search (f : Frame) : (job.search f).Awake := by
  rcases job.search_cases f with h | ⟨f', b, h, -⟩
  · rw [h]
    exact Phase.awake_enterLine _ _
  · rw [h]
    trivial

/-- The scan after its next step. -/
def nextScan : Scan → Scan
  | .searching f => (job.search f).scan
  | .found f _ => f.loopHead.scan
  | .finished => .finished

theorem scanStep_fst (x : Scan × List SearchResult) :
    (job.scanStep x).1 = job.nextScan x.1 := by
  obtain ⟨s, out⟩ := x
  cases s <;> rfl

theorem scanAt_fst (n : ℕ) : (job.scanAt n).1 = job.nextScan^[n] job.start.scan := by
  induction n with
  | zero => rfl
  | succ n ih => rw [scanAt_succ, scanStep_fst, ih, Function.iterate_succ_apply']

/-- The scan that the thread is at comes to its end. -/
def Limited (p : Phase) : Prop := Reaches job.nextScan (· = .finished) p.scan

/-- **The rank of a thread.** -/
noncomputable def rank (p : Phase) : ℕ :=
  4 * left job.nextScan (· = .finished) p.scan + p.offset

theorem rank_finished : job.rank .finished = 0 := by
  have h : left job.nextScan (· = Scan.finished) Scan.finished = 0 := left_of rfl
  unfold rank Phase.scan
  rw [h]
  rfl

variable {job}

/-- On short lines the scan for a non-empty query ends, with the results of the whole source. -/
theorem scan_found (hshort : job.source.Short) (hq : job.request.query.bytes ≠ []) :
    ∃ n, job.scanAt n = (.finished, job.found) :=
  scan_ends hshort hq (positions_selects hq)

/-- **What a scan has found at any time is a first part of what there is.** -/
theorem scanAt_prefix_found (hshort : job.source.Short) (hq : job.request.query.bytes ≠ [])
    (m : ℕ) : (job.scanAt m).2 <+: job.found := by
  obtain ⟨n, hn⟩ := job.scan_found hshort hq
  have h : (job.scanAt m).2 <+: (job.scanAt (max m n)).2 := job.scanAt_prefix (le_max_left m n)
  rwa [job.scanAt_finished hn _ (le_max_right m n)] at h

/-- A search starts limited if the query is not empty and the lines are short. -/
theorem limited_start (hshort : job.source.Short) (hq : job.request.query.bytes ≠ []) :
    job.Limited job.start := by
  obtain ⟨n, hn⟩ := scan_found hshort hq
  refine ⟨n, ?_⟩
  rw [← scanAt_fst, hn]

variable {i : ι} {c c' : Client ι} {p p' : Phase}

/-- A step of the scan lowers the rank, wherever the thread is in the exchange about credit. -/
theorem rank_next (h : job.Limited p) (hp : p.scan ≠ .finished)
    (hnext : p'.scan = job.nextScan p.scan) (hoff : 0 < p.offset) :
    job.Limited p' ∧ job.rank p' < job.rank p := by
  have hleft := left_apply h hp
  have hle := p'.offset_le
  unfold Limited rank
  rw [hnext]
  exact ⟨h.apply hp, by omega⟩

/-- Any other step stays at its scan and goes on in the exchange about credit. -/
theorem rank_same (h : job.Limited p) (hsame : p'.scan = p.scan) (hoff : p'.offset < p.offset) :
    job.Limited p' ∧ job.rank p' < job.rank p := by
  unfold Limited rank
  rw [hsame]
  exact ⟨h, by omega⟩

/-- **Every step of a thread lowers its rank.** -/
theorem rank_step (h : job.Limited p) (hs : job.step i c p = some (c', p')) :
    job.Limited p' ∧ job.rank p' < job.rank p := by
  cases job.step_cases hs with
  | check f =>
    by_cases hc : c.hasCredit = true
    · rw [if_pos hc]
      exact rank_next h (by simp [Phase.scan]) rfl (by simp [Phase.offset])
    · rw [if_neg hc]
      exact rank_same h rfl (by simp [Phase.offset])
  | request f sem =>
    -- a Standard client is cut off here
    by_cases hstd : c.subscriptionType = .standard
    · rw [if_pos hstd]
      refine ⟨⟨0, rfl⟩, ?_⟩
      rw [rank_finished]
      simp [rank, Phase.offset]
    · rw [if_neg hstd]
      exact rank_same h rfl (by simp [Phase.offset])
  | wait f sem _ => exact rank_next h (by simp [Phase.scan]) rfl (by simp [Phase.offset])
  | consume f b => exact rank_same h rfl (by simp [Phase.offset])
  | deliver f b => exact rank_next h (by simp [Phase.scan]) rfl (by simp [Phase.offset])

/-- **A thread waits only on a semaphore that was notified.** -/
theorem awake_step (h : p.Awake) (hs : job.step i c p = some (c', p')) : p'.Awake := by
  cases job.step_cases hs with
  | check f =>
    by_cases hc : c.hasCredit = true
    · rw [if_pos hc]
      exact job.awake_search f
    · rw [if_neg hc]
      rfl
  | request f sem =>
    by_cases hstd : c.subscriptionType = .standard
    · rw [if_pos hstd]
      trivial
    · rw [if_neg hstd]
      have hzero : sem.count = 0 := h
      simp [Phase.Awake, Semaphore.notify, hzero]
  | wait f sem _ => exact job.awake_search f
  | consume f b => trivial
  | deliver f b => exact Phase.awake_loopHead f

/-- **A thread can move until it has finished.** -/
theorem exists_step (i : ι) (c : Client ι) (h : p.Awake) (hp : p ≠ .finished) :
    ∃ r, job.step i c p = some r := by
  cases p with
  | checking f => exact ⟨_, rfl⟩
  | requesting f sem => exact ⟨_, rfl⟩
  | waiting f sem =>
    have hne : sem.count ≠ 0 := h
    exact ⟨(c, job.search f), by simp [step, stepGiven, Semaphore.wait, hne]⟩
  | consuming f b => exact ⟨_, rfl⟩
  | delivering f b => exact ⟨_, rfl⟩
  | finished => exact absurd rfl hp

end Job

/-- The query is not empty, and the sources have short lines. -/
def Limits (S : List ContentSource) (req : SearchRequest) : Prop :=
  (∀ src ∈ S, src.Short) ∧ req.query.bytes ≠ []

instance (S : List ContentSource) (req : SearchRequest) : Decidable (Limits S req) :=
  inferInstanceAs (Decidable (_ ∧ _))

/-- The move is one of the call: of its caller, or of a thread. -/
def Move.ofCall : Move → Bool
  | .addContentSource _ => false
  | .caller | .thread _ => true

/-- The sources that have no thread yet, with `S` registered. -/
def QueryPhase.pending (S : List ContentSource) : QueryPhase → List ContentSource
  | .called => S
  | .spawning rest => rest
  | .joining _ | .returned => []

namespace Service

variable {κ : Type} {A : κ} {req : SearchRequest} {S : List ContentSource} {s s' : Service κ}
  {m : Move}

/-- What the caller has to do. -/
def callerRank (S : List ContentSource) (s : Service κ) : ℕ :=
  match s.phase with
  | .called => 3 * S.length + 3
  | .spawning rest => s.threads.length + 2 * rest.length + 2
  | .joining k => s.threads.length - k + 1
  | .returned => 0

/-- What thread `i` has to do. -/
noncomputable def threadRank (pool : System ℕ κ) (i : ℕ) : ℕ :=
  ((pool.threads i).map fun t => t.job.rank t.phase).getD 0

/-- What the thread of a source has to do when it is spawned. -/
noncomputable def startRank (A : κ) (req : SearchRequest) (src : ContentSource) : ℕ :=
  (jobOf A req src).rank (jobOf A req src).start

/-- **The rank of a call** that found the sources `S` registered. -/
noncomputable def rank (A : κ) (req : SearchRequest) (S : List ContentSource) (s : Service κ) : ℕ :=
  s.callerRank S + ((s.phase.pending S).map (startRank A req)).sum +
    ∑ i ∈ Finset.range (2 * S.length), threadRank s.pool i

/-- The names of the threads so far are below this. -/
def named (S : List ContentSource) (s : Service κ) : ℕ :=
  match s.phase with
  | .called => 0
  | .spawning _ => s.threads.length
  | .joining _ | .returned => 2 * S.length

/-- **What a call is made of**, with the sources `S` registered. -/
structure Ready (A : κ) (req : SearchRequest) (S : List ContentSource) (s : Service κ) : Prop where
  client : s.client = A
  request : s.request = req
  called : s.phase = .called → s.contentSources = S
  fits : ∀ rest, s.phase = .spawning rest →
    s.threads.length + rest.length ≤ 2 * S.length ∧ rest ⊆ S
  unnamed : ∀ i, s.named S ≤ i → s.pool.threads i = none
  awake : ∀ i t, s.pool.threads i = some t → t.phase.Awake
  limited : Limits S req → ∀ i t, s.pool.threads i = some t → t.job.Limited t.phase
  joinable : ∀ i, some i ∈ s.threads → s.pool.threads i ≠ none

theorem ready_init (clients : κ → Client ℕ) : Ready A req S (init clients S A req) where
  client := rfl
  request := rfl
  called _ := rfl
  fits rest h := by cases h
  unnamed _ _ := rfl
  awake i t h := by cases h
  limited _ i t h := by cases h
  joinable i h := by cases h

theorem threadRank_none {pool : System ℕ κ} {i : ℕ} (h : pool.threads i = none) :
    threadRank pool i = 0 := by
  simp [threadRank, h]

theorem threadRank_some {pool : System ℕ κ} {i : ℕ} {t : Thread κ} (h : pool.threads i = some t) :
    threadRank pool i = t.job.rank t.phase := by
  simp [threadRank, h]

/-- The names of the threads fit the vector. -/
theorem Ready.named_le (h : Ready A req S s) : s.named S ≤ 2 * S.length := by
  unfold named
  cases hp : s.phase with
  | called => exact Nat.zero_le _
  | spawning rest =>
    have := (h.fits rest hp).1
    simp only
    omega
  | joining k => exact le_rfl
  | returned => exact le_rfl

/-- A thread has one of the names. -/
theorem Ready.name_lt (h : Ready A req S s) {i : ℕ} {t : Thread κ}
    (ht : s.pool.threads i = some t) : i < 2 * S.length := by
  by_contra hge
  have hnone := h.unnamed i (by have := h.named_le; omega)
  rw [ht] at hnone
  cases hnone

variable [DecidableEq κ]

/-- **A step of a thread** keeps what the call is made of, and lowers its rank. -/
theorem ready_thread (h : Ready A req S s) {i : ℕ} {pool : System ℕ κ}
    (hi : s.pool.step i = some pool) :
    Ready A req S { s with pool } ∧ (Limits S req →
      ({ s with pool } : Service κ).rank A req S + 1 ≤ s.rank A req S) := by
  obtain ⟨t, c, p, ht, hstep, rfl⟩ := System.step_cases hi
  have hlt := h.name_lt ht
  constructor
  · refine ⟨h.client, h.request, h.called, h.fits, ?_, ?_, ?_, ?_⟩
    · intro j hj
      have hnone : s.pool.threads j = none := h.unnamed j hj
      have hne : j ≠ i := by
        rintro rfl
        rw [ht] at hnone
        cases hnone
      simpa [hne] using hnone
    · intro j u hu
      by_cases hj : j = i
      · subst hj
        simp only [Function.update_self, Option.some.injEq] at hu
        subst hu
        exact t.job.awake_step (h.awake j t ht) hstep
      · exact h.awake j u (by simpa [hj] using hu)
    · intro hl j u hu
      by_cases hj : j = i
      · subst hj
        simp only [Function.update_self, Option.some.injEq] at hu
        subst hu
        exact (t.job.rank_step (h.limited hl j t ht) hstep).1
      · exact h.limited hl j u (by simpa [hj] using hu)
    · intro j hj
      by_cases hji : j = i
      · simp [hji]
      · simpa [hji] using h.joinable j hj
  · -- the sum over the threads changes by the part of this one
    intro hl
    have hrank := (t.job.rank_step (h.limited hl i t ht) hstep).2
    set pool : System ℕ κ :=
      { clients := Function.update s.pool.clients t.job.client c
        threads := Function.update s.pool.threads i (some { t with phase := p }) } with hpool
    have hsum := sum_move (Finset.mem_range.2 hlt) (f := threadRank s.pool) (g := threadRank pool)
      (fun j hj => by simp [threadRank, hpool, hj])
    have hnew : threadRank pool i = t.job.rank p := by simp [threadRank, hpool]
    rw [threadRank_some ht, hnew] at hsum
    unfold rank callerRank
    simp only
    omega

omit [DecidableEq κ] in
/-- **Spawning a thread** moves the part of its source to the threads. -/
theorem ready_spawn (h : Ready A req S s) {source : ContentSource} {rest : List ContentSource}
    (hp : s.phase = .spawning (source :: rest)) :
    Ready A req S { s.spawn source with phase := .spawning rest } ∧
      ({ s.spawn source with phase := .spawning rest } : Service κ).rank A req S + 1 ≤
        s.rank A req S := by
  obtain ⟨hfit, hsub⟩ := h.fits _ hp
  rw [List.length_cons] at hfit
  have hnone : s.pool.threads s.threads.length = none := h.unnamed _ (by simp [named, hp])
  have hclient := h.client
  have hrequest := h.request
  constructor
  · refine ⟨h.client, h.request, fun hc => (by cases hc), ?_, ?_, ?_, ?_, ?_⟩
    · intro rest' hrest
      cases hrest
      refine ⟨?_, fun src hsrc => hsub (List.mem_cons_of_mem _ hsrc)⟩
      simp only [Service.spawn, List.length_append, List.length_singleton]
      omega
    · intro j hj
      simp only [named, Service.spawn, List.length_append, List.length_singleton] at hj ⊢
      have hne : j ≠ s.threads.length := by omega
      rw [Function.update_of_ne hne]
      exact h.unnamed j (by simp only [named, hp]; omega)
    · intro j u hu
      by_cases hj : j = s.threads.length
      · subst hj
        simp only [Service.spawn, Function.update_self, Option.some.injEq] at hu
        subst hu
        exact Phase.awake_enterLine _ _
      · exact h.awake j u (by simpa [Service.spawn, hj] using hu)
    · intro hl j u hu
      by_cases hj : j = s.threads.length
      · subst hj
        simp only [Service.spawn, Function.update_self, Option.some.injEq, hclient,
          hrequest] at hu
        subst hu
        exact Job.limited_start (hl.1 source (hsub List.mem_cons_self)) hl.2
      · exact h.limited hl j u (by simpa [Service.spawn, hj] using hu)
    · intro j hj
      by_cases hji : j = s.threads.length
      · simp [Service.spawn, hji]
      · have hj' : some j ∈ s.threads := by
          simpa [Service.spawn, hji] using hj
        simpa [Service.spawn, hji] using h.joinable j hj'
  · have hmem : s.threads.length ∈ Finset.range (2 * S.length) := Finset.mem_range.2 (by omega)
    have hsum := sum_move hmem (f := threadRank s.pool) (g := threadRank (s.spawn source).pool)
      (fun j hj => by simp [threadRank, Service.spawn, hj])
    have hnew : threadRank (s.spawn source).pool s.threads.length = startRank A req source := by
      simp [threadRank, Service.spawn, startRank, jobOf, hclient, hrequest]
    rw [threadRank_none hnone, hnew] at hsum
    have hlen : (s.spawn source).threads.length = s.threads.length + 1 := by simp [Service.spawn]
    unfold rank callerRank
    simp only [hp, QueryPhase.pending, List.map_cons, List.sum_cons, List.length_cons, hlen]
    omega

/-- **Every step of a call keeps what it is made of, and lowers its rank** if the search is limited.
Sources are added only before the call has the lock, or after it. -/
theorem ready_step (h : Ready A req S s) (hs : s.step m = some s')
    (hm : s.phase = .called → m.ofCall = true) :
    Ready A req S s' ∧ (Limits S req →
      s'.rank A req S + (if m.ofCall then 1 else 0) ≤ s.rank A req S) := by
  cases step_cases hs with
  | addContentSource source hl =>
    refine ⟨⟨h.client, h.request, fun hc => ?_, h.fits, h.unnamed, h.awake, h.limited, h.joinable⟩,
      fun _ => le_rfl⟩
    cases hm hc
  | acquire hp hl =>
    have hS := h.called hp
    refine ⟨⟨h.client, h.request, fun hc => (by cases hc), ?_, ?_, h.awake, h.limited, ?_⟩, ?_⟩
    · intro rest hrest
      cases hrest
      rw [hS, List.length_replicate]
      exact ⟨by omega, List.Subset.refl _⟩
    · exact fun i _ => h.unnamed i (by simp [named, hp])
    · intro i hi
      cases (List.mem_replicate.1 hi).2
    · intro _
      unfold rank callerRank
      simp only [hp, hS, QueryPhase.pending, List.length_replicate, Move.ofCall, if_true]
      omega
  | spawned hp =>
    have hfit := (h.fits [] hp).1
    rw [List.length_nil] at hfit
    refine ⟨⟨h.client, h.request, fun hc => (by cases hc), fun _ hc => (by cases hc), ?_, h.awake,
      h.limited, h.joinable⟩, ?_⟩
    · intro i hi
      refine h.unnamed i ?_
      simp only [named, hp] at hi ⊢
      omega
    · intro _
      unfold rank callerRank
      simp only [hp, QueryPhase.pending, List.length_nil, Move.ofCall, if_true]
      omega
  | spawn source rest hp => exact ⟨(ready_spawn h hp).1, fun _ => (ready_spawn h hp).2⟩
  | join k i hp hk hend =>
    obtain ⟨hlt, -⟩ := List.getElem?_eq_some_iff.1 hk
    refine ⟨⟨h.client, h.request, fun hc => (by cases hc), fun _ hc => (by cases hc), ?_, h.awake,
      h.limited, ?_⟩, ?_⟩
    · exact fun j hj => h.unnamed j (by simpa [named, hp] using hj)
    · intro j hj
      rcases List.mem_or_eq_of_mem_set hj with hj | hj
      · exact h.joinable j hj
      · cases hj
    · intro _
      unfold rank callerRank
      simp only [hp, QueryPhase.pending, List.length_set, Move.ofCall, if_true]
      omega
  | notJoinable k hp hk =>
    obtain ⟨hlt, -⟩ := List.getElem?_eq_some_iff.1 hk
    refine ⟨⟨h.client, h.request, fun hc => (by cases hc), fun _ hc => (by cases hc), ?_, h.awake,
      h.limited, h.joinable⟩, ?_⟩
    · exact fun j hj => h.unnamed j (by simpa [named, hp] using hj)
    · intro _
      unfold rank callerRank
      simp only [hp, QueryPhase.pending, Move.ofCall, if_true]
      omega
  | release k hp hk =>
    refine ⟨⟨h.client, h.request, fun hc => (by cases hc), fun _ hc => (by cases hc), ?_, h.awake,
      h.limited, fun j hj => absurd hj List.not_mem_nil⟩, ?_⟩
    · exact fun j hj => h.unnamed j (by simpa [named, hp] using hj)
    · intro _
      unfold rank callerRank
      simp only [hp, QueryPhase.pending, Move.ofCall, if_true]
      omega
  | thread i pool hi =>
    exact ⟨(ready_thread h hi).1, fun hl => (ready_thread h hi).2 hl⟩

/-- A call that holds the lock, or has returned, does not go back to before the lock. -/
theorem step_notCalled (hs : s.step m = some s') (hp : s.phase ≠ .called) : s'.phase ≠ .called := by
  cases step_cases hs with
  | addContentSource source hl => exact hp
  | thread i pool hi => exact hp
  | acquire | spawned | spawn | join | notJoinable | release =>
    intro hc
    cases hc

/-- **A call that has not returned can move**: its caller, or the thread that the caller joins. -/
theorem ready_progress (h : Ready A req S s) (hl : s.phase = .called → s.locked = false)
    (hret : s.phase ≠ .returned) : ∃ m, m.ofCall = true ∧ s.step m ≠ none := by
  cases hp : s.phase with
  | called => exact ⟨.caller, rfl, by simp [step, stepCaller, hp, hl hp]⟩
  | spawning rest => cases rest <;> exact ⟨.caller, rfl, by simp [step, stepCaller, hp]⟩
  | joining k =>
    cases hk : s.threads[k]? with
    | none => exact ⟨.caller, rfl, by simp [step, stepCaller, hp, hk]⟩
    | some entry =>
      cases entry with
      | none => exact ⟨.caller, rfl, by simp [step, stepCaller, hp, hk]⟩
      | some i =>
        obtain ⟨t, ht⟩ := Option.ne_none_iff_exists'.1 (h.joinable i (List.mem_of_getElem? hk))
        by_cases hfin : t.phase = .finished
        · have hend : s.ended i = true := by simp [ended, ht, hfin]
          exact ⟨.caller, rfl, by simp [step, stepCaller, hp, hk, hend]⟩
        · obtain ⟨r, hr⟩ := t.job.exists_step i (s.pool.clients t.job.client) (h.awake i t ht) hfin
          exact ⟨.thread i, rfl, by simp [step, System.step, ht, hr]⟩
  | returned => exact absurd hp hret

omit [DecidableEq κ] in
/-- **A Premium client has been delivered the results of every source** when the call returned. -/
theorem delivered_found (hlimits : Limits S req) (h : QueryInv A req S s)
    (hret : s.phase = .returned) :
    ((((s.pool.clients A).results req).map Prod.snd : List SearchResult) : Multiset SearchResult) =
      (S.map fun src => ((jobOf A req src).found : Multiset SearchResult)).sum := by
  obtain ⟨hp, hend⟩ := query_ended h hret
  rw [Merge.sum_part (T := Finset.Ico S.length (S.length + S.length))
    fun m hm => Finset.mem_Ico.2 (hp.tags m hm), Finset.sum_Ico_eq_sum_range,
    Nat.add_sub_cancel]
  refine Merge.sum_range_getElem? ?_
  intro j src hsrc
  obtain ⟨m, hm⟩ := hend j src hsrc
  obtain ⟨n, hn⟩ := (jobOf A req src).scan_found
    (hlimits.1 src (List.mem_of_getElem? hsrc)) hlimits.2
  rw [← (jobOf A req src).scan_unique hm hn]
  rfl

/-- Taking the lock makes the call ready, with the sources registered then. -/
theorem acquire_ready {clients : κ → Client ℕ} {sources : List ContentSource} {before : List Move}
    {s₁ s₂ : Service κ} (h₁ : exec step (init clients sources A req) before = some s₁)
    (hcalled : s₁.phase = .called) (h₂ : s₁.step .caller = some s₂) :
    Ready A req s₁.contentSources s₂ ∧ s₂.phase ≠ .called := by
  have h0 : Waiting clients A req (init clients sources A req) := ⟨rfl, rfl, fun _ => rfl⟩
  obtain ⟨hA, hreq, hpool⟩ := exec_inv step_waiting h0 h₁
  have hnone : ∀ i, s₁.pool.threads i = none := by
    intro i
    rw [hpool hcalled]
    rfl
  cases step_cases h₂ with
  | acquire hp hl =>
    refine ⟨⟨hA, hreq, fun hc => (by cases hc), ?_, fun i _ => hnone i, ?_, ?_, ?_⟩,
      fun hc => (by cases hc)⟩
    · intro rest hrest
      cases hrest
      rw [List.length_replicate]
      exact ⟨by omega, List.Subset.refl _⟩
    · intro i t ht
      rw [hnone i] at ht
      cases ht
    · intro _ i t ht
      rw [hnone i] at ht
      cases ht
    · intro i hi
      cases (List.mem_replicate.1 hi).2
  | spawned hp | spawn _ _ hp | join _ _ hp | notJoinable _ hp | release _ hp =>
    rw [hcalled] at hp
    cases hp

/-- **A call of `query` returns**, on short texts and with a non-empty query. It takes the lock in
state `s₁`. Whatever the order of the steps, and whatever the client's type and credit,

* the caller and its threads make a bounded number of steps;
* as long as the call has not returned, one of them can move;
* when it has returned, a Premium client has been delivered the results of every source that was
  registered at `s₁`, each exactly once. -/
theorem query_returns {clients : κ → Client ℕ} {sources : List ContentSource} {before : List Move}
    {s₁ s₂ : Service κ} (h₁ : exec step (init clients sources A req) before = some s₁)
    (hcalled : s₁.phase = .called) (h₂ : s₁.step .caller = some s₂)
    (hlimits : Limits s₁.contentSources req) :
    ∃ N, ∀ after s₃, exec step s₂ after = some s₃ →
      after.countP Move.ofCall ≤ N ∧
      (s₃.phase ≠ .returned → ∃ m, m.ofCall = true ∧ s₃.step m ≠ none) ∧
      (s₃.phase = .returned → (clients A).subscriptionType = .premium →
        ((((s₃.pool.clients A).results req).map Prod.snd : List SearchResult) :
            Multiset SearchResult) =
          (s₁.contentSources.map fun src =>
            ((jobOf A req src).found : Multiset SearchResult)).sum) := by
  set S := s₁.contentSources
  refine ⟨s₂.rank A req S, ?_⟩
  intro after s₃ h₃
  have hstep : ∀ {s m s'}, Ready A req S s ∧ s.phase ≠ .called → s.step m = some s' →
      Ready A req S s' ∧ s'.phase ≠ .called := fun h hs =>
    ⟨(ready_step h.1 hs fun hc => absurd hc h.2).1, step_notCalled hs h.2⟩
  have hstart := acquire_ready h₁ hcalled h₂
  have hready := exec_inv hstep hstart h₃
  have hbound := exec_countP_le (q := Move.ofCall) (μ := rank A req S) hstep
    (fun h hs => (ready_step h.1 hs fun hc => absurd hc h.2).2 hlimits) hstart h₃
  refine ⟨by omega, ready_progress hready.1 fun hc => absurd hc hready.2, ?_⟩
  intro hret hprem
  exact delivered_found hlimits
    (exec_inv step_queryInv (acquire_queryInv hprem h₁ hcalled h₂) h₃) hret

theorem query_returns_sample : ∃ N, ∀ after s₃, exec step sampleLocked after = some s₃ →
    after.countP Move.ofCall ≤ N ∧
    (s₃.phase ≠ .returned → ∃ m, m.ofCall = true ∧ s₃.step m ≠ none) ∧
    (s₃.phase = .returned → (sampleClients ()).subscriptionType = .premium →
      ((((s₃.pool.clients ()).results sampleRequest).map Prod.snd : List SearchResult) :
          Multiset SearchResult) =
        (sampleRegistered.contentSources.map fun src =>
          ((jobOf () sampleRequest src).found : Multiset SearchResult)).sum) :=
  query_returns (Option.some_get _).symm (by decide +kernel) (Option.some_get _).symm
    (by decide +kernel)

end Service

end MTFind2
