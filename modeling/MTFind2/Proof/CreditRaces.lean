import MTFind2.Proof.QueryEnds

/-!
# The results do not rest on the credit

`has_credit` and `consume_credit` take no lock, and nothing else protects `m_credit`
while several threads read and write it. Here each step of a thread finds an arbitrary
value there (`System.stepWith`), so whatever the races on it have left.

* `racy_step`: the scan of a thread, what it has sent and the exchange about its semaphore
  do not depend on the value.
* `delivers_under_races`: so all threads end, and each that serves a Premium client has sent
  the results of its source, whatever it found in `m_credit`.
-/

namespace MTFind2

open Run

variable {ι κ : Type}

/-- The client, with this value in `m_credit`. -/
def Client.withCredit (c : Client ι) (credit : Int32) : Client ι := { c with credit }

namespace System

variable [DecidableEq ι] [DecidableEq κ]

/-- **Thread `a.1` takes its next step, and finds `a.2` in `m_credit`**, whatever was written
there. -/
def stepWith (s : System ι κ) (a : ι × Int32) : Option (System ι κ) :=
  (s.threads a.1).bind fun t =>
    (t.job.step a.1 ((s.clients t.job.client).withCredit a.2) t.phase).map fun r =>
      { clients := Function.update s.clients t.job.client r.1
        threads := Function.update s.threads a.1 (some { t with phase := r.2 }) }

/-- What every state is like, whatever the credits: the scans of the threads that serve Premium
clients, and the semaphores. -/
structure Racy (clients : κ → Client ι) (jobs : ι → Option (Job κ)) (s : System ι κ) : Prop where
  types : ∀ k, (s.clients k).subscriptionType = (clients k).subscriptionType
  jobs : ∀ i, (s.threads i).map Thread.job = jobs i
  scans : ∀ i t, s.threads i = some t → (clients t.job.client).subscriptionType = .premium →
    ∃ n, t.job.scanAt n = (t.phase.scan, t.job.sentBy i (s.clients t.job.client))
  awake : ∀ i t, s.threads i = some t → t.phase.Awake
  limited : ∀ i t, s.threads i = some t → t.job.Limited t.phase

/-- The sources have short lines, and the queries are not empty. -/
def JobLimits (jobs : ι → Option (Job κ)) : Prop :=
  ∀ i job, jobs i = some job → job.source.Short ∧ job.request.query.bytes ≠ []

variable {clients : κ → Client ι} {jobs : ι → Option (Job κ)} {s s' : System ι κ}
  {a : ι × Int32} {i : ι}

/-- The step of one thread, whose client had an arbitrary credit. -/
theorem stepWith_cases (h : s.stepWith a = some s') :
    ∃ t c p, s.threads a.1 = some t ∧
      t.job.step a.1 ((s.clients t.job.client).withCredit a.2) t.phase = some (c, p) ∧
      s' = { clients := Function.update s.clients t.job.client c
             threads := Function.update s.threads a.1 (some { t with phase := p }) } := by
  simp only [stepWith, Option.bind_eq_some_iff, Option.map_eq_some_iff] at h
  obtain ⟨t, ht, ⟨c, p⟩, hs, h⟩ := h
  exact ⟨t, c, p, ht, hs, h.symm⟩

omit [DecidableEq κ] in
theorem racy_init (hlimits : JobLimits jobs) : Racy clients jobs (init clients jobs) := by
  have hthread : ∀ i t, (init clients jobs).threads i = some t →
      ∃ job, jobs i = some job ∧ t = ⟨job, job.start⟩ := by
    intro i t ht
    obtain ⟨job, hj, rfl⟩ := Option.map_eq_some_iff.1 ht
    exact ⟨job, hj, rfl⟩
  refine ⟨fun k => rfl, ?_, ?_, ?_, ?_⟩
  · intro i
    cases hj : jobs i <;> simp [init, hj]
  · intro i t ht _
    obtain ⟨job, -, rfl⟩ := hthread i t ht
    exact ⟨0, rfl⟩
  · intro i t ht
    obtain ⟨job, -, rfl⟩ := hthread i t ht
    exact Phase.awake_enterLine _ _
  · intro i t ht
    obtain ⟨job, hj, rfl⟩ := hthread i t ht
    exact Job.limited_start (hlimits i job hj).1 (hlimits i job hj).2

omit [DecidableEq κ] in
/-- A thread after a step is the one that moved, or was there before. -/
theorem moved_thread {t u : Thread κ} {j : ι}
    (hu : Function.update s.threads i (some t) j = some u) :
    j = i ∧ t = u ∨ j ≠ i ∧ s.threads j = some u := by
  by_cases hj : j = i
  · subst hj
    rw [Function.update_self] at hu
    exact .inl ⟨rfl, Option.some.inj hu⟩
  · rw [Function.update_of_ne hj] at hu
    exact .inr ⟨hj, hu⟩

/-- **No step depends on the value that it finds.** -/
theorem racy_step (h : Racy clients jobs s) (hs : s.stepWith a = some s') :
    Racy clients jobs s' := by
  obtain ⟨t, c, p, ht, hstep, rfl⟩ := stepWith_cases hs
  have htype := t.job.step_subscriptionType hstep
  refine ⟨?_, ?_, ?_, ?_, ?_⟩
  · intro k
    dsimp only
    by_cases hk : k = t.job.client
    · subst hk
      rw [Function.update_self, htype]
      exact h.types _
    · rw [Function.update_of_ne hk]
      exact h.types k
  · intro j
    by_cases hj : j = a.1
    · subst hj
      have hjob := h.jobs a.1
      rw [ht] at hjob
      simpa using hjob
    · simpa [hj] using h.jobs j
  · intro j u hu hprem
    rcases moved_thread hu with ⟨rfl, rfl⟩ | ⟨hj, hu⟩
    · obtain ⟨n, hn⟩ := h.scans a.1 t ht hprem
      have hprem' : ((s.clients t.job.client).withCredit a.2).subscriptionType = .premium :=
        (h.types _).trans hprem
      dsimp only
      rw [Function.update_self]
      rcases t.job.step_premium hprem' hstep with he | he
      · exact ⟨n, by rw [hn, he]; rfl⟩
      · exact ⟨n + 1, by rw [Job.scanAt_succ, hn, he]; rfl⟩
    · obtain ⟨n, hn⟩ := h.scans j u hu hprem
      refine ⟨n, ?_⟩
      dsimp only
      rw [hn]
      by_cases hk : u.job.client = t.job.client
      · rw [hk, Function.update_self, t.job.step_sentBy_ne u.job hstep hj]
        rfl
      · rw [Function.update_of_ne hk]
  · intro j u hu
    rcases moved_thread hu with ⟨rfl, rfl⟩ | ⟨-, hu⟩
    · exact t.job.awake_step (h.awake _ t ht) hstep
    · exact h.awake j u hu
  · intro j u hu
    rcases moved_thread hu with ⟨rfl, rfl⟩ | ⟨-, hu⟩
    · exact (t.job.rank_step (h.limited _ t ht) hstep).1
    · exact h.limited j u hu

/-- What thread `i` has to do. -/
noncomputable def threadRank (s : System ι κ) (i : ι) : ℕ :=
  ((s.threads i).map fun t => t.job.rank t.phase).getD 0

/-- **Every step leaves less to do.** -/
theorem racy_rank [Fintype ι] (h : Racy clients jobs s) (hs : s.stepWith a = some s') :
    ∑ i, s'.threadRank i + 1 ≤ ∑ i, s.threadRank i := by
  obtain ⟨t, c, p, ht, hstep, rfl⟩ := stepWith_cases hs
  have hrank := (t.job.rank_step (h.limited _ t ht) hstep).2
  set s' : System ι κ :=
    { clients := Function.update s.clients t.job.client c
      threads := Function.update s.threads a.1 (some { t with phase := p }) } with hs'
  have hsum := sum_move (Finset.mem_univ a.1) (f := s.threadRank) (g := s'.threadRank)
    (fun j hj => by simp [threadRank, hs', hj])
  have hold : s.threadRank a.1 = t.job.rank t.phase := by simp [threadRank, ht]
  have hnew : s'.threadRank a.1 = t.job.rank p := by simp [threadRank, hs']
  omega

/-- **What a thread does whatever it finds in `m_credit`**: it can move until it has finished; and
if it serves a Premium client, it has sent a first part of the results of its source, and all of
them when it has finished. -/
structure Delivers (clients : κ → Client ι) (s : System ι κ) (i : ι) (job : Job κ) : Prop where
  moves : s.threads i ≠ some ⟨job, .finished⟩ → ∀ credit, s.stepWith (i, credit) ≠ none
  part : (clients job.client).subscriptionType = .premium →
    job.sentBy i (s.clients job.client) <+: job.found
  all : (clients job.client).subscriptionType = .premium →
    s.threads i = some ⟨job, .finished⟩ → job.sentBy i (s.clients job.client) = job.found

theorem Racy.delivers (h : Racy clients jobs s) {job : Job κ} (hj : jobs i = some job)
    (hshort : job.source.Short) (hq : job.request.query.bytes ≠ []) :
    s.Delivers clients i job := by
  have hjob := h.jobs i
  rw [hj, Option.map_eq_some_iff] at hjob
  obtain ⟨⟨job', p⟩, ht, hjob'⟩ := hjob
  obtain rfl : job' = job := hjob'
  refine ⟨?_, ?_, ?_⟩
  · intro hp credit
    have hne : p ≠ .finished := by
      rintro rfl
      exact hp ht
    obtain ⟨r, hr⟩ :=
      Job.exists_step i ((s.clients job'.client).withCredit credit) (h.awake i _ ht) hne
    have hr' : job'.step i ((s.clients job'.client).withCredit credit) p = some r := hr
    simp [stepWith, ht, hr']
  · intro hprem
    obtain ⟨n, hn⟩ := h.scans i _ ht hprem
    have hpre := Job.scanAt_prefix_found hshort hq n
    rwa [hn] at hpre
  · intro hprem hfin
    rw [ht] at hfin
    obtain rfl : p = .finished := congrArg Thread.phase (Option.some.inj hfin)
    obtain ⟨n, hn⟩ := h.scans i _ ht hprem
    obtain ⟨m, hm⟩ := Job.scan_found hshort hq
    exact job'.scan_unique hn hm

/-- **No race on `m_credit` costs a Premium client a result, or sends it one twice**, on short lines
and with non-empty queries. Whatever values the steps find in `m_credit`, under every schedule of
any number of threads for any clients,

* all threads together make a bounded number of steps, and each can move until it has finished;
* a thread for a Premium client sends the results of its source, in their order. -/
theorem delivers_under_races [Fintype ι] (hlimits : JobLimits jobs) :
    ∃ N, ∀ as s, exec stepWith (init clients jobs) as = some s → as.length ≤ N ∧
      ∀ i job, jobs i = some job → s.Delivers clients i job := by
  refine ⟨∑ i, (init clients jobs).threadRank i, ?_⟩
  intro as s hs
  have hinit : Racy clients jobs (init clients jobs) := racy_init hlimits
  have hbound := exec_countP_le (I := Racy clients jobs) (q := fun _ => true)
    (μ := fun s => ∑ i, s.threadRank i) racy_step
    (fun h hs => by rw [if_pos rfl]; exact racy_rank h hs) hinit hs
  rw [List.countP_true] at hbound
  refine ⟨by omega, ?_⟩
  intro i job hj
  have hR : Racy clients jobs s := exec_inv racy_step hinit hs
  exact hR.delivers hj (hlimits i job hj).1 (hlimits i job hj).2

/-- Two threads of a Premium client, who had one credit. -/
theorem delivers_under_races_pair : ∃ N, ∀ as s,
    exec stepWith (init (fun _ => ⟨0, .premium, 1, []⟩)
      fun _ : Bool => some (Job.letterJob 97 97)) as = some s → as.length ≤ N ∧
      ∀ i job, some (Job.letterJob 97 97) = some job →
        s.Delivers (fun _ => ⟨0, .premium, 1, []⟩) i job := by
  have hlimits : JobLimits fun _ : Bool => some (Job.letterJob 97 97) := by
    rintro i job hj
    obtain rfl := Option.some.inj hj
    exact ⟨by decide +kernel, by decide +kernel⟩
  exact delivers_under_races hlimits

end System

end MTFind2
