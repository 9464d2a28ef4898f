import MTFind2.Lib.Merge
import MTFind2.Proof.Calls

/-!
# The scan under a thread of `find_in_source`

A `Scan` is a control point of `find_in_source` without the calls about credit:
looking for the next match, or holding one. `Job.scanStep` moves it and collects
the results, and reads no client.

* `step_premium`: a step of a thread that serves a Premium client leaves the scan
  and its results as they are, or is one `scanStep`. So what a Premium client is
  sent does not depend on its credit, nor on what other threads do to it.
* `solo_scan`: a single-threaded run for a Premium client realizes every
  `scanStep`.
* `delivers_of_scan`, `scan_of_delivers`: the single-threaded run ends exactly if
  the scan does, with the results of the scan.
-/

namespace MTFind2

/-- Where the scan of a source stands. -/
inductive Scan
  | searching (f : Frame)
  | found (f : Frame) (isFinal : Bool)
  | finished
deriving DecidableEq

/-- The scan of a thread, whatever its credit check is doing. -/
def Phase.scan : Phase → Scan
  | .checking f | .requesting f _ | .waiting f _ => .searching f
  | .consuming f isFinal | .delivering f isFinal => .found f isFinal
  | .finished => .finished

/-- The control point from which a scan goes on. -/
def Scan.resume : Scan → Phase
  | .searching f => .checking f
  | .found f isFinal => .consuming f isFinal
  | .finished => .finished

@[simp] theorem resume_searching (f : Frame) : (Scan.searching f).resume = .checking f := rfl

@[simp] theorem resume_found (f : Frame) (b : Bool) :
    (Scan.found f b).resume = .consuming f b := rfl

namespace Phase

@[simp] theorem resume_enterLine (n : UInt64) (lines : List StdString) :
    (enterLine n lines).scan.resume = enterLine n lines := by
  cases lines <;> rfl

@[simp] theorem resume_nextLine (f : Frame) : f.nextLine.scan.resume = f.nextLine :=
  resume_enterLine _ _

@[simp] theorem resume_loopHead (f : Frame) : f.loopHead.scan.resume = f.loopHead := by
  unfold Frame.loopHead
  split
  · exact resume_nextLine f
  · rfl

end Phase

namespace Job

variable {ι κ : Type} (job : Job κ)

@[simp] theorem resume_start : job.start.scan.resume = job.start := Phase.resume_enterLine _ _

@[simp] theorem resume_search (f : Frame) : (job.search f).scan.resume = job.search f := by
  unfold search
  dsimp only
  split
  · exact Phase.resume_nextLine _
  · rfl

/-- The find leaves the line or holds a match. -/
theorem search_cases (f : Frame) : job.search f = f.nextLine ∨
    ∃ f' b, job.search f = .consuming f' b ∧ f'.later = f.later := by
  unfold search
  dsimp only
  split
  · exact .inl rfl
  · exact .inr ⟨_, _, rfl, rfl⟩

/-- **One step of the scan**, with the results sent so far. -/
def scanStep : Scan × List SearchResult → Scan × List SearchResult
  | (.searching f, out) => ((job.search f).scan, out)
  | (.found f isFinal, out) => (f.loopHead.scan, out ++ [job.result f isFinal])
  | (.finished, out) => (.finished, out)

/-- The scan after `n` steps from the start. -/
def scanAt (n : ℕ) : Scan × List SearchResult := job.scanStep^[n] (job.start.scan, [])

@[simp] theorem scanAt_zero : job.scanAt 0 = (job.start.scan, []) := rfl

theorem scanAt_succ (n : ℕ) : job.scanAt (n + 1) = job.scanStep (job.scanAt n) :=
  Function.iterate_succ_apply' ..

/-- A finished scan stays as it is. -/
theorem scanAt_finished {n : ℕ} {out : List SearchResult} (h : job.scanAt n = (.finished, out)) :
    ∀ m, n ≤ m → job.scanAt m = (.finished, out) := by
  intro m hm
  induction m, hm using Nat.le_induction with
  | base => exact h
  | succ m _ ih => rw [scanAt_succ, ih]; rfl

/-- The scan only adds results. -/
theorem scanAt_prefix {m n : ℕ} (h : m ≤ n) : (job.scanAt m).2 <+: (job.scanAt n).2 := by
  induction n, h using Nat.le_induction with
  | base => exact List.prefix_rfl
  | succ n _ ih =>
    refine ih.trans ?_
    rw [scanAt_succ]
    rcases job.scanAt n with ⟨s, out⟩
    cases s with
    | searching f => exact List.prefix_rfl
    | found f b => exact List.prefix_append _ _
    | finished => exact List.prefix_rfl

/-- **The scan has one outcome.** -/
theorem scan_unique {n n' : ℕ} {out out' : List SearchResult} (h : job.scanAt n = (.finished, out))
    (h' : job.scanAt n' = (.finished, out')) : out = out' := by
  have h1 := job.scanAt_finished h (max n n') (le_max_left ..)
  have h2 := job.scanAt_finished h' (max n n') (le_max_right ..)
  rw [h1] at h2
  exact (Prod.mk.inj h2).2

variable {i : ι} {c c' : Client ι} {p p' : Phase}

/-- The steps of the thread `i`, one constructor for each call: from its client and control point to
those after it. -/
inductive Step (i : ι) (c : Client ι) : Phase → Client ι → Phase → Prop
  | check (f : Frame) :
      Step i c (.checking f) c (if c.hasCredit = true then job.search f else .requesting f ⟨0⟩)
  | request (f : Frame) (sem : Semaphore) :
      Step i c (.requesting f sem) (c.pushNotEnoughCredit i sem).1
        (if c.subscriptionType = .standard then .finished else .waiting f sem.notify)
  | wait (f : Frame) (sem : Semaphore) (h : sem.count ≠ 0) :
      Step i c (.waiting f sem) c (job.search f)
  | consume (f : Frame) (b : Bool) : Step i c (.consuming f b) c.consumeCredit (.delivering f b)
  | deliver (f : Frame) (b : Bool) :
      Step i c (.delivering f b) (c.pushSearchResultFound i job.request (job.result f b)) f.loopHead

/-- **What a step does**, one case per control point. -/
theorem step_cases (h : job.step i c p = some (c', p')) : job.Step i c p c' p' := by
  cases p with
  | checking f =>
    cases h
    have hcheck : job.Step i c (.checking f) c
        (if c.hasCredit = true then job.search f else .requesting f ⟨0⟩) := .check f
    cases hc : c.hasCredit <;> simpa [hc] using hcheck
  | requesting f sem =>
    simp only [step, stepGiven, Option.some.injEq, Prod.mk.injEq,
      Client.pushNotEnough_subscriptionType, Client.pushNotEnough_semaphore] at h
    obtain ⟨rfl, rfl⟩ := h
    exact .request f sem
  | waiting f sem =>
    obtain ⟨s', hs, h⟩ := Option.map_eq_some_iff.1 h
    cases h
    unfold Semaphore.wait at hs
    split at hs
    · cases hs
    · rename_i hc
      exact .wait f sem hc
  | consuming f b =>
    cases h
    exact .consume f b
  | delivering f b =>
    cases h
    exact .deliver f b
  | finished => cases h

/-- A step keeps the subscription type. -/
theorem step_subscriptionType (h : job.step i c p = some (c', p')) :
    c'.subscriptionType = c.subscriptionType := by
  cases job.step_cases h <;> simp

/-- A step sends at most one result, and sends it as thread `i`. -/
theorem step_results (h : job.step i c p = some (c', p')) (req : SearchRequest) :
    ∃ new, c'.results req = c.results req ++ new ∧ ∀ m ∈ new, m.1 = i := by
  cases job.step_cases h with
  | deliver f b =>
    by_cases hr : job.request = req
    · subst hr
      exact ⟨[(i, job.result f b)], by simp, by simp⟩
    · exact ⟨[], by simp [Client.pushResult_results_ne _ _ _ _ hr], by simp⟩
  | check | request | wait | consume => exact ⟨[], by simp, by simp⟩

/-- A step appends what it sends to the log, as thread `i`. -/
theorem step_received (h : job.step i c p = some (c', p')) :
    ∃ new, c'.received = c.received ++ new ∧ ∀ m ∈ new, m.1 = i := by
  cases job.step_cases h with
  | check | wait => exact ⟨[], by simp, by simp⟩
  | request f sem => exact ⟨_, Client.pushNotEnough_received .., by simp⟩
  | consume f b => exact ⟨[], by simp, by simp⟩
  | deliver f b => exact ⟨_, Client.pushResult_received .., by simp⟩

section Sent

variable [DecidableEq ι]

/-- What another thread has sent is as it was. -/
theorem step_part_ne (h : job.step i c p = some (c', p')) {j : ι} (hj : j ≠ i) :
    Merge.part j c'.received = Merge.part j c.received := by
  obtain ⟨new, hnew, hi⟩ := job.step_received h
  rw [hnew, Merge.part_append_ne hj hi]

/-- The results sent by thread `i` for the job's request. -/
def sentBy (i : ι) (c : Client ι) : List SearchResult := Merge.part i (c.results job.request)

/-- What the other threads have sent is as it was. -/
theorem step_sentBy_ne {κ' : Type} (job' : Job κ') (h : job.step i c p = some (c', p')) {j : ι}
    (hj : j ≠ i) : job'.sentBy j c' = job'.sentBy j c := by
  obtain ⟨new, hnew, hi⟩ := job.step_results h job'.request
  rw [sentBy, hnew, Merge.part_append_ne hj hi]
  rfl

/-- **A step for a Premium client** leaves the scan as it is or is one step of it. -/
theorem step_premium (hprem : c.subscriptionType = .premium) (h : job.step i c p = some (c', p')) :
    (p'.scan, job.sentBy i c') = (p.scan, job.sentBy i c) ∨
      (p'.scan, job.sentBy i c') = job.scanStep (p.scan, job.sentBy i c) := by
  cases job.step_cases h with
  | check f =>
    -- with credit the find follows at once, without it the scan stands still
    by_cases hc : c.hasCredit = true
    · right
      simp [hc, Phase.scan, scanStep]
    · left
      simp [hc, Phase.scan]
  | request f sem =>
    left
    simp [hprem, Phase.scan, sentBy]
  | wait f sem =>
    right
    simp [Phase.scan, scanStep]
  | consume f b =>
    left
    simp [Phase.scan, sentBy]
  | deliver f b =>
    right
    simp [Phase.scan, scanStep, sentBy]

end Sent

/-! ## Single-threaded runs -/

theorem solo_succ (n : ℕ) (s : Client ι × Phase) :
    job.solo i (n + 1) s =
      (job.step i (job.solo i n s).1 (job.solo i n s).2).getD (job.solo i n s) :=
  Function.iterate_succ_apply' ..

theorem solo_add (m n : ℕ) (s : Client ι × Phase) :
    job.solo i (m + n) s = job.solo i m (job.solo i n s) :=
  Function.iterate_add_apply ..

/-- **A single-threaded run keeps what each of its steps keeps.** -/
theorem solo_inv {I : Client ι → Phase → Prop}
    (hstep : ∀ {c p c' p'}, I c p → job.step i c p = some (c', p') → I c' p')
    {s : Client ι × Phase} (hs : I s.1 s.2) (n : ℕ) : I (job.solo i n s).1 (job.solo i n s).2 := by
  induction n with
  | zero => exact hs
  | succ n ih =>
    rw [solo_succ]
    cases h : job.step i (job.solo i n s).1 (job.solo i n s).2 with
    | none => exact ih
    | some s' => exact hstep ih h

/-- Everything sent in a single-threaded run is sent by its thread. -/
theorem solo_results [DecidableEq ι] (c : Client ι) (n : ℕ) :
    (job.solo i n (c.fresh, job.start)).1.results job.request =
      (job.sentBy i (job.solo i n (c.fresh, job.start)).1).map fun r => (i, r) := by
  refine Merge.eq_map_part ?_
  refine job.solo_inv (I := fun c _ => ∀ m ∈ c.results job.request, m.1 = i) ?_ (by simp) n
  intro c p c' p' hc h m hm
  obtain ⟨new, hnew, hi⟩ := job.step_results h job.request
  rw [hnew] at hm
  rcases List.mem_append.1 hm with hm | hm
  · exact hc m hm
  · exact hi m hm

/-- **Each step of the scan is reached** by a single-threaded run for a Premium client, whatever
its credit: with credit the find follows the check, without it the recharge comes between. -/
theorem solo_scan [DecidableEq ι] (hprem : c.subscriptionType = .premium) (s : Scan) :
    ∃ m c', job.solo i m (c, s.resume) = (c', (job.scanStep (s, job.sentBy i c)).1.resume) ∧
      c'.subscriptionType = .premium ∧
      job.sentBy i c' = (job.scanStep (s, job.sentBy i c)).2 := by
  cases s with
  | searching f =>
    by_cases hc : c.hasCredit = true
    · exact ⟨1, c, by simp [solo, step, stepGiven, scanStep, hc], hprem, rfl⟩
    · -- check, request, wait: the semaphore was notified by the request
      refine ⟨3, (c.pushNotEnoughCredit i ⟨0⟩).1, ?_, by simp [hprem], by simp [sentBy, scanStep]⟩
      simp [solo, step, stepGiven, scanStep, hc, hprem, Semaphore.notify,
        Semaphore.wait]
  | found f b =>
    refine ⟨2, c.consumeCredit.pushSearchResultFound i job.request (job.result f b), ?_,
      by simp [hprem], by simp [sentBy, scanStep]⟩
    simp [solo, step, stepGiven, scanStep]
  | finished => exact ⟨0, c, rfl, hprem, rfl⟩

/-- The single-threaded run for a Premium client reaches every state of the scan. -/
theorem solo_scanAt [DecidableEq ι] (hprem : c.subscriptionType = .premium) (n : ℕ) :
    ∃ m c', job.solo i m (c.fresh, job.start) = (c', (job.scanAt n).1.resume) ∧
      c'.subscriptionType = .premium ∧ job.sentBy i c' = (job.scanAt n).2 := by
  induction n with
  | zero => exact ⟨0, c.fresh, by simp [solo], hprem, rfl⟩
  | succ n ih =>
    obtain ⟨m, c', hm, hp, hs⟩ := ih
    obtain ⟨m', c'', hm', hp', hs'⟩ := job.solo_scan (i := i) hp (job.scanAt n).1
    rw [hs] at hm' hs'
    refine ⟨m' + m, c'', ?_, hp', ?_⟩
    · rw [solo_add, hm, hm', scanAt_succ]
    · rw [hs', scanAt_succ]

/-- **If the scan ends, so does the single-threaded run**, with the results of the scan. -/
theorem delivers_of_scan [DecidableEq ι] (hprem : c.subscriptionType = .premium) {n : ℕ}
    {out : List SearchResult} (h : job.scanAt n = (.finished, out)) : job.Delivers i c out := by
  obtain ⟨m, c', hm, -, hs⟩ := job.solo_scanAt (i := i) hprem n
  rw [h] at hm hs
  refine ⟨m, by rw [hm]; rfl, ?_⟩
  rw [solo_results, hm, hs]

/-- A single-threaded run for a Premium client is at a state of the scan. -/
theorem scanAt_of_solo [DecidableEq ι] (hprem : c.subscriptionType = .premium) (m : ℕ) :
    ∃ n, job.scanAt n = ((job.solo i m (c.fresh, job.start)).2.scan,
      job.sentBy i (job.solo i m (c.fresh, job.start)).1) := by
  -- the client stays Premium, and each step leaves the scan or moves it by one
  refine (job.solo_inv (I := fun c p => c.subscriptionType = .premium ∧
    ∃ n, job.scanAt n = (p.scan, job.sentBy i c)) ?_ ⟨hprem, 0, rfl⟩ m).2
  rintro c p c' p' ⟨hp, n, hn⟩ h
  refine ⟨(job.step_subscriptionType h).trans hp, ?_⟩
  rcases job.step_premium hp h with h | h
  · exact ⟨n, by rw [hn, h]⟩
  · exact ⟨n + 1, by rw [scanAt_succ, hn, h]⟩

/-- **If the single-threaded run ends, so does the scan**, with the results of the run. -/
theorem scan_of_delivers [DecidableEq ι] (hprem : c.subscriptionType = .premium)
    {out : List SearchResult} (h : job.Delivers i c out) :
    ∃ n, job.scanAt n = (.finished, out) := by
  obtain ⟨m, hfin, hout⟩ := h
  obtain ⟨n, hn⟩ := job.scanAt_of_solo (i := i) hprem m
  refine ⟨n, ?_⟩
  rw [hn, hfin]
  rw [sentBy, hout, Merge.part_map]
  rfl

/-- **What a Premium client is delivered is the outcome of the scan.** -/
theorem delivers_iff_scan [DecidableEq ι] (hprem : c.subscriptionType = .premium)
    {out : List SearchResult} : job.Delivers i c out ↔ ∃ n, job.scanAt n = (.finished, out) :=
  ⟨job.scan_of_delivers hprem, fun ⟨_, h⟩ => job.delivers_of_scan hprem h⟩

/-- A search for one byte in the line `c b`. -/
def letterJob (c query : UInt8) : Job Unit where
  client := ()
  source := ⟨⟨[116], by decide⟩, [⟨[c, 32, 98], by simp⟩], by simp⟩
  request := ⟨0, ⟨[query], by simp⟩, 0⟩

end Job

/-- **A step of a system** is a step of one of its threads. -/
theorem System.step_cases {ι κ : Type} [DecidableEq ι] [DecidableEq κ] {s s' : System ι κ} {i : ι}
    (h : s.step i = some s') :
    ∃ t c p, s.threads i = some t ∧ t.job.step i (s.clients t.job.client) t.phase = some (c, p) ∧
      s' = { clients := Function.update s.clients t.job.client c
             threads := Function.update s.threads i (some { t with phase := p }) } := by
  simp only [System.step, Option.bind_eq_some_iff, Option.map_eq_some_iff] at h
  obtain ⟨t, ht, ⟨c, p⟩, hs, h⟩ := h
  exact ⟨t, c, p, ht, hs, h.symm⟩

/-- A single-threaded run is a run of the system with that one thread. -/
theorem System.exists_solo {ι κ : Type} [DecidableEq ι] [DecidableEq κ] (job : Job κ) (i : ι)
    (c : Client ι) (n : ℕ) :
    ∃ sched s, Run.exec System.step
        (System.init (fun _ => c) fun j => if j = i then some job else none) sched = some s ∧
      s.clients job.client = (job.solo i n (c.fresh, job.start)).1 ∧
      s.threads i = some ⟨job, (job.solo i n (c.fresh, job.start)).2⟩ := by
  induction n with
  | zero => exact ⟨[], _, rfl, rfl, by simp [System.init, Job.solo]⟩
  | succ n ih =>
    obtain ⟨sched, s, hs, hclient, hthread⟩ := ih
    rw [Job.solo_succ]
    cases h : job.step i (job.solo i n (c.fresh, job.start)).1
        (job.solo i n (c.fresh, job.start)).2 with
    | none => exact ⟨sched, s, hs, hclient, hthread⟩
    | some r =>
      have hstep : s.step i = some
          { clients := Function.update s.clients job.client r.1
            threads := Function.update s.threads i (some ⟨job, r.2⟩) } := by
        simp only [System.step, hthread, Option.bind_some, hclient, h, Option.map_some]
      refine ⟨sched ++ [i], _, Run.exec_append.2 ⟨s, hs, Run.exec_singleton.2 hstep⟩, ?_, ?_⟩
      · simp
      · simp

end MTFind2
