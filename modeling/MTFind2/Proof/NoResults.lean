import MTFind2.Proof.Line
import MTFind2.Proof.Query

/-!
# Searches without results

The program has a `NoSearchResultsFoundMessage` and a handler for it, and no code
that sends one (`step_noNotice`). So the requester of a search is told the outcome
exactly if some result is delivered, which is a condition on the registered texts
(`scan_nil_iff`): some line has an occurrence of the query that the scan sees.

`noResults_reported_iff`: a call of `query` reports an empty outcome correctly if
and only if the outcome is not empty.
-/

namespace MTFind2

open Run Occurrence

/-- The scan of a fresh line sees a match: the leftmost occurrence is not at a position that is
read back as `npos` from an `int` (no position below `2 ^ 32 - 1` is). -/
def Visible (query line : StdString) : Prop :=
  ∃ p, firstFrom query.bytes line.bytes 0 = some p ∧ p % 2 ^ 32 ≠ 2 ^ 32 - 1

instance (query line : StdString) : Decidable (Visible query line) :=
  match h : firstFrom query.bytes line.bytes 0 with
  | none => isFalse fun ⟨p, hp, _⟩ => by simp [h] at hp
  | some p => decidable_of_iff (p % 2 ^ 32 ≠ 2 ^ 32 - 1) <| by simp [Visible, h]

namespace Job

variable {κ : Type} (job : Job κ)

/-- Nothing found so far: the lines before the current one have no visible match. -/
def Blank : Scan → Prop
  | .searching f => f.endPos = 0 ∧ ∃ pre, job.source.lines = pre ++ f.line :: f.later ∧
      ∀ line ∈ pre, ¬ Visible job.request.query line
  | .found _ _ => False
  | .finished => ∀ line ∈ job.source.lines, ¬ Visible job.request.query line

theorem blank_enterLine (n : UInt64) (pre : List StdString) {lines : List StdString}
    (h : job.source.lines = pre ++ lines) (hpre : ∀ line ∈ pre, ¬ Visible job.request.query line) :
    job.Blank (Phase.enterLine n lines).scan := by
  cases lines with
  | nil => rw [List.append_nil] at h; rw [← h] at hpre; exact hpre
  | cons line later => exact ⟨rfl, pre, h, hpre⟩

/-- A search that starts at a fresh line finds its visible match, or goes to the next line. -/
theorem search_fresh {f : Frame} (h0 : f.endPos = 0) :
    (¬ Visible job.request.query f.line ∧ job.search f = f.nextLine) ∨
      (Visible job.request.query f.line ∧ ∃ f' b, job.search f = .consuming f' b) := by
  have hz : (toSize f.endPos).toNat = 0 := by rw [h0]; decide
  cases h : firstFrom job.request.query.bytes f.line.bytes 0 with
  | none =>
    left
    exact ⟨fun ⟨p, hp, _⟩ => by simp [h] at hp, job.search_none (by rw [hz]; exact h)⟩
  | some p =>
    by_cases hp : p % 2 ^ 32 = 2 ^ 32 - 1
    · left
      refine ⟨?_, job.search_hidden (by rw [hz]; exact h) hp⟩
      rintro ⟨p', hp', hne⟩
      rw [h] at hp'
      cases hp'
      exact hne hp
    · right
      exact ⟨⟨p, h, hp⟩, _, _, job.search_some (by rw [hz]; exact h) hp⟩

/-- **The scan has found nothing, and nothing was visible so far; or there is a visible line and
the scan has found a match.** -/
theorem scanAt_blank (n : ℕ) :
    ((job.scanAt n).2 = [] ∧ job.Blank (job.scanAt n).1) ∨
      ((∃ line ∈ job.source.lines, Visible job.request.query line) ∧
        ((job.scanAt n).2 ≠ [] ∨ ∃ f b, (job.scanAt n).1 = .found f b)) := by
  induction n with
  | zero => exact .inl ⟨rfl, job.blank_enterLine 1 [] rfl (by simp)⟩
  | succ n ih =>
    rw [scanAt_succ]
    generalize job.scanAt n = x at ih
    obtain ⟨s, out⟩ := x
    rcases ih with ⟨hout, hb⟩ | ⟨hvis, h⟩
    · simp only at hout hb
      subst hout
      cases s with
      | searching f =>
        -- a line without a visible match is passed over, and joins those before it
        obtain ⟨h0, pre, hpre, hnv⟩ := hb
        rcases job.search_fresh h0 with ⟨hv, hs⟩ | ⟨hv, f', b, hs⟩
        · left
          simp only [scanStep, hs, true_and]
          refine job.blank_enterLine _ (pre ++ [f.line]) (by simpa using hpre) ?_
          intro line hline
          rcases List.mem_append.1 hline with h | h
          · exact hnv line h
          · rw [List.mem_singleton.1 h]; exact hv
        · right
          refine ⟨⟨f.line, by rw [hpre]; simp, hv⟩, .inr ⟨f', b, ?_⟩⟩
          simp only [scanStep, hs]
          rfl
      | found f b => exact hb.elim
      | finished => exact .inl ⟨rfl, hb⟩
    · right
      refine ⟨hvis, .inl ?_⟩
      rcases h with h | ⟨f, b, h⟩
      · cases s with
        | searching f => exact h
        | found f b => simp [scanStep]
        | finished => exact h
      · simp only at h
        subst h
        simp [scanStep]

/-- **A finished scan has found nothing exactly if no line has a visible match.** -/
theorem scan_nil_iff {n : ℕ} {out : List SearchResult} (h : job.scanAt n = (.finished, out)) :
    out = [] ↔ ∀ line ∈ job.source.lines, ¬ Visible job.request.query line := by
  have hb := job.scanAt_blank n
  rw [h] at hb
  rcases hb with ⟨h1, h2⟩ | ⟨⟨line, hl, hv⟩, h2 | ⟨f, b, h2⟩⟩
  · exact ⟨fun _ => h2, fun _ => h1⟩
  · exact ⟨fun h0 => absurd h0 h2, fun hall => absurd hv (hall line hl)⟩
  · cases h2

/-- No step sends a `NoSearchResultsFoundMessage`. -/
theorem step_noNotice {ι : Type} {i : ι} {c c' : Client ι} {p p' : Phase}
    (h : job.step i c p = some (c', p'))
    (hc : ∀ m ∈ c.received, ∀ req, m.2 ≠ .noSearchResultsFound req) :
    ∀ m ∈ c'.received, ∀ req, m.2 ≠ .noSearchResultsFound req := by
  cases job.step_cases h with
  | check | wait => exact hc
  | request f sem =>
    intro m hm req
    rw [Client.pushNotEnough_received] at hm
    rcases List.mem_append.1 hm with hm | hm
    · exact hc m hm req
    · simp only [List.mem_cons, List.not_mem_nil, or_false] at hm
      rcases hm with rfl | rfl <;> simp
  | consume f b => rwa [Client.consumeCredit_received]
  | deliver f b =>
    intro m hm req
    rw [Client.pushResult_received] at hm
    rcases List.mem_append.1 hm with hm | hm
    · exact hc m hm req
    · rw [List.mem_singleton.1 hm]
      simp

end Job

namespace Service

variable {κ : Type} [DecidableEq κ] {A : κ} {req : SearchRequest}

/-- Nobody has been sent a `NoSearchResultsFoundMessage`. -/
def NoNotice (s : Service κ) : Prop :=
  ∀ k, ∀ m ∈ (s.pool.clients k).received, ∀ req, m.2 ≠ .noSearchResultsFound req

/-- **No step of the service sends a `NoSearchResultsFoundMessage`.** -/
theorem step_noNotice {s s' : Service κ} {m : Move} (h : NoNotice s) (hs : s.step m = some s') :
    NoNotice s' := by
  cases step_cases hs with
  | addContentSource | acquire | spawned | spawn | join | notJoinable | release => exact h
  | thread i pool hi =>
    obtain ⟨t, c, p, -, hstep, rfl⟩ := System.step_cases hi
    intro k
    by_cases hk : k = t.job.client
    · subst hk
      simpa using t.job.step_noNotice hstep (h _)
    · simpa [hk] using h k

/-- **The outcome of the call is reported** to the client `A`, with the sources `S` searched: a
notice if there was no result, and none if each source had one. -/
def OutcomeReported (A : κ) (req : SearchRequest) (S : List ContentSource) (s : Service κ) : Prop :=
  ((s.pool.clients A).results req = [] →
      ∃ m ∈ (s.pool.clients A).received, m.2 = .noSearchResultsFound req) ∧
    ((∀ j src, S[j]? = some src → (jobOf A req src).sentBy (S.length + j) (s.pool.clients A) ≠ []) →
      ∀ m ∈ (s.pool.clients A).received, m.2 ≠ .noSearchResultsFound req)

/-- **An outcome is reported exactly if it is not empty**: when the call has returned, the client
knows the outcome if and only if some line of some source registered at the start of the call has
a visible occurrence of the query. -/
theorem noResults_reported_iff {clients : κ → Client ℕ}
    (hprem : (clients A).subscriptionType = .premium) {sources : List ContentSource}
    {before after : List Move} {s₁ s₂ s₃ : Service κ}
    (h₁ : exec step (init clients sources A req) before = some s₁) (hcalled : s₁.phase = .called)
    (h₂ : s₁.step .caller = some s₂) (h₃ : exec step s₂ after = some s₃)
    (hret : s₃.phase = .returned) :
    OutcomeReported A req s₁.contentSources s₃ ↔
      ∃ src ∈ s₁.contentSources, ∃ line ∈ src.lines, Visible req.query line := by
  have hq : QueryInv A req s₁.contentSources s₃ :=
    exec_inv step_queryInv (acquire_queryInv hprem h₁ hcalled h₂) h₃
  obtain ⟨hp, hend⟩ := query_ended hq hret
  have hno : NoNotice s₃ := by
    have h0 : NoNotice (init clients sources A req) := by
      intro k m hm
      simp [init, System.init] at hm
    exact exec_inv step_noNotice (step_noNotice (exec_inv step_noNotice h0 h₁) h₂) h₃
  constructor
  · -- a result was delivered, so its thread saw a match
    rintro ⟨hnone, -⟩
    have hne : (s₃.pool.clients A).results req ≠ [] := by
      intro he
      obtain ⟨m, hm, hreq⟩ := hnone he
      exact hno A m hm req hreq
    obtain ⟨m, hm⟩ := List.exists_mem_of_ne_nil _ hne
    have htag := hp.tags m hm
    obtain ⟨src, hsrc, -⟩ := hp.thread (m.1 - s₁.contentSources.length) (by omega)
    obtain ⟨n, hn⟩ := hend _ src hsrc
    rw [Nat.add_sub_cancel' htag.1] at hn
    refine ⟨src, List.mem_of_getElem? hsrc, ?_⟩
    by_contra hall
    push Not at hall
    have hnil := ((jobOf A req src).scan_nil_iff hn).2 hall
    have hmem : m.2 ∈ (jobOf A req src).sentBy m.1 (s₃.pool.clients A) := by
      unfold Job.sentBy Merge.part
      exact List.mem_map_of_mem (List.mem_filter.2 ⟨hm, by simp⟩)
    rw [hnil] at hmem
    cases hmem
  · -- the thread of a visible line has sent a result
    rintro ⟨src, hsrc, line, hline, hv⟩
    obtain ⟨j, hj⟩ := List.getElem?_of_mem hsrc
    obtain ⟨n, hn⟩ := hend j src hj
    refine ⟨?_, fun _ m hm => hno A m hm req⟩
    intro he
    have hnil : (jobOf A req src).sentBy (s₁.contentSources.length + j)
        (s₃.pool.clients A) = [] := by
      unfold Job.sentBy
      rw [show (s₃.pool.clients A).results (jobOf A req src).request = [] from he]
      rfl
    exact absurd hv (((jobOf A req src).scan_nil_iff hn).1 hnil line hline)

theorem noResults_reported_iff_sample :
    OutcomeReported () sampleRequest sampleRegistered.contentSources sampleReturned ↔
      ∃ src ∈ sampleRegistered.contentSources, ∃ line ∈ src.lines,
        Visible sampleRequest.query line := by
  have h₁ : exec step (init sampleClients [sampleSource] () sampleRequest)
      [.addContentSource sampleSource] = some sampleRegistered := (Option.some_get _).symm
  have h₂ : sampleRegistered.step .caller = some sampleLocked := (Option.some_get _).symm
  have h₃ : exec step sampleLocked sampleMoves = some sampleReturned := (Option.some_get _).symm
  exact noResults_reported_iff rfl h₁ (by decide +kernel) h₂ h₃ (by decide +kernel)

/-- One line, `b`. -/
def quietSource : ContentSource where
  filePath := .singleton 116
  lines := [.singleton 98]
  lines_lt := by decide

def quietReturned : Service Unit :=
  (exec step (init sampleClients [quietSource] () sampleRequest)
    ([.caller, .caller, .caller, .thread 1] ++ List.replicate 3 .caller)).get (by decide +kernel)

/-- A search for `a` in it returns, and the client has been sent nothing at all. -/
theorem quiet_unreported :
    exec step (init sampleClients [quietSource] () sampleRequest)
        ([.caller, .caller, .caller, .thread 1] ++ List.replicate 3 .caller) = some quietReturned ∧
      (sampleClients ()).subscriptionType = .premium ∧ sampleRequest.query.bytes ≠ [] ∧
      quietReturned.phase = .returned ∧ (quietReturned.pool.clients ()).received = [] ∧
      ¬ OutcomeReported () sampleRequest [quietSource] quietReturned := by
  have hr : (quietReturned.pool.clients ()).received = [] := by decide +kernel
  refine ⟨(Option.some_get _).symm, rfl, by decide, by decide +kernel, hr, fun h => ?_⟩
  obtain ⟨m, hm, -⟩ := h.1 (by simp [Client.results, hr])
  rw [hr] at hm
  cases hm

end Service

end MTFind2
