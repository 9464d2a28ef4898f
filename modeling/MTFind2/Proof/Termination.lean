import MTFind2.Proof.Line
import MTFind2.Spec.TextFile

/-!
# Which searches end

A single-threaded run stops by itself only where the scan advances or the credit
runs out.

* `ends_of_standard`: a Standard client runs out of credit, or of lines; by
  induction on the credit, and for each credit on the lines left.
* `ends_of_premium`: a non-empty query ends on short lines (`scan_ends`).
* `not_ends_of_empty`: for a Premium client the empty query is found at position 0
  of the first line over and over.
* `ends_iff`: so a run ends exactly if the client is Standard, the query is not
  empty, or the source has no lines.
-/

namespace MTFind2

open Occurrence

namespace Job

variable {ι κ : Type} (job : Job κ)

/-- The single-threaded run for `c` reaches the end of `find_in_source`, and delivers only
finitely many results. -/
def Ends (i : ι) (c : Client ι) : Prop :=
  (∃ n, (job.solo i n (c.fresh, job.start)).2 = .finished) ∧
    ∃ N, ∀ n, (job.solo i n (c.fresh, job.start)).1.delivered ≤ N

variable {i : ι} {c c' : Client ι} {p p' : Phase} {f : Frame}

/-! ## Bounded delivery -/

/-- A step delivers at most one result. -/
theorem step_delivered (h : job.step i c p = some (c', p')) :
    c.delivered ≤ c'.delivered ∧ c'.delivered ≤ c.delivered + 1 := by
  cases job.step_cases h <;> simp

theorem solo_delivered_le (n : ℕ) : (job.solo i n (c.fresh, job.start)).1.delivered ≤ n := by
  induction n with
  | zero => simp [solo, Client.delivered]
  | succ n ih =>
    rw [solo_succ]
    cases h : job.step i (job.solo i n (c.fresh, job.start)).1
        (job.solo i n (c.fresh, job.start)).2 with
    | none => exact Nat.le_succ_of_le ih
    | some s =>
      have := (job.step_delivered h).2
      simp only [Option.getD_some]
      omega

/-- A finished run stays as it is. -/
theorem solo_finished {s : Client ι × Phase} (h : s.2 = .finished) (n : ℕ) :
    job.solo i n s = s := by
  induction n with
  | zero => rfl
  | succ n ih => rw [solo_succ, ih, h]; rfl

/-- A run that reaches its end delivers finitely many results. -/
theorem ends_of_finished {n : ℕ} (h : (job.solo i n (c.fresh, job.start)).2 = .finished) :
    job.Ends i c := by
  refine ⟨⟨n, h⟩, n, ?_⟩
  intro m
  rcases Nat.le_total m n with hm | hm
  · exact (job.solo_delivered_le m).trans hm
  · obtain ⟨k, rfl⟩ := Nat.exists_eq_add_of_le' hm
    rw [solo_add, job.solo_finished h]
    exact job.solo_delivered_le n

/-! ## Standard clients -/

/-- The run from here reaches its end. -/
def EndsFrom (i : ι) (c : Client ι) (p : Phase) : Prop := ∃ n, (job.solo i n (c, p)).2 = .finished

theorem endsFrom_finished : job.EndsFrom i c .finished := ⟨0, rfl⟩

/-- A run ends if it does after a step. -/
theorem EndsFrom.of_step (c' : Client ι) (p' : Phase) (h : job.step i c p = some (c', p'))
    (he : job.EndsFrom i c' p') : job.EndsFrom i c p := by
  obtain ⟨n, hn⟩ := he
  refine ⟨n + 1, ?_⟩
  have h1 : job.solo i 1 (c, p) = (c', p') := by simp [solo, h]
  rw [solo_add, h1]
  exact hn

/-- A Standard client's run ends from every point of the loop where it has one credit less than
`c`. -/
def EndsWithLess (i : ι) (c : Client ι) : Prop :=
  ∀ (c' : Client ι) (f : Frame), c'.subscriptionType = .standard → 0 < c.credit.toInt →
    c'.credit.toInt = c.credit.toInt - 1 → job.EndsFrom i c' f.loopHead

/-- A check without credit ends the run; with credit it leads to the next line, or to a match
after which there is less credit. -/
theorem endsFrom_checking (hstd : c.subscriptionType = .standard) (hless : job.EndsWithLess i c)
    (hline : job.EndsFrom i c f.nextLine) : job.EndsFrom i c (.checking f) := by
  by_cases hc : c.hasCredit = true
  · have hpos : 0 < c.credit.toInt := (Client.hasCredit_iff c).1 hc
    refine .of_step job c (job.search f) (by simp [step, stepGiven, hc]) ?_
    rcases job.search_cases f with h | ⟨f', b, h, -⟩
    · rwa [h]
    · -- the match is paid for and delivered, and the loop goes on with one credit less
      rw [h]
      refine .of_step job c.consumeCredit (.delivering f' b) rfl ?_
      refine .of_step job _ _ rfl (hless _ _ ?_ hpos ?_)
      · simpa using hstd
      · rw [Client.pushResult_credit, Client.toInt_consumeCredit, if_pos hpos]
  · refine .of_step job c (.requesting f ⟨0⟩) (by simp [step, stepGiven, hc]) ?_
    refine .of_step job (c.pushNotEnoughCredit i ⟨0⟩).1 .finished ?_
      (job.endsFrom_finished)
    simp [step, stepGiven, hstd]

theorem endsFrom_enterLine (hstd : c.subscriptionType = .standard) (hless : job.EndsWithLess i c)
    (n : UInt64) (lines : List StdString) : job.EndsFrom i c (.enterLine n lines) := by
  induction lines generalizing n with
  | nil => exact job.endsFrom_finished
  | cons line lines ih => exact job.endsFrom_checking hstd hless (ih _)

/-- By induction on the credit: each match takes one. -/
theorem endsWithLess (c : Client ι) : job.EndsWithLess i c := by
  suffices h : ∀ (k : ℕ) (c : Client ι), c.credit.toInt ≤ k → job.EndsWithLess i c from
    h c.credit.toInt.toNat c (by omega)
  intro k
  induction k with
  | zero => exact fun c hk c' f _ hpos => by omega
  | succ k ih =>
    intro c hk c' f hstd hpos hc'
    have hless := ih c' (by push_cast at hk; omega)
    have hline : job.EndsFrom i c' f.nextLine := job.endsFrom_enterLine hstd hless _ _
    unfold Frame.loopHead
    split
    · exact hline
    · exact job.endsFrom_checking hstd hless hline

/-- **A Standard client's run ends**, whatever the query. -/
theorem ends_of_standard (hstd : c.subscriptionType = .standard) : job.Ends i c := by
  obtain ⟨n, hn⟩ := job.endsFrom_enterLine (i := i) (c := c.fresh) hstd (job.endsWithLess _) 1
    job.source.lines
  exact job.ends_of_finished hn

/-! ## Premium clients -/

/-- **A non-empty query ends** on short lines. -/
theorem ends_of_premium [DecidableEq ι] (hprem : c.subscriptionType = .premium)
    (hshort : job.source.Short) (hq : job.request.query.bytes ≠ []) : job.Ends i c := by
  obtain ⟨pss, hpss⟩ := exists_positions hq job.source.lines
  obtain ⟨n, hn⟩ := scan_ends hshort hq hpss
  obtain ⟨m, hm, -⟩ := job.delivers_of_scan (i := i) (c := c) hprem hn
  exact job.ends_of_finished hm

/-- The frame stands at the start of its line. -/
def AtStart : Scan → Prop
  | .searching f | .found f _ => f.startPos = 0 ∧ f.endPos = 0
  | .finished => False

/-- The empty query is found at the start of the line, and the search resumes there. -/
theorem scanStep_atStart (hq : job.request.query.bytes = []) {s : Scan × List SearchResult}
    (h : AtStart s.1) : AtStart (job.scanStep s).1 := by
  obtain ⟨s, out⟩ := s
  cases s with
  | searching f =>
    have hf : firstFrom job.request.query.bytes f.line.bytes (toSize f.endPos).toNat = some 0 := by
      rw [hq, h.2]
      exact firstFrom_nil (Nat.zero_le _)
    simp only [scanStep, job.search_some hf (by norm_num), Phase.scan]
    simp only [AtStart, matched, hq]
    exact ⟨by decide, by decide⟩
  | found f b =>
    have hne : toSize f.startPos ≠ npos := by
      rw [h.1]
      decide
    simp only [scanStep, Frame.loopHead, if_neg hne, Phase.scan]
    exact h
  | finished => exact h.elim

/-- **The empty query does not end** for a Premium client, unless there is no line. -/
theorem not_ends_of_empty [DecidableEq ι] (hprem : c.subscriptionType = .premium)
    (hq : job.request.query.bytes = []) (hlines : job.source.lines ≠ []) : ¬ job.Ends i c := by
  rintro ⟨⟨m, hm⟩, -⟩
  obtain ⟨n, hn⟩ := job.scanAt_of_solo (i := i) (c := c) hprem m
  have hstart : AtStart job.start.scan := by
    unfold start
    cases h : job.source.lines with
    | nil => exact absurd h hlines
    | cons line lines => exact ⟨rfl, rfl⟩
  have hinv : ∀ n, AtStart (job.scanAt n).1 := by
    intro n
    induction n with
    | zero => exact hstart
    | succ n ih =>
      rw [scanAt_succ]
      exact job.scanStep_atStart hq ih
  have h := hinv n
  rw [hn, hm] at h
  exact h

/-- **A search ends exactly if** the client is Standard, the query is not empty, or there is no
line to search. -/
theorem ends_iff [DecidableEq ι] (i : ι) (c : Client ι) (hshort : job.source.Short) :
    job.Ends i c ↔ c.subscriptionType = .standard ∨ job.request.query.bytes ≠ [] ∨
      job.source.lines = [] := by
  constructor
  · intro h
    by_contra hn
    simp only [not_or, not_not] at hn
    obtain ⟨hstd, hq, hlines⟩ := hn
    have hprem : c.subscriptionType = .premium := by
      cases hc : c.subscriptionType with
      | standard => exact absurd hc hstd
      | premium => rfl
    exact job.not_ends_of_empty hprem hq hlines h
  · intro h
    cases hc : c.subscriptionType with
    | standard => exact job.ends_of_standard hc
    | premium =>
      rcases h with h | hq | hlines
      · rw [hc] at h
        cases h
      · exact job.ends_of_premium hc hshort hq
      · refine job.ends_of_finished (n := 0) ?_
        simp [solo, start, hlines, Phase.enterLine]

/-- A file with the one line `b`. -/
def oneLineFile : StdString := ⟨[98, 10], by decide⟩

/-- A dictionary file whose first line is empty. -/
def emptyWordFile : StdString := ⟨[10, 98, 10], by decide⟩

/-- The search of a request drawn from that dictionary. -/
def emptyWordJob : Job Unit where
  client := ()
  source := .read ⟨[], by decide⟩ oneLineFile
  request := ⟨0, ⟨[], by decide⟩, 0⟩

/-- A Premium client with one credit. -/
def premiumClient : Client Unit := ⟨0, .premium, 1, []⟩

theorem ends_iff_emptyWord : emptyWordJob.Ends () premiumClient ↔
    premiumClient.subscriptionType = .standard ∨ emptyWordJob.request.query.bytes ≠ [] ∨
      emptyWordJob.source.lines = [] :=
  emptyWordJob.ends_iff () premiumClient (by decide)

/-- The dictionary gives the empty word as a query, and its search does not end. -/
theorem emptyWord_endless :
    SearchRequest.createRandom (.read emptyWordFile) 0 0 0 = some emptyWordJob.request ∧
      emptyWordJob.source.Short ∧ ¬ emptyWordJob.Ends () premiumClient :=
  ⟨by decide, by decide, emptyWordJob.not_ends_of_empty rfl rfl (by decide)⟩

end Job

end MTFind2
