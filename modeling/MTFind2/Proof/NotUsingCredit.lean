import MTFind2.Proof.Scan

/-!
# Clients that do not use credit

`NotUsingCredit` is `-1`, and `has_credit()` compares with zero: such a client is
treated like one that has run out.

* `solo_two`: on a source with a line, the first check of any client without
  credit is followed by a request for credit.
* `searchedWithoutCredit_iff`: so a client that does not use credit is searched as
  one that always has credit only where there is no line to search.
* `standard_cutOff`: on any other source a Standard client's search ends there,
  with no result.
-/

namespace MTFind2

namespace Job

variable {ι κ : Type} (job : Job κ)

/-- **Searched without credit**: as a client that always has credit, and with no request for
credit, no recharge and no change of credit. -/
structure SearchedWithoutCredit (i : ι) (c : Client ι) : Prop where
  /-- Every part of the sequence delivered is delivered to a client that always has credit, and
  the other way round. -/
  parts : ∀ out, (∃ n, (job.solo i n (c.fresh, job.start)).1.results job.request = out) ↔
    ∃ n, (job.soloUnlimited i n (c.fresh, job.start)).1.results job.request = out
  /-- The search ends with the same results. -/
  ends : ∀ out, (∃ n, (job.solo i n (c.fresh, job.start)).2 = .finished ∧
      (job.solo i n (c.fresh, job.start)).1.results job.request = out) ↔
    ∃ n, (job.soloUnlimited i n (c.fresh, job.start)).2 = .finished ∧
      (job.soloUnlimited i n (c.fresh, job.start)).1.results job.request = out
  noRequest : ∀ n, ∀ m ∈ (job.solo i n (c.fresh, job.start)).1.received, m.2 ≠ .notEnoughCredit
  noRecharge : ∀ n, ∀ m ∈ (job.solo i n (c.fresh, job.start)).1.received, ∀ amount,
    m.2 ≠ .creditRechargeResponse amount
  credit : ∀ n, (job.solo i n (c.fresh, job.start)).1.credit = c.credit

variable {i : ι} {c : Client ι}

theorem hasCredit_notUsingCredit (hc : c.credit = Client.notUsingCredit) : c.hasCredit = false := by
  rw [Client.hasCredit, hc]
  decide

/-- Without credit, the first check of a line is followed by a request for credit. -/
theorem solo_two (hc : c.hasCredit = false) (hlines : job.source.lines ≠ []) :
    ∃ f, job.solo i 2 (c.fresh, job.start) = ((c.fresh.pushNotEnoughCredit i ⟨0⟩).1,
      if c.subscriptionType = .standard then .finished else .waiting f (Semaphore.notify ⟨0⟩)) := by
  have hf : c.fresh.hasCredit = false := hc
  cases h : job.source.lines with
  | nil => exact absurd h hlines
  | cons line lines =>
    exact ⟨{ lineNumber := 1, line, later := lines, startPos := 0, endPos := 0 }, by
      simp [solo, start, h, Phase.enterLine, step, stepGiven, hf]⟩

/-- **A Standard client without credit** is cut off before the first result: it is sent the
request for credit and the recharge of zero that answers it. -/
theorem standard_cutOff (hstd : c.subscriptionType = .standard) (hc : c.hasCredit = false)
    (hlines : job.source.lines ≠ []) :
    (job.solo i 2 (c.fresh, job.start)).2 = .finished ∧
      (job.solo i 2 (c.fresh, job.start)).1.received =
        [(i, .notEnoughCredit), (i, .creditRechargeResponse 0)] := by
  obtain ⟨f, hf⟩ := job.solo_two (i := i) hc hlines
  rw [hf]
  simp [hstd, PaymentService.answer]

/-- With no line to search both runs stay at their end. -/
theorem solo_noLines (hlines : job.source.lines = []) (n : ℕ) :
    job.solo i n (c, job.start) = (c, .finished) ∧
      job.soloUnlimited i n (c, job.start) = (c, .finished) := by
  have hstart : job.start = .finished := by simp [start, hlines, Phase.enterLine]
  rw [hstart]
  exact ⟨Function.iterate_fixed rfl n, Function.iterate_fixed rfl n⟩

/-- **A client that does not use credit** is searched as one that always has credit exactly if
there is no line to search. -/
theorem searchedWithoutCredit_iff (i : ι) (hc : c.credit = Client.notUsingCredit) :
    job.SearchedWithoutCredit i c ↔ job.source.lines = [] := by
  constructor
  · intro h
    by_contra hlines
    obtain ⟨f, hf⟩ := job.solo_two (i := i) (hasCredit_notUsingCredit hc) hlines
    have hno := h.noRequest 2 (i, .notEnoughCredit)
    rw [hf] at hno
    exact hno (by simp) rfl
  · intro hlines
    have h := job.solo_noLines (i := i) (c := c.fresh) hlines
    constructor
    · intro out
      simp only [(h _).1, (h _).2]
    · intro out
      simp only [(h _).1, (h _).2]
    · intro n m hm
      rw [(h n).1] at hm
      cases hm
    · intro n m hm
      rw [(h n).1] at hm
      cases hm
    · intro n
      rw [(h n).1]
      rfl

theorem searchedWithoutCredit_iff_letter :
    (letterJob 97 97).SearchedWithoutCredit () (Client.createRandom 0 false) ↔
      (letterJob 97 97).source.lines = [] :=
  (letterJob 97 97).searchedWithoutCredit_iff () rfl

/-- A Standard client that the program creates gets no result where a client that always has
credit gets one, and it is asked for credit. -/
theorem letter_notSearched :
    (Client.createRandom 0 false : Client Unit).credit = Client.notUsingCredit ∧
      (letterJob 97 97).request.query.bytes ≠ [] ∧
      ((letterJob 97 97).solo () 2
        (Client.createRandom 0 false, (letterJob 97 97).start)).2 = .finished ∧
      ((letterJob 97 97).solo () 2
        (Client.createRandom 0 false, (letterJob 97 97).start)).1.received =
          [((), .notEnoughCredit), ((), .creditRechargeResponse 0)] ∧
      (((letterJob 97 97).soloUnlimited () 5
        (Client.createRandom 0 false, (letterJob 97 97).start)).1.results
          (letterJob 97 97).request).length = 1 ∧
      ¬ (letterJob 97 97).SearchedWithoutCredit () (Client.createRandom 0 false) := by
  have hcut := (letterJob 97 97).standard_cutOff (i := ()) (c := Client.createRandom 0 false)
    rfl rfl (by decide)
  refine ⟨rfl, by decide, hcut.1, hcut.2, by decide +kernel, ?_⟩
  intro h
  have hm : ((), Message.notEnoughCredit) ∈ ((letterJob 97 97).solo () 2
      ((Client.createRandom 0 false).fresh, (letterJob 97 97).start)).1.received := by
    rw [hcut.2]
    exact List.mem_cons_self
  exact h.noRequest 2 _ hm rfl

end Job

end MTFind2
