import MTFind2.Proof.Accounting
import MTFind2.Proof.Enumeration
import MTFind2.Proof.Termination

/-!
# What a single-threaded search costs

Alone, a thread finds the credit as its last check left it (`Phase.Funded`), so
each result is paid for and no recharge wraps (`funded_step`).

* `premium_billing`: a Premium client is recharged by 15 whenever a check finds a
  credit of 0, that before the last search of a line included; the number of
  recharges and the final credit in closed form.
* `standard_cutoff`: a Standard client with credit `c` is delivered the first `c`
  results that a Premium client is, and is asked for more credit once, if there are
  at least `c`.
-/

namespace MTFind2

open Occurrence

namespace Client

variable {ι : Type} (c : Client ι) (i : ι)

/-- The messages about credit: all but the results. -/
def payments : List (ι × Message) := c.received.filter fun m => !m.2.isResult

@[simp] theorem consumeCredit_payments : c.consumeCredit.payments = c.payments := by
  simp [payments]

@[simp] theorem pushNotEnough_payments (sem : Semaphore) :
    (c.pushNotEnoughCredit i sem).1.payments = c.payments ++
      [(i, .notEnoughCredit), (i, .creditRechargeResponse
        (PaymentService.answer c.subscriptionType rechargeAmount))] := by
  simp [payments, Message.isResult]

@[simp] theorem pushResult_payments (req : SearchRequest) (r : SearchResult) :
    (c.pushSearchResultFound i req r).payments = c.payments := by
  simp [payments, Message.isResult]

end Client

/-- What a thread that runs alone knows of the credit `x` at each point. A match that is held was
not taken for `npos`. -/
def Phase.Funded (x : ℤ) : Phase → Prop
  | .requesting _ _ => x = 0
  | .waiting _ _ => 1 ≤ x
  | .consuming f _ => 1 ≤ x ∧ toSize f.startPos ≠ npos
  | .delivering f _ => 0 ≤ x ∧ toSize f.startPos ≠ npos
  | .checking _ | .finished => 0 ≤ x

namespace Job

variable {ι κ : Type} {job : Job κ} {i : ι} {c c' : Client ι} {p p' : Phase} {f : Frame} {x : ℤ}

theorem enterLine_funded (hx : 0 ≤ x) (n : UInt64) (lines : List StdString) :
    (Phase.enterLine n lines).Funded x := by
  cases lines <;> exact hx

theorem search_funded (hx : 1 ≤ x) : (job.search f).Funded x := by
  unfold search
  dsimp only
  split
  · exact enterLine_funded (by omega) _ _
  · rename_i hne
    exact ⟨hx, hne⟩

/-- **A step of a thread that runs alone** pays for what it delivers, and wraps nothing. -/
theorem funded_step (h : job.step i c p = some (c', p')) (hF : p.Funded c.credit.toInt) :
    p'.Funded c'.credit.toInt ∧ debt c' p' = debt c p := by
  have hdebt := job.debt_step h
  have hcredit := c.hasCredit_iff
  cases job.step_cases h with
  | check f =>
    refine ⟨?_, by simpa using hdebt⟩
    by_cases hc : c.hasCredit = true
    · rw [if_pos hc]
      exact search_funded (hcredit.1 hc)
    · rw [if_neg hc]
      have hF : 0 ≤ c.credit.toInt := hF
      have hle : ¬ 0 < c.credit.toInt := mt hcredit.2 hc
      show c.credit.toInt = 0
      omega
  | request f sem =>
    -- the credit is 0, so the recharge stays in range
    have h0 : c.credit.toInt = 0 := hF
    have hle := c.answered_le
    have hwrap : ¬ c.Wraps := by
      unfold Client.Wraps
      omega
    have hnew := Client.toInt_pushNotEnough_credit c i sem
    rw [if_neg hwrap, h0] at hnew
    refine ⟨?_, by simpa [hwrap] using hdebt⟩
    cases hs : c.subscriptionType with
    | standard =>
      show 0 ≤ _
      omega
    | premium =>
      have hans : c.answered = 15 := by
        rw [Client.answered, hs]
        rfl
      show 1 ≤ _
      omega
  | wait f sem hsem =>
    have hF : 1 ≤ c.credit.toInt := hF
    exact ⟨search_funded hF, by simpa using hdebt⟩
  | consume f b =>
    obtain ⟨hpos, hne⟩ := hF
    have hcons := c.toInt_consumeCredit
    rw [if_pos (by omega)] at hcons
    have hhas : c.hasCredit = true := hcredit.2 (by omega)
    refine ⟨⟨by omega, hne⟩, ?_⟩
    simpa [hhas] using hdebt
  | deliver f b =>
    obtain ⟨hnonneg, hne⟩ := hF
    refine ⟨?_, by simpa using hdebt⟩
    unfold Frame.loopHead
    rw [if_neg hne]
    exact hnonneg

/-- **A thread that runs alone ends with credit**, unless it is cut off. -/
theorem finished_step (h : job.step i c p = some (c', .finished)) (hF : p.Funded c.credit.toInt) :
    1 ≤ c'.credit.toInt ∨ c.subscriptionType = .standard ∧ p.call = .pushNotEnoughCredit := by
  generalize hp' : Phase.finished = p' at h
  cases job.step_cases h with
  | check f =>
    left
    by_cases hc : c.hasCredit = true
    · exact c.hasCredit_iff.1 hc
    · rw [if_neg hc] at hp'
      cases hp'
  | request f sem =>
    right
    cases hs : c.subscriptionType with
    | standard => exact ⟨rfl, rfl⟩
    | premium =>
      rw [hs] at hp'
      cases hp'
  | wait f sem hsem => exact .inl hF
  | consume f b => cases hp'
  | deliver f b =>
    -- after a result the loop goes on with a check
    unfold Frame.loopHead at hp'
    rw [if_neg hF.2] at hp'
    cases hp'

/-- With a line in the source a search begins with a check. -/
theorem start_checking (hlines : job.source.lines ≠ []) : ∃ f, job.start = .checking f := by
  obtain ⟨line, lines, hcons⟩ := List.exists_cons_of_ne_nil hlines
  rw [start, hcons]
  exact ⟨_, rfl⟩

/-- A single-threaded search delivers for its own request only. -/
theorem delivered_step (h : job.step i c p = some (c', p'))
    (hc : c.delivered = (c.results job.request).length) :
    c'.delivered = (c'.results job.request).length := by
  cases job.step_cases h <;> simp [hc]

/-! ## Premium clients -/

/-- The number of results found in the source. -/
def occurrences (job : Job κ) : ℕ := (job.positions.map List.length).sum

theorem length_found : job.found.length = job.occurrences :=
  length_linesResults (List.length_map _).symm

/-- A recharge request and its response. -/
def rechargePair (i : ι) : List (ι × Message) :=
  [(i, .notEnoughCredit), (i, .creditRechargeResponse 15)]

/-- **What a run for a Premium client keeps**, from a credit of `x`: it was recharged when the
credit was 0, so after a recharge there are at most 15. -/
structure Billed (job : Job κ) (i : ι) (x : ℤ) (c : Client ι) (p : Phase) : Prop where
  premium : c.subscriptionType = .premium
  funded : p.Funded c.credit.toInt
  balance : debt c p = x
  recharges : ∃ r : ℕ, c.payments = (List.replicate r (rechargePair i)).flatten ∧
    c.recharged = 15 * r ∧ (r = 0 ∨ c.credit.toInt ≤ 15)
  results : c.delivered = (c.results job.request).length
  ends : p = .finished → 1 ≤ c.credit.toInt

theorem billed_step (hB : Billed job i x c p) (h : job.step i c p = some (c', p')) :
    Billed job i x c' p' := by
  obtain ⟨hprem, hF, hbal, ⟨r, hpay, hre, hle⟩, hres, -⟩ := hB
  obtain ⟨hF', hbal'⟩ := funded_step h hF
  refine ⟨(job.step_subscriptionType h).trans hprem, hF', hbal'.trans hbal, ?_,
    delivered_step h hres, ?_⟩
  · cases job.step_cases h with
    | check f => exact ⟨r, hpay, hre, hle⟩
    | request f sem =>
      have h0 : c.credit.toInt = 0 := hF
      have hans : c.answered = 15 := by
        rw [Client.answered, hprem]
        rfl
      have hnew := Client.toInt_pushNotEnough_credit c i sem
      refine ⟨r + 1, ?_, ?_, .inr ?_⟩
      · rw [Client.pushNotEnough_payments, hpay, hprem, List.replicate_succ', List.flatten_append,
          List.flatten_singleton]
        rfl
      · rw [Client.pushNotEnough_recharged, hre, hans]
        omega
      · split at hnew <;> omega
    | wait f sem hsem => exact ⟨r, hpay, hre, hle⟩
    | consume f b =>
      have hcons := c.toInt_consumeCredit
      refine ⟨r, by simpa using hpay, by simpa using hre, ?_⟩
      split at hcons <;> omega
    | deliver f b => exact ⟨r, by simpa using hpay, by simpa using hre, hle⟩
  · rintro rfl
    rcases finished_step h hF with h1 | ⟨hstd, -⟩
    · exact h1
    · rw [hprem] at hstd
      cases hstd

/-- Any run for a Premium client is billed. -/
theorem billed_solo (hprem : c.subscriptionType = .premium) (hc : 0 ≤ c.credit.toInt)
    (hlines : job.source.lines ≠ []) (n : ℕ) :
    Billed job i c.credit.toInt (job.solo i n (c.fresh, job.start)).1
      (job.solo i n (c.fresh, job.start)).2 := by
  refine job.solo_inv (I := Billed job i c.credit.toInt) billed_step ?_ n
  obtain ⟨f, hstart⟩ := start_checking hlines
  rw [hstart]
  exact ⟨hprem, hc, by simp [debt, Client.delivered, Client.recharged], ⟨0, rfl, rfl, .inl rfl⟩,
    rfl, fun h => by cases h⟩

/-- **Exact billing.** For a Premium client with credit `c` and a source with `K` occurrences, the
run delivers `K` results for `r` recharges of 15, where `r` is 0 if `K < c` and
`(K - c) / 15 + 1` otherwise, and leaves the credit `c + 15 r - K`, which is not 0. Without a
line nothing happens. -/
theorem premium_billing [DecidableEq ι] (job : Job κ) (i : ι) {c : Client ι}
    (hprem : c.subscriptionType = .premium) (hc : 0 ≤ c.credit.toInt)
    (hshort : job.source.Short) (hq : job.request.query.bytes ≠ []) :
    ∃ n c', job.solo i n (c.fresh, job.start) = (c', .finished) ∧
      (job.source.lines = [] → c' = c.fresh) ∧
      (job.source.lines ≠ [] →
        c'.results job.request = job.found.map (fun r => (i, r)) ∧
        c'.delivered = job.occurrences ∧
        ∃ r : ℕ, (r : ℤ) = (if (job.occurrences : ℤ) < c.credit.toInt then 0
            else (job.occurrences - c.credit.toInt) / 15 + 1) ∧
          c'.payments = (List.replicate r (rechargePair i)).flatten ∧
          c'.credit.toInt = c.credit.toInt + 15 * r - job.occurrences ∧
          1 ≤ c'.credit.toInt) := by
  by_cases hlines : job.source.lines = []
  · have hstart : job.start = .finished := by
      rw [start, hlines]
      rfl
    exact ⟨0, c.fresh, by rw [hstart]; rfl, fun _ => rfl, fun h => absurd hlines h⟩
  · obtain ⟨n, hfin, hout⟩ := (delivers_iff_found (i := i) hprem hshort hq).2 (Eq.refl job.found)
    have hB := billed_solo (i := i) hprem hc hlines n
    generalize hs : job.solo i n (c.fresh, job.start) = s at hfin hout hB
    obtain ⟨c', p⟩ := s
    dsimp only at hfin hout hB
    subst hfin
    obtain ⟨-, -, hbal, ⟨r, hpay, hre, hle⟩, hres, hends⟩ := hB
    have hK : c'.delivered = job.occurrences := by
      rw [hres, hout, List.length_map, length_found]
    have hpos := hends rfl
    have hcredit : c'.credit.toInt = c.credit.toInt + 15 * r - job.occurrences := by
      simp only [debt, Phase.call_finished, reduceCtorEq, if_false] at hbal
      omega
    refine ⟨n, c', hs, fun h => absurd h hlines, fun _ => ⟨hout, hK, r, ?_, hpay, hcredit, hpos⟩⟩
    -- the credit left is at least 1, and at most 15 after a recharge
    split <;> omega

theorem premium_billing_letter :
    ∃ n c', (letterJob 97 97).solo () n (premiumClient.fresh, (letterJob 97 97).start) =
        (c', .finished) ∧
      ((letterJob 97 97).source.lines = [] → c' = premiumClient.fresh) ∧
      ((letterJob 97 97).source.lines ≠ [] →
        c'.results (letterJob 97 97).request = (letterJob 97 97).found.map (fun r => ((), r)) ∧
        c'.delivered = (letterJob 97 97).occurrences ∧
        ∃ r : ℕ, (r : ℤ) = (if ((letterJob 97 97).occurrences : ℤ) < premiumClient.credit.toInt
            then 0 else ((letterJob 97 97).occurrences - premiumClient.credit.toInt) / 15 + 1) ∧
          c'.payments = (List.replicate r (rechargePair ())).flatten ∧
          c'.credit.toInt =
            premiumClient.credit.toInt + 15 * r - (letterJob 97 97).occurrences ∧
          1 ≤ c'.credit.toInt) :=
  premium_billing (letterJob 97 97) () rfl (by decide) (by decide) (by decide)

/-! ## Standard clients -/

/-- A refused request and its response. -/
def refusedPair (i : ι) : List (ι × Message) :=
  [(i, .notEnoughCredit), (i, .creditRechargeResponse 0)]

/-- **What a run for a Standard client keeps**, from a credit of `x`: it follows the scan, until
a check finds the credit used up. -/
structure Metered [DecidableEq ι] (job : Job κ) (i : ι) (x : ℤ) (c : Client ι) (p : Phase) :
    Prop where
  standard : c.subscriptionType = .standard
  funded : p.Funded c.credit.toInt
  balance : debt c p = x
  recharged : c.recharged = 0
  results : c.delivered = (c.results job.request).length
  follows : (c.payments = [] ∧ (p = .finished → 1 ≤ c.credit.toInt) ∧
      ∃ n, job.scanAt n = (p.scan, job.sentBy i c)) ∨
    (p = .finished ∧ c.credit.toInt = 0 ∧ c.payments = refusedPair i ∧
      ∃ n, (job.scanAt n).2 = job.sentBy i c)

/-- A step of a thread that is not cut off leaves the scan as it is or is one step of it. -/
theorem step_scan [DecidableEq ι] (h : job.step i c p = some (c', p'))
    (hcall : p.call ≠ .pushNotEnoughCredit) {n : ℕ}
    (hn : job.scanAt n = (p.scan, job.sentBy i c)) :
    ∃ m, job.scanAt m = (p'.scan, job.sentBy i c') := by
  have hsucc := job.scanAt_succ n
  rw [hn] at hsucc
  cases job.step_cases h with
  | check f =>
    by_cases hc : c.hasCredit = true
    · refine ⟨n + 1, ?_⟩
      rw [hsucc, if_pos hc]
      rfl
    · refine ⟨n, ?_⟩
      rw [hn, if_neg hc]
      rfl
  | request f sem => exact absurd rfl hcall
  | wait f sem hsem => exact ⟨n + 1, hsucc⟩
  | consume f b =>
    refine ⟨n, ?_⟩
    rw [hn]
    simp [Phase.scan, sentBy]
  | deliver f b =>
    refine ⟨n + 1, ?_⟩
    rw [hsucc]
    simp [Phase.scan, scanStep, sentBy]

theorem metered_step [DecidableEq ι] (hM : Metered job i x c p)
    (h : job.step i c p = some (c', p')) : Metered job i x c' p' := by
  obtain ⟨hstd, hF, hbal, hre, hres, hfollows⟩ := hM
  obtain ⟨hF', hbal'⟩ := funded_step h hF
  have hans : c.answered = 0 := by
    rw [Client.answered, hstd]
    rfl
  have hre' : c'.recharged = 0 := by
    cases job.step_cases h <;> simp [hre, hans]
  refine ⟨(job.step_subscriptionType h).trans hstd, hF', hbal'.trans hbal, hre',
    delivered_step h hres, ?_⟩
  rcases hfollows with ⟨hpay, -, n, hn⟩ | ⟨rfl, -⟩
  · by_cases hcall : p.call = .pushNotEnoughCredit
    · -- the request of a Standard client ends its run
      right
      cases job.step_cases h with
      | request f sem =>
        have h0 : c.credit.toInt = 0 := hF
        refine ⟨if_pos hstd, ?_, ?_, n, ?_⟩
        · rw [Client.pushNotEnough_credit, hstd]
          simpa using h0
        · rw [Client.pushNotEnough_payments, hpay, hstd]
          rfl
        · rw [hn]
          simp [sentBy]
      | check | wait | consume | deliver => cases hcall
    · left
      refine ⟨?_, ?_, step_scan h hcall hn⟩
      · cases job.step_cases h with
        | request f sem => exact absurd rfl hcall
        | check | wait | consume | deliver => simpa using hpay
      · rintro rfl
        rcases finished_step h hF with h1 | ⟨-, h1⟩
        · exact h1
        · exact absurd h1 hcall
  · cases h

theorem metered_solo [DecidableEq ι] (hstd : c.subscriptionType = .standard)
    (hc : 0 ≤ c.credit.toInt) (hlines : job.source.lines ≠ []) (n : ℕ) :
    Metered job i c.credit.toInt (job.solo i n (c.fresh, job.start)).1
      (job.solo i n (c.fresh, job.start)).2 := by
  refine job.solo_inv (I := Metered job i c.credit.toInt) metered_step ?_ n
  obtain ⟨f, hstart⟩ := start_checking hlines
  have hscan : job.scanAt 0 = (job.start.scan, job.sentBy i c.fresh) := rfl
  rw [hstart] at hscan ⊢
  exact ⟨hstd, hc, by simp [debt, Client.delivered, Client.recharged], rfl, rfl,
    .inl ⟨rfl, fun h => (by cases h), 0, hscan⟩⟩

/-- A step of a Standard client's thread does not raise its credit. -/
theorem credit_step (hstd : c.subscriptionType = .standard)
    (h : job.step i c p = some (c', p')) : c'.credit.toInt ≤ c.credit.toInt := by
  cases job.step_cases h with
  | check | wait | deliver => exact le_rfl
  | request f sem =>
    rw [Client.pushNotEnough_credit, hstd]
    exact le_rfl
  | consume f b =>
    rw [c.toInt_consumeCredit]
    split <;> omega

/-- **A Standard search is cut off exactly at its credit.** With `R` the results that a Premium
client is delivered, a client with credit `c` gets the first `c` of them. It never gains credit,
and asks for more once, in vain, exactly if there are at least `c`. -/
theorem standard_cutoff [DecidableEq ι] (job : Job κ) (i : ι) {c : Client ι}
    (hstd : c.subscriptionType = .standard) (hc : 0 ≤ c.credit.toInt)
    (hlines : job.source.lines ≠ []) (hshort : job.source.Short)
    (hq : job.request.query.bytes ≠ []) :
    ∃ R, (∀ c₁ : Client ι, c₁.subscriptionType = .premium → job.Delivers i c₁ R) ∧
      (∀ n, (job.solo i (n + 1) (c.fresh, job.start)).1.credit.toInt ≤
        (job.solo i n (c.fresh, job.start)).1.credit.toInt) ∧
      ∃ n c', job.solo i n (c.fresh, job.start) = (c', .finished) ∧
        c'.results job.request =
          (R.take (min c.credit.toInt.toNat R.length)).map (fun r => (i, r)) ∧
        c'.credit.toInt = c.credit.toInt - min c.credit.toInt R.length ∧
        c'.payments = if c.credit.toInt ≤ R.length then refusedPair i else [] := by
  refine ⟨job.found, fun c₁ h₁ => (delivers_iff_found h₁ hshort hq).2 rfl, ?_, ?_⟩
  · intro n
    rw [solo_succ]
    cases h : job.step i (job.solo i n (c.fresh, job.start)).1
        (job.solo i n (c.fresh, job.start)).2 with
    | none => exact le_rfl
    | some s => exact credit_step (metered_solo hstd hc hlines n).standard h
  · obtain ⟨⟨n, hfin⟩, -⟩ := job.ends_of_standard (i := i) hstd
    have hM := metered_solo (i := i) hstd hc hlines n
    have hsent := job.solo_results (i := i) c n
    generalize hs : job.solo i n (c.fresh, job.start) = s at hfin hM hsent
    obtain ⟨c', p⟩ := s
    dsimp only at hfin hM hsent
    subst hfin
    obtain ⟨-, -, hbal, hre, hres, hfollows⟩ := hM
    -- as many results as credit was used
    have hlen : c'.delivered = (job.sentBy i c').length := by
      rw [hres, hsent, List.length_map]
    have hcredit : c'.credit.toInt = c.credit.toInt - (job.sentBy i c').length := by
      simp only [debt, Phase.call_finished, reduceCtorEq, if_false] at hbal
      omega
    obtain ⟨m, hm⟩ := scan_ends hshort hq (positions_selects hq)
    refine ⟨n, c', hs, ?_⟩
    rw [hsent]
    rcases hfollows with ⟨hpay, hend, k, hk⟩ | ⟨-, h0, hpay, k, hk⟩
    · -- the scan ended: all results, and credit is left
      have hall : job.sentBy i c' = job.found := job.scan_unique hk hm
      have hpos := hend rfl
      rw [hall] at hcredit ⊢
      refine ⟨?_, ?_, ?_⟩
      · rw [List.take_of_length_le (by omega)]
      · omega
      · rw [hpay, if_neg (by omega)]
    · -- cut off: a first part of the results, as long as the credit
      have hpre : job.sentBy i c' <+: job.found := by
        have h1 : (job.scanAt k).2 <+: (job.scanAt (max k m)).2 :=
          job.scanAt_prefix (le_max_left k m)
        rw [hk, job.scanAt_finished hm _ (le_max_right k m)] at h1
        exact h1
      have hle := hpre.length_le
      refine ⟨?_, ?_, ?_⟩
      · rw [List.prefix_iff_eq_take.1 hpre]
        congr 2
        omega
      · omega
      · rw [hpay, if_pos (by omega)]

/-- A Standard client with one credit. -/
def standardClient : Client Unit := ⟨0, .standard, 1, []⟩

theorem standard_cutoff_letter :
    ∃ R, (∀ c₁ : Client Unit, c₁.subscriptionType = .premium →
        (letterJob 97 97).Delivers () c₁ R) ∧
      (∀ n, ((letterJob 97 97).solo () (n + 1)
          (standardClient.fresh, (letterJob 97 97).start)).1.credit.toInt ≤
        ((letterJob 97 97).solo () n
          (standardClient.fresh, (letterJob 97 97).start)).1.credit.toInt) ∧
      ∃ n c', (letterJob 97 97).solo () n (standardClient.fresh, (letterJob 97 97).start) =
          (c', .finished) ∧
        c'.results (letterJob 97 97).request =
          (R.take (min standardClient.credit.toInt.toNat R.length)).map (fun r => ((), r)) ∧
        c'.credit.toInt = standardClient.credit.toInt - min standardClient.credit.toInt R.length ∧
        c'.payments =
          if standardClient.credit.toInt ≤ R.length then refusedPair () else [] :=
  standard_cutoff (letterJob 97 97) () rfl (by decide) (by decide) (by decide) (by decide)

end Job

end MTFind2
