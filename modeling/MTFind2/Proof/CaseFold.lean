import MTFind2.Proof.Line

/-!
# Two searches that differ in case

`transform_to_lowercase` leaves its argument as it is, so the scan compares bytes
and two texts equal up to case are searched differently.

* `linesReports_injective`: the reports of a source (line, column, length, final
  flag) determine the positions selected in each of its lines.
* `sameReports_iff`: two searches that agree up to case report the same exactly
  if, line by line, one set of positions covers the occurrences of the one query
  in the one line and of the other query in the other line.
-/

namespace MTFind2

open Occurrence

/-- Two strings agree up to the case of ASCII letters. -/
def CaseEq (s s' : StdString) : Prop :=
  s.bytes.map TextHelper.tolower = s'.bytes.map TextHelper.tolower

instance (s s' : StdString) : Decidable (CaseEq s s') := inferInstanceAs (Decidable (_ = _))

theorem CaseEq.length_eq {s s' : StdString} (h : CaseEq s s') :
    s.bytes.length = s'.bytes.length := by
  simpa using congrArg List.length h

/-- What a result reports beside the text: line, column, length, and whether it is final. -/
structure Report where
  line : UInt64
  column : UInt64
  length : UInt64
  isFinal : Bool
deriving DecidableEq

def SearchResult.report (r : SearchResult) : Report :=
  ⟨r.line, r.column, r.length, r.isFinalResult⟩

/-- The reports of line `n` of `size`, for a query of length `len`. -/
def lineReports (size len n : UInt64) : List ℕ → List Report
  | [] => []
  | p :: ps => ⟨n, UInt64.ofNat (p + 1), len, decide (n = size) && ps.isEmpty⟩ ::
      lineReports size len n ps

/-- The reports of the lines from `n` on. -/
def linesReports (size len n : UInt64) : List (List ℕ) → List Report
  | [] => []
  | ps :: pss => lineReports size len n ps ++ linesReports size len (n + 1) pss

section Reports

variable {size len n : UInt64}

theorem lineReports_line (ps : List ℕ) : ∀ r ∈ lineReports size len n ps, r.line = n := by
  induction ps with
  | nil => simp [lineReports]
  | cons p ps ih =>
    intro r hr
    rcases List.mem_cons.1 hr with rfl | hr
    · rfl
    · exact ih r hr

theorem linesReports_line {pss : List (List ℕ)} (hn : n.toNat + pss.length < 2 ^ 64) :
    ∀ r ∈ linesReports size len n pss, n.toNat ≤ r.line.toNat := by
  induction pss generalizing n with
  | nil => simp [linesReports]
  | cons ps pss ih =>
    intro r hr
    rw [List.length_cons] at hn
    have h1 := toNat_add_one hn
    rcases List.mem_append.1 hr with hr | hr
    · rw [lineReports_line ps r hr]
    · have := ih (by omega) r hr
      omega

theorem lineReports_injective {ps ps' : List ℕ} (h : ∀ p ∈ ps, p + 1 < 2 ^ 64)
    (h' : ∀ p ∈ ps', p + 1 < 2 ^ 64)
    (he : lineReports size len n ps = lineReports size len n ps') : ps = ps' := by
  induction ps generalizing ps' with
  | nil =>
    cases ps' with
    | nil => rfl
    | cons p' ps' => cases he
  | cons p ps ih =>
    cases ps' with
    | nil => cases he
    | cons p' ps' =>
      obtain ⟨hr, ht⟩ := List.cons.inj he
      have hc := congrArg UInt64.toNat (Report.mk.inj hr).2.1
      have h1 := h p List.mem_cons_self
      have h2 := h' p' List.mem_cons_self
      rw [toNat_ofNat_lt h1, toNat_ofNat_lt h2] at hc
      rw [ih (fun x hx => h x (List.mem_cons_of_mem _ hx))
        (fun x hx => h' x (List.mem_cons_of_mem _ hx)) ht, Nat.succ_injective hc]

/-- **The reports of a source determine the positions** found in each line. -/
theorem linesReports_injective {pss pss' : List (List ℕ)} (hlen : pss.length = pss'.length)
    (hn : n.toNat + pss.length < 2 ^ 64) (h : ∀ ps ∈ pss, ∀ p ∈ ps, p + 1 < 2 ^ 64)
    (h' : ∀ ps ∈ pss', ∀ p ∈ ps, p + 1 < 2 ^ 64)
    (he : linesReports size len n pss = linesReports size len n pss') : pss = pss' := by
  induction pss generalizing n pss' with
  | nil => exact (List.length_eq_zero_iff.1 hlen.symm).symm
  | cons ps pss ih =>
    cases pss' with
    | nil => cases hlen
    | cons ps' pss' =>
      rw [List.length_cons, List.length_cons] at hlen
      rw [List.length_cons] at hn
      have h1 := toNat_add_one hn
      -- the reports of line `n` are those with line number `n`
      have hfirst : ∀ qs qss, qss.length = pss.length →
          (linesReports size len n (qs :: qss)).filter (fun r => r.line = n) =
            lineReports size len n qs := by
        intro qs qss hq
        rw [linesReports, List.filter_append, List.filter_eq_self.2, List.filter_eq_nil_iff.2,
          List.append_nil]
        · intro r hr hrn
          have := linesReports_line (by omega) r hr
          rw [of_decide_eq_true hrn] at this
          omega
        · exact fun r hr => decide_eq_true (lineReports_line qs r hr)
      have hl := congrArg (List.filter fun r => r.line = n) he
      rw [hfirst ps pss rfl, hfirst ps' pss' (by omega)] at hl
      rw [linesReports, linesReports, hl] at he
      rw [lineReports_injective (h ps List.mem_cons_self) (h' ps' List.mem_cons_self) hl,
        ih (by omega) (by omega) (fun qs hqs => h qs (List.mem_cons_of_mem _ hqs))
          (fun qs hqs => h' qs (List.mem_cons_of_mem _ hqs)) (List.append_cancel_left he)]

end Reports

namespace Job

variable {ι κ : Type} (job job' : Job κ)

theorem map_report_lineResults (n : UInt64) (line : StdString) (ps : List ℕ) :
    (job.lineResults n line ps).map SearchResult.report =
      lineReports job.source.size job.request.query.size n ps := by
  induction ps with
  | nil => rfl
  | cons p ps ih => rw [lineResults, List.map_cons, ih]; rfl

theorem map_report_linesResults {lines : List StdString} {pss : List (List ℕ)} (n : UInt64)
    (hlen : lines.length = pss.length) :
    (job.linesResults n lines pss).map SearchResult.report =
      linesReports job.source.size job.request.query.size n pss := by
  induction lines generalizing n pss with
  | nil =>
    rw [List.length_eq_zero_iff.1 hlen.symm]
    rfl
  | cons line lines ih =>
    cases pss with
    | nil => cases hlen
    | cons ps pss =>
      rw [linesResults, List.map_append, job.map_report_lineResults,
        ih (n + 1) (Nat.succ_injective hlen), linesReports]

/-- **Both searches end and report the same.** -/
def SameReports (i : ι) (c : Client ι) : Prop :=
  ∃ out out', job.Delivers i c out ∧ job'.Delivers i c out' ∧
    out.map SearchResult.report = out'.map SearchResult.report

/-- The occurrences of two queries in two lines have a common cover. -/
def SameCover (q q' line line' : StdString) : Prop :=
  ∃ G, Cover q.bytes line.bytes G ∧ Cover q'.bytes line'.bytes G

/-- **Line by line**, equal positions mean common covers. -/
theorem positions_eq_iff {q q' : StdString} (hq : q.bytes ≠ []) (hq' : q'.bytes ≠ [])
    {lines lines' : List StdString} {pss pss' : List (List ℕ)}
    (h : List.Forall₂ (fun line ps => Selects q.bytes line.bytes 0 ps) lines pss)
    (h' : List.Forall₂ (fun line ps => Selects q'.bytes line.bytes 0 ps) lines' pss')
    (hlen : lines.length = lines'.length) :
    pss = pss' ↔ List.Forall₂ (SameCover q q') lines lines' := by
  induction h generalizing lines' pss' with
  | nil =>
    cases List.length_eq_zero_iff.1 hlen.symm
    cases h'
    simp
  | @cons line ps lines pss hps _ ih =>
    cases h' with
    | nil => cases hlen
    | cons hps' h' =>
      rw [List.cons_eq_cons, List.forall₂_cons, ih h' (Nat.succ_injective hlen),
        selects_eq_iff hq hq' hps hps']
      rfl

/-- **Two searches that agree up to case** report the same exactly if, line by line, their
occurrences have a common cover. -/
theorem sameReports_iff [DecidableEq ι] (i : ι) {c : Client ι}
    (hprem : c.subscriptionType = .premium) (hshort : job.source.Short)
    (hq : job.request.query.bytes ≠ []) (hquery : CaseEq job.request.query job'.request.query)
    (hlines : List.Forall₂ CaseEq job.source.lines job'.source.lines) :
    job.SameReports job' i c ↔ List.Forall₂ (SameCover job.request.query job'.request.query)
      job.source.lines job'.source.lines := by
  -- case does not change lengths, so the second search is on short lines and not empty either
  have hlen := hlines.length_eq
  have hq' : job'.request.query.bytes ≠ [] := by
    have := List.length_pos_of_ne_nil hq
    exact List.ne_nil_of_length_pos (by rw [← hquery.length_eq]; exact this)
  have hshort' : job'.source.Short := by
    intro line' hline'
    obtain ⟨j, hj, rfl⟩ := List.getElem_of_mem hline'
    have he := (List.forall₂_iff_get.1 hlines).2 j (by omega) hj
    have := hshort _ (List.getElem_mem (show j < job.source.lines.length by omega))
    have := he.length_eq
    simp only [List.get_eq_getElem] at this
    omega
  -- the positions that each search selects in its lines, and what it reports of them
  obtain ⟨pss, hpss⟩ := exists_positions hq job.source.lines
  obtain ⟨pss', hpss'⟩ := exists_positions hq' job'.source.lines
  have hn := scan_ends hshort hq hpss
  have hn' := scan_ends hshort' hq' hpss'
  have hsize : job.source.size = job'.source.size := congrArg UInt64.ofNat hlen
  have hqsize : job.request.query.size = job'.request.query.size :=
    congrArg UInt64.ofNat hquery.length_eq
  have hr := job.map_report_linesResults 1 hpss.length_eq
  have hr' := job'.map_report_linesResults 1 hpss'.length_eq
  rw [← hsize, ← hqsize] at hr'
  rw [← positions_eq_iff hq hq' hpss hpss' hlen]
  constructor
  · -- both runs ended with their scans' results, whose reports tell the positions
    rintro ⟨out, out', h, h', he⟩
    obtain ⟨m, hm⟩ := hn
    obtain ⟨m', hm'⟩ := hn'
    obtain ⟨k, hk⟩ := (job.delivers_iff_scan hprem).1 h
    obtain ⟨k', hk'⟩ := (job'.delivers_iff_scan hprem).1 h'
    rw [job.scan_unique hk hm, job'.scan_unique hk' hm', hr, hr'] at he
    have hbound := job.source.lines_lt
    have hl := hpss.length_eq
    have hl' := hpss'.length_eq
    refine linesReports_injective (by omega) ?_ (positions_lt hpss) (positions_lt hpss') he
    rw [show (1 : UInt64).toNat = 1 from rfl]
    omega
  · rintro rfl
    exact ⟨_, _, (job.delivers_iff_scan hprem).2 hn, (job'.delivers_iff_scan hprem).2 hn',
      hr.trans hr'.symm⟩

/-- A Premium client without credit. -/
def letterClient : Client Unit := ⟨0, .premium, 0, []⟩

theorem sameReports_iff_letter :
    (letterJob 65 98).SameReports (letterJob 97 98) () letterClient ↔
      List.Forall₂ (SameCover (letterJob 65 98).request.query (letterJob 97 98).request.query)
        (letterJob 65 98).source.lines (letterJob 97 98).source.lines :=
  sameReports_iff _ _ () rfl (by decide) (by decide) (by decide) (.cons (by decide) .nil)

/-- `a` is found in `a b` and not in `A b`. -/
theorem letter_caseSensitive :
    List.Forall₂ CaseEq (letterJob 65 97).source.lines (letterJob 97 97).source.lines ∧
      CaseEq (letterJob 65 97).request.query (letterJob 97 97).request.query ∧
      (letterJob 65 97).source.Short ∧
      ¬ (letterJob 65 97).SameReports (letterJob 97 97) () letterClient := by
  refine ⟨.cons (by decide) .nil, by decide, by decide, ?_⟩
  rintro ⟨out, out', h, h', he⟩
  obtain ⟨n, hn⟩ := ((letterJob 65 97).delivers_iff_scan rfl).1 h
  obtain ⟨n', hn'⟩ := ((letterJob 97 97).delivers_iff_scan rfl).1 h'
  have hupper : (letterJob 65 97).scanAt 1 = (.finished, []) := by decide +kernel
  have hlower : ((letterJob 97 97).scanAt 3).1 = .finished ∧
      ((letterJob 97 97).scanAt 3).2.map SearchResult.report = [⟨1, 1, 1, true⟩] := by
    decide +kernel
  have hout' : out' = ((letterJob 97 97).scanAt 3).2 :=
    (letterJob 97 97).scan_unique hn' (Prod.ext hlower.1 rfl)
  rw [(letterJob 65 97).scan_unique hn hupper, hout', hlower.2] at he
  cases he

end Job

end MTFind2
