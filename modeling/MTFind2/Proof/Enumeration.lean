import MTFind2.Proof.Line

/-!
# What a search of a whole source delivers

On lines shorter than `2 ^ 31` bytes the run for a Premium client delivers the list
`Job.found`, whatever its credit (`delivers_iff_found`).

* `linesResults_filter`: the part of the list that belongs to one line.
* `delivers_enumeration`: it enumerates the leftmost non-overlapping occurrences of
  the query, ordered by line and column.
* `flagsLast_iff`: the look-ahead for the final flag reads only the last line, so
  the last result has the flag exactly if that line holds the query.
-/

namespace MTFind2

open Occurrence TextHelper

namespace Job

variable {ι κ : Type} (job : Job κ)

/-- The positions found in a line. -/
def linePositions (line : StdString) : List ℕ :=
  Occurrence.positions (transformToLowercase job.request.query).bytes
    (transformToLowercase line).bytes

/-- The positions found in each line. -/
def positions : List (List ℕ) := job.source.lines.map job.linePositions

/-- The results of the whole source. -/
def found : List SearchResult := job.linesResults 1 job.source.lines job.positions

variable {job}

theorem positions_selects (hq : job.request.query.bytes ≠ []) :
    List.Forall₂ (fun line ps => Selects job.request.query.bytes line.bytes 0 ps)
      job.source.lines job.positions := by
  unfold positions
  refine List.forall₂_map_right_iff.2 (List.forall₂_same.2 ?_)
  exact fun line _ => selects_positions hq line.bytes

/-- **A Premium client is delivered exactly `found`.** -/
theorem delivers_iff_found [DecidableEq ι] {i : ι} {c : Client ι} {out : List SearchResult}
    (hprem : c.subscriptionType = .premium) (hshort : job.source.Short)
    (hq : job.request.query.bytes ≠ []) : job.Delivers i c out ↔ out = job.found := by
  obtain ⟨n, hn⟩ := scan_ends hshort hq (positions_selects hq)
  rw [job.delivers_iff_scan hprem]
  constructor
  · rintro ⟨m, hm⟩
    exact job.scan_unique hm hn
  · rintro rfl
    exact ⟨n, hn⟩

/-! ## The results of each line -/

/-- A result of the job, on a line numbered from `n` up to `m`. -/
def OnLines (job : Job κ) (n m : ℕ) (r : SearchResult) : Prop :=
  r.contentSource = job.source ∧ r.length = job.request.query.size ∧
    n ≤ r.line.toNat ∧ r.line.toNat < m

theorem lineResults_line {n : UInt64} {line : StdString} (ps : List ℕ) :
    ∀ r ∈ job.lineResults n line ps, r.line = n ∧ job.OnLines n.toNat (n.toNat + 1) r := by
  induction ps with
  | nil => simp [lineResults]
  | cons p ps ih =>
    intro r hr
    rcases List.mem_cons.1 hr with rfl | hr
    · exact ⟨rfl, rfl, rfl, le_rfl, Nat.lt_succ_self _⟩
    · exact ih r hr

theorem lineResults_columns {n : UInt64} {line : StdString} {ps : List ℕ}
    (h : ∀ p ∈ ps, p + 1 < 2 ^ 64) :
    (job.lineResults n line ps).map (fun r => r.column.toNat) = ps.map (· + 1) := by
  induction ps with
  | nil => rfl
  | cons p ps ih =>
    have hp : (UInt64.ofNat (p + 1)).toNat = p + 1 := toNat_ofNat_lt (h p List.mem_cons_self)
    rw [lineResults, List.map_cons, List.map_cons, ih fun x hx => h x (List.mem_cons_of_mem _ hx)]
    exact congrArg (· :: _) hp

theorem linesResults_onLines {n : UInt64} {lines : List StdString} {pss : List (List ℕ)}
    (hn : n.toNat + lines.length < 2 ^ 64) :
    ∀ r ∈ job.linesResults n lines pss, job.OnLines n.toNat (n.toNat + lines.length) r := by
  induction lines generalizing n pss with
  | nil => simp [linesResults]
  | cons line lines ih =>
    cases pss with
    | nil => simp [linesResults]
    | cons ps pss =>
      intro r hr
      rw [List.length_cons] at hn ⊢
      have h1 := toNat_add_one hn
      rcases List.mem_append.1 hr with hr | hr
      · obtain ⟨-, hsource, hlength, hlo, hhi⟩ := lineResults_line ps r hr
        exact ⟨hsource, hlength, hlo, by omega⟩
      · obtain ⟨hsource, hlength, hlo, hhi⟩ := ih (by omega) r hr
        exact ⟨hsource, hlength, by omega, by omega⟩

/-- **The part of the results that belongs to line `k`.** -/
theorem linesResults_filter {n : UInt64} {lines : List StdString} {pss : List (List ℕ)} {k : ℕ}
    {line : StdString} {ps : List ℕ} (hn : n.toNat + lines.length < 2 ^ 64)
    (hline : lines[k]? = some line) (hps : pss[k]? = some ps) :
    ∃ m, (job.linesResults n lines pss).filter (fun r => r.line.toNat = n.toNat + k) =
      job.lineResults m line ps := by
  induction lines generalizing n pss k with
  | nil => cases hline
  | cons line₀ lines ih =>
    cases pss with
    | nil => cases hps
    | cons ps₀ pss =>
      rw [List.length_cons] at hn
      have h1 := toNat_add_one hn
      rw [linesResults, List.filter_append]
      cases k with
      | zero =>
        -- the later lines have larger numbers
        cases hline
        cases hps
        refine ⟨n, ?_⟩
        rw [List.filter_eq_self.2, List.filter_eq_nil_iff.2, List.append_nil]
        · intro r hr
          have hlo := (linesResults_onLines (by omega) r hr).2.2.1
          simp only [decide_eq_true_eq]
          omega
        · intro r hr
          simp [(lineResults_line ps r hr).1]
      | succ k =>
        -- the first line has a smaller number
        obtain ⟨m, hm⟩ := ih (n := n + 1) (by omega) hline hps
        refine ⟨m, ?_⟩
        rw [List.filter_eq_nil_iff.2, List.nil_append, ← hm]
        · congr 1
          funext r
          rw [h1, Nat.add_assoc, Nat.add_comm 1 k]
        · intro r hr
          simp [(lineResults_line ps₀ r hr).1]

/-! ## The order of the results -/

/-- The order of line and column. -/
def Before (r r' : SearchResult) : Prop :=
  r.line.toNat < r'.line.toNat ∨ r.line = r'.line ∧ r.column.toNat < r'.column.toNat

theorem lineResults_increasing {n : UInt64} {line : StdString} {ps : List ℕ}
    (h : ∀ p ∈ ps, p + 1 < 2 ^ 64) (hs : ps.Pairwise (· < ·)) :
    (job.lineResults n line ps).Pairwise Before := by
  have hcol : (job.lineResults n line ps).Pairwise fun r r' =>
      r.column.toNat < r'.column.toNat := by
    have hmap : ((job.lineResults n line ps).map fun r => r.column.toNat).Pairwise (· < ·) := by
      rw [lineResults_columns h]
      exact List.pairwise_map.2 (hs.imp Nat.succ_lt_succ)
    exact List.pairwise_map.1 hmap
  refine hcol.imp_of_mem ?_
  intro r r' hr hr' hlt
  exact .inr ⟨(lineResults_line ps r hr).1.trans (lineResults_line ps r' hr').1.symm, hlt⟩

theorem linesResults_increasing {n : UInt64} {lines : List StdString} {pss : List (List ℕ)}
    (hn : n.toNat + lines.length < 2 ^ 64) (h : ∀ ps ∈ pss, ∀ p ∈ ps, p + 1 < 2 ^ 64)
    (hs : ∀ ps ∈ pss, ps.Pairwise (· < ·)) :
    (job.linesResults n lines pss).Pairwise Before := by
  induction lines generalizing n pss with
  | nil => exact .nil
  | cons line lines ih =>
    cases pss with
    | nil => exact .nil
    | cons ps pss =>
      rw [List.length_cons] at hn
      have h1 := toNat_add_one hn
      refine List.pairwise_append.2 ⟨?_, ?_, ?_⟩
      · exact lineResults_increasing (h ps List.mem_cons_self) (hs ps List.mem_cons_self)
      · exact ih (by omega) (fun qs hqs => h qs (List.mem_cons_of_mem _ hqs))
          fun qs hqs => hs qs (List.mem_cons_of_mem _ hqs)
      · intro r hr r' hr'
        have hline := (lineResults_line ps r hr).1
        have hlater := (linesResults_onLines (by omega) r' hr').2.2.1
        left
        rw [hline]
        omega

/-- **The results enumerate the leftmost non-overlapping occurrences** of the query in the source,
by line and column, both counted from 1. -/
structure Enumerates (job : Job κ) (out : List SearchResult) : Prop where
  increasing : out.Pairwise Before
  onLines : ∀ r ∈ out, job.OnLines 1 (job.source.lines.length + 1) r
  columns : ∀ k line, job.source.lines[k]? = some line →
    ∃ ps, Selects (transformToLowercase job.request.query).bytes
        (transformToLowercase line).bytes 0 ps ∧
      (out.filter fun r => r.line.toNat = k + 1).map (fun r => r.column.toNat) = ps.map (· + 1)

theorem enumerates_found (hq : job.request.query.bytes ≠ []) : job.Enumerates job.found := by
  have hsel := positions_selects hq
  have hlt := positions_lt hsel
  have hlines := job.source.lines_lt
  have hone : (1 : UInt64).toNat = 1 := rfl
  have hn : (1 : UInt64).toNat + job.source.lines.length < 2 ^ 64 := by omega
  refine ⟨?_, ?_, ?_⟩
  · refine linesResults_increasing hn hlt ?_
    intro ps hps
    obtain ⟨line, -, rfl⟩ := List.mem_map.1 hps
    exact (selects_positions hq line.bytes).sorted hq
  · intro r hr
    obtain ⟨hsource, hlength, hlo, hhi⟩ := linesResults_onLines hn r hr
    exact ⟨hsource, hlength, hlo, by omega⟩
  · intro k line hline
    have hps : job.positions[k]? = some (job.linePositions line) := by
      rw [positions, List.getElem?_map, hline]
      rfl
    refine ⟨_, selects_positions hq line.bytes, ?_⟩
    obtain ⟨m, hm⟩ := linesResults_filter hn hline hps
    have hk : ∀ r : SearchResult,
        decide (r.line.toNat = k + 1) = decide (r.line.toNat = (1 : UInt64).toNat + k) := by
      intro r
      rw [hone, Nat.add_comm]
    simp only [hk]
    unfold found
    rw [hm]
    exact lineResults_columns (hlt _ (List.mem_of_getElem? hps))

/-- **A single-threaded search for a Premium client ends, and delivers an enumeration of the
occurrences**, whatever the credit. -/
theorem delivers_enumeration [DecidableEq ι] (i : ι) {c : Client ι}
    (hprem : c.subscriptionType = .premium) (hshort : job.source.Short)
    (hq : job.request.query.bytes ≠ []) :
    ∃ out, job.Delivers i c out ∧ job.Enumerates out :=
  ⟨job.found, (delivers_iff_found hprem hshort hq).2 rfl, enumerates_found hq⟩

/-- A search for `a` in the lines `a` and `b`. -/
def twoLinesJob : Job Unit where
  client := ()
  source := ⟨.singleton 116, [.singleton 97, .singleton 98], by decide⟩
  request := ⟨0, .singleton 97, 0⟩

/-- A Premium client with a debt. -/
def debtor : Client Unit := ⟨0, .premium, -20, []⟩

theorem delivers_enumeration_twoLines :
    ∃ out, twoLinesJob.Delivers () debtor out ∧ twoLinesJob.Enumerates out :=
  delivers_enumeration () rfl (by decide) (by decide)

/-! ## The final flag -/

/-- A result is flagged exactly if no other follows it. -/
def FlagsLast (out : List SearchResult) : Prop :=
  ∀ pre r post, out = pre ++ r :: post → (r.isFinalResult = true ↔ post = [])

theorem flagsLast_concat {init : List SearchResult} {last : SearchResult} :
    FlagsLast (init ++ [last]) ↔
      last.isFinalResult = true ∧ ∀ r ∈ init, r.isFinalResult = false := by
  constructor
  · intro h
    refine ⟨(h init last [] rfl).2 rfl, ?_⟩
    intro r hr
    obtain ⟨pre, post, rfl⟩ := List.append_of_mem hr
    have hiff := h pre r (post ++ [last]) (by simp)
    rw [← Bool.not_eq_true, hiff]
    simp
  · rintro ⟨hlast, hinit⟩ pre r post heq
    rcases List.eq_nil_or_concat' post with rfl | ⟨post, r', rfl⟩
    · have hr := (List.append_inj' heq rfl).2
      cases hr
      exact iff_of_true hlast rfl
    · rw [← List.cons_append, ← List.append_assoc] at heq
      have hpre := (List.append_inj' heq rfl).1
      have hmem : r ∈ init := by
        rw [hpre]
        simp
      rw [hinit r hmem]
      simp

/-- All results of a line but its last are unflagged; that is flagged on the last line. -/
theorem lineResults_concat (n : UInt64) (line : StdString) (ps : List ℕ) (p : ℕ) :
    job.lineResults n line (ps ++ [p]) = ps.map (fun x => job.matchResult n line x false) ++
      [job.matchResult n line p (decide (n = job.source.size))] := by
  induction ps with
  | nil => simp [lineResults]
  | cons x ps ih =>
    have hne : (ps ++ [p]).isEmpty = false := by cases ps <;> rfl
    rw [List.cons_append, lineResults, ih, hne, Bool.and_false]
    rfl

theorem linesResults_unflagged {n : UInt64} {lines : List StdString} {pss : List (List ℕ)}
    (hn : n.toNat + lines.length ≤ job.source.size.toNat) :
    ∀ r ∈ job.linesResults n lines pss, r.isFinalResult = false := by
  induction lines generalizing n pss with
  | nil => simp [linesResults]
  | cons line lines ih =>
    cases pss with
    | nil => simp [linesResults]
    | cons ps pss =>
      intro r hr
      rw [List.length_cons] at hn
      have hsize := job.source.size.toNat_lt
      have h1 : (n + 1).toNat = n.toNat + 1 := toNat_add_one (k := lines.length) (by omega)
      rcases List.mem_append.1 hr with hr | hr
      · -- the line is not the last one
        have hne : n ≠ job.source.size := by
          intro h
          rw [h] at hn
          omega
        rcases List.eq_nil_or_concat' ps with rfl | ⟨ps, p, rfl⟩
        · cases hr
        · rw [lineResults_concat] at hr
          rcases List.mem_append.1 hr with hr | hr
          · obtain ⟨x, -, rfl⟩ := List.mem_map.1 hr
            rfl
          · rw [List.mem_singleton.1 hr]
            exact decide_eq_false hne
      · exact ih (by omega) r hr

theorem linesResults_append (n : UInt64) {lines : List StdString} (lines' : List StdString)
    {pss : List (List ℕ)} (pss' : List (List ℕ)) (hlen : lines.length = pss.length) :
    ∃ m, m = n + UInt64.ofNat lines.length ∧
      job.linesResults n (lines ++ lines') (pss ++ pss') =
        job.linesResults n lines pss ++ job.linesResults m lines' pss' := by
  induction lines generalizing n pss with
  | nil =>
    rw [List.length_eq_zero_iff.1 hlen.symm]
    exact ⟨n, by simp, rfl⟩
  | cons line lines ih =>
    cases pss with
    | nil => cases hlen
    | cons ps pss =>
      obtain ⟨m, hm, hres⟩ := ih (n + 1) (Nat.succ_injective hlen)
      refine ⟨m, ?_, ?_⟩
      · rw [hm, List.length_cons, Nat.add_comm, UInt64.ofNat_add, UInt64.add_assoc]
        rfl
      · rw [List.cons_append, List.cons_append, linesResults, hres, linesResults,
          List.append_assoc]

/-- Without an occurrence nothing is selected. -/
theorem linePositions_eq_nil (hq : job.request.query.bytes ≠ []) (line : StdString) :
    job.linePositions line = [] ↔ ∀ p, ¬ At job.request.query.bytes line.bytes p := by
  have hsel : Selects job.request.query.bytes line.bytes 0 (job.linePositions line) :=
    selects_positions hq line.bytes
  constructor
  · intro h
    rw [h] at hsel
    intro p
    exact firstFrom_eq_none.1 (selects_nil_iff.1 hsel) p (Nat.zero_le p)
  · intro h
    refine List.eq_nil_iff_forall_not_mem.2 ?_
    intro p hp
    exact h p (hsel.at p hp).2

theorem length_lineResults (n : UInt64) (line : StdString) (ps : List ℕ) :
    (job.lineResults n line ps).length = ps.length := by
  induction ps with
  | nil => rfl
  | cons p ps ih => rw [lineResults, List.length_cons, List.length_cons, ih]

/-- As many results as positions. -/
theorem length_linesResults {n : UInt64} {lines : List StdString} {pss : List (List ℕ)}
    (hlen : lines.length = pss.length) :
    (job.linesResults n lines pss).length = (pss.map List.length).sum := by
  induction lines generalizing n pss with
  | nil =>
    rw [List.length_eq_zero_iff.1 hlen.symm]
    rfl
  | cons line lines ih =>
    cases pss with
    | nil => cases hlen
    | cons ps pss =>
      rw [linesResults, List.length_append, length_lineResults, ih (Nat.succ_injective hlen),
        List.map_cons, List.sum_cons]

/-- The results are those of the lines before the last one, all unflagged, and then its own. -/
theorem found_concat {init : List StdString} {last : StdString}
    (hlines : job.source.lines = init ++ [last]) :
    ∃ out, job.found = out ++ job.lineResults job.source.size last (job.linePositions last) ∧
      (∀ r ∈ out, r.isFinalResult = false) ∧
      (out = [] ↔ ∀ line ∈ init, job.linePositions line = []) := by
  have hlen : job.source.lines.length = init.length + 1 := by
    rw [hlines, List.length_append, List.length_singleton]
  have hlt := job.source.lines_lt
  have hone : (1 : UInt64).toNat = 1 := rfl
  have hinit : init.length = (init.map job.linePositions).length := List.length_map _ |>.symm
  obtain ⟨m, hm, hres⟩ := job.linesResults_append 1 [last] [job.linePositions last] hinit
  -- the last line has the number of lines as its number
  have hmsize : m = job.source.size := by
    rw [hm, ContentSource.size, hlen, UInt64.ofNat_add, UInt64.add_comm]
    rfl
  refine ⟨job.linesResults 1 init (init.map job.linePositions), ?_, ?_, ?_⟩
  · have hone : job.linesResults job.source.size [last] [job.linePositions last] =
        job.lineResults job.source.size last (job.linePositions last) := List.append_nil _
    rw [found, positions, hlines, List.map_append, List.map_singleton, hres, hmsize, hone]
  · refine linesResults_unflagged ?_
    rw [ContentSource.toNat_size]
    omega
  · rw [← List.length_eq_zero_iff, length_linesResults hinit,
      List.sum_eq_zero_iff_forall_eq_nat]
    simp

/-- **The final flag marks the last result exactly if** no line holds the query or the last line
does: only the last line is looked ahead in. -/
theorem flagsLast_iff [DecidableEq ι] {i : ι} {c : Client ι} {out : List SearchResult}
    (hprem : c.subscriptionType = .premium) (hshort : job.source.Short)
    (hq : job.request.query.bytes ≠ []) (hout : job.Delivers i c out) :
    FlagsLast out ↔
      (∀ line ∈ job.source.lines, ∀ p, ¬ At (transformToLowercase job.request.query).bytes
        (transformToLowercase line).bytes p) ∨
      ∃ line ∈ job.source.lines.getLast?, ∃ p,
        At (transformToLowercase job.request.query).bytes (transformToLowercase line).bytes p := by
  rw [(delivers_iff_found hprem hshort hq).1 hout]
  simp only [transformToLowercase_eq]
  rcases List.eq_nil_or_concat' job.source.lines with hlines | ⟨init, last, hlines⟩
  · -- no line, no result
    have hnone : job.found = [] := by
      rw [found, hlines]
      rfl
    rw [hnone, hlines]
    refine iff_of_true ?_ (.inl (by simp))
    intro pre r post h
    simp at h
  · obtain ⟨results, hfound, hflags, hempty⟩ := found_concat hlines
    have hlast : job.source.lines.getLast? = some last := by rw [hlines, List.getLast?_concat]
    rw [hfound, hlast]
    rcases List.eq_nil_or_concat' (job.linePositions last) with hps | ⟨ps, p, hps⟩
    · -- the query is not in the last line: its results are all unflagged
      have hno := (linePositions_eq_nil hq last).1 hps
      rw [hps, lineResults, List.append_nil]
      rcases List.eq_nil_or_concat' results with hr | ⟨rs, r, hr⟩
      · refine iff_of_true ?_ (.inl ?_)
        · rw [hr]
          intro pre r post h
          simp at h
        · intro line hline
          rw [hlines] at hline
          rcases List.mem_append.1 hline with hline | hline
          · exact (linePositions_eq_nil hq line).1 (hempty.1 hr line hline)
          · rw [List.mem_singleton.1 hline]
            exact hno
      · refine iff_of_false ?_ ?_
        · rw [hr, flagsLast_concat]
          rintro ⟨hflag, -⟩
          rw [hflags r (by rw [hr]; simp)] at hflag
          cases hflag
        · rintro (h | ⟨line, hline, p, hp⟩)
          · have hnil : results = [] := hempty.2 fun line hline =>
              (linePositions_eq_nil hq line).2 (h line (by rw [hlines]; simp [hline]))
            rw [hnil] at hr
            simp at hr
          · cases hline
            exact hno p hp
    · -- it is: the last of these results is the last of all
      have hp : At job.request.query.bytes last.bytes p := by
        have hsel : Selects job.request.query.bytes last.bytes 0 (job.linePositions last) :=
          selects_positions hq last.bytes
        exact (hsel.at p (by rw [hps]; simp)).2
      refine iff_of_true ?_ (.inr ⟨last, rfl, p, hp⟩)
      rw [hps, lineResults_concat, ← List.append_assoc, flagsLast_concat]
      refine ⟨decide_eq_true rfl, ?_⟩
      intro r hr
      rcases List.mem_append.1 hr with hr | hr
      · exact hflags r hr
      · obtain ⟨x, -, rfl⟩ := List.mem_map.1 hr
        rfl

theorem flagsLast_iff_letter :
    FlagsLast (letterJob 97 97).found ↔
      (∀ line ∈ (letterJob 97 97).source.lines, ∀ p,
        ¬ At (transformToLowercase (letterJob 97 97).request.query).bytes
          (transformToLowercase line).bytes p) ∨
      ∃ line ∈ (letterJob 97 97).source.lines.getLast?, ∃ p,
        At (transformToLowercase (letterJob 97 97).request.query).bytes
          (transformToLowercase line).bytes p :=
  flagsLast_iff (i := ()) (c := debtor) rfl (by decide) (by decide)
    ((delivers_iff_found rfl (by decide) (by decide)).2 rfl)

/-- The only result of the two lines is the last one, and is not flagged. -/
theorem twoLines_unflagged :
    twoLinesJob.source.Short ∧ ∃ out, twoLinesJob.Delivers () debtor out ∧
      out.map SearchResult.isFinalResult = [false] ∧ ¬ FlagsLast out := by
  have hfound : twoLinesJob.found.map SearchResult.isFinalResult = [false] := by decide +kernel
  refine ⟨by decide, twoLinesJob.found,
    (delivers_iff_found rfl (by decide) (by decide)).2 rfl, hfound, ?_⟩
  intro h
  obtain ⟨r, hr, hflag⟩ := List.map_eq_singleton_iff.1 hfound
  have hlast := (h [] r [] (by rw [hr]; rfl)).2 rfl
  rw [hflag] at hlast
  cases hlast

end Job

end MTFind2
