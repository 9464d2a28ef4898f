import MTFind2.Proof.Scan

/-!
# The scan of short lines

What `Job.search` does in terms of the occurrences of the query in the line:
nothing found moves to the next line (`search_none`), and so does a match whose
position is read back as `npos` from its `int` (`search_hidden`); any other match
is held with its two positions (`search_some`).

On a line shorter than `2 ^ 31` bytes no match is hidden and both positions are
stored exactly (`search_short`). There the scan sends one result for each leftmost
non-overlapping occurrence of a non-empty query, line by line, and ends
(`scan_line`, `scan_lines`, `scan_ends`).
-/

namespace MTFind2

open Occurrence

theorem TextHelper.findInString_none {s needle : StdString} {start : UInt64}
    (h : firstFrom needle.bytes s.bytes start.toNat = none) :
    TextHelper.findInString s needle start = (npos, npos) := by
  simp [TextHelper.findInString, StdString.find_eq_npos.2 h]

theorem TextHelper.findInString_some {s needle : StdString} {start : UInt64} {p : ℕ}
    (h : firstFrom needle.bytes s.bytes start.toNat = some p) :
    TextHelper.findInString s needle start =
      (UInt64.ofNat p, UInt64.ofNat (p + needle.bytes.length)) := by
  have hne : s.find needle start ≠ npos := by
    rw [Ne, StdString.find_eq_npos, h]
    exact Option.some_ne_none p
  have hp : s.find needle start = UInt64.ofNat p := by
    rw [StdString.find, h]
    rfl
  rw [TextHelper.findInString, if_neg hne, hp, UInt64.ofNat_add]
  rfl

namespace Job

variable {κ : Type} (job : Job κ) {f : Frame} {p : ℕ}

/-- The frame after a match at position `p`. -/
def matched (f : Frame) (p : ℕ) : Frame :=
  { f with
    startPos := toInt (UInt64.ofNat p)
    endPos := toInt (UInt64.ofNat (p + job.request.query.bytes.length)) }

/-- The `is_final_result` of the match held in `f`. -/
def finalFlag (f : Frame) : Bool :=
  if f.lineNumber = job.source.size then
    decide ((TextHelper.findInString f.line job.request.query (toSize f.endPos)).1 = npos)
  else false

theorem search_none
    (h : firstFrom job.request.query.bytes f.line.bytes (toSize f.endPos).toNat = none) :
    job.search f = f.nextLine := by
  unfold search
  simp only [TextHelper.transformToLowercase_eq, TextHelper.findInString_none h,
    toSize_toInt_npos, if_true]
  rfl

/-- A `size_t` made of a position is that position. -/
theorem toNat_ofNat_pos
    (h : firstFrom job.request.query.bytes f.line.bytes (toSize f.endPos).toNat = some p) :
    (UInt64.ofNat p).toNat = p := by
  have := StdString.firstFrom_lt h
  exact toNat_ofNat_lt (by omega)

theorem search_hidden
    (h : firstFrom job.request.query.bytes f.line.bytes (toSize f.endPos).toNat = some p)
    (hp : p % 2 ^ 32 = 2 ^ 32 - 1) : job.search f = f.nextLine := by
  have hn : toSize (toInt (UInt64.ofNat p)) = npos := by
    rw [toSize_toInt_eq_npos, job.toNat_ofNat_pos h, hp]
  unfold search
  simp only [TextHelper.transformToLowercase_eq, TextHelper.findInString_some h, hn, if_true]
  rfl

theorem search_some
    (h : firstFrom job.request.query.bytes f.line.bytes (toSize f.endPos).toNat = some p)
    (hp : p % 2 ^ 32 ≠ 2 ^ 32 - 1) :
    job.search f = .consuming (job.matched f p) (job.finalFlag (job.matched f p)) := by
  have hn : toSize (toInt (UInt64.ofNat p)) ≠ npos := by
    rwa [Ne, toSize_toInt_eq_npos, job.toNat_ofNat_pos h]
  unfold search
  simp only [TextHelper.transformToLowercase_eq, TextHelper.findInString_some h, if_neg hn]
  rfl

/-! ## Lines shorter than `2 ^ 31` bytes -/

/-- Both positions of a match that ends before `2 ^ 31` are stored exactly. -/
theorem matched_exact (h : p + job.request.query.bytes.length < 2 ^ 31) :
    toSize (job.matched f p).startPos = UInt64.ofNat p ∧
      toSize (job.matched f p).endPos = UInt64.ofNat (p + job.request.query.bytes.length) := by
  have h1 : (UInt64.ofNat p).toNat = p := toNat_ofNat_lt (by omega)
  have h2 : (UInt64.ofNat (p + job.request.query.bytes.length)).toNat =
      p + job.request.query.bytes.length := toNat_ofNat_lt (by omega)
  exact ⟨toSize_toInt (by omega), toSize_toInt (by omega)⟩

/-- On a short line every match does. -/
theorem matched_short (hl : f.line.bytes.length < 2 ^ 31) {n : ℕ}
    (h : firstFrom job.request.query.bytes f.line.bytes n = some p) :
    (toSize (job.matched f p).startPos).toNat = p ∧
      (toSize (job.matched f p).endPos).toNat = p + job.request.query.bytes.length ∧
      p + job.request.query.bytes.length < 2 ^ 31 := by
  have hle := (firstFrom_eq_some.1 h).2.1.le
  obtain ⟨hs, he⟩ := job.matched_exact (f := f) (p := p) (by omega)
  rw [hs, he, toNat_ofNat_lt (by omega), toNat_ofNat_lt (by omega)]
  exact ⟨rfl, rfl, by omega⟩

theorem search_short (hl : f.line.bytes.length < 2 ^ 31)
    (h : firstFrom job.request.query.bytes f.line.bytes (toSize f.endPos).toNat = some p) :
    job.search f = .consuming (job.matched f p) (job.finalFlag (job.matched f p)) := by
  refine job.search_some h ?_
  have := (firstFrom_eq_some.1 h).2.1.1
  omega

/-- The result sent for the occurrence at position `p` of line number `n`. -/
def matchResult (n : UInt64) (line : StdString) (p : ℕ) (isFinal : Bool) : SearchResult where
  contentSource := job.source
  surroundingText := TextHelper.surroundingText line (UInt64.ofNat p)
    (UInt64.ofNat (p + job.request.query.bytes.length))
  line := n
  column := UInt64.ofNat (p + 1)
  length := job.request.query.size
  isFinalResult := isFinal

/-- The results of line number `n`, for the positions selected in it. -/
def lineResults (n : UInt64) (line : StdString) : List ℕ → List SearchResult
  | [] => []
  | p :: ps =>
    job.matchResult n line p (decide (n = job.source.size) && ps.isEmpty) ::
      lineResults n line ps

/-- The results of the lines from number `n` on. -/
def linesResults (n : UInt64) : List StdString → List (List ℕ) → List SearchResult
  | line :: lines, ps :: pss => job.lineResults n line ps ++ linesResults (n + 1) lines pss
  | _, _ => []

variable {job}

theorem result_matched (hq : job.request.query.bytes ≠ [])
    (h : p + job.request.query.bytes.length < 2 ^ 31) (b : Bool) :
    job.result (job.matched f p) b = job.matchResult f.lineNumber f.line p b := by
  obtain ⟨hs, he⟩ := job.matched_exact (f := f) h
  have hpos := List.length_pos_of_ne_nil hq
  -- the column is added up as an `int`, and is at most the end of the match
  have hc : toSize ((job.matched f p).startPos + 1) = UInt64.ofNat (p + 1) := by
    have hi : (job.matched f p).startPos.toInt = p := by
      have hn : (UInt64.ofNat p).toNat = p := toNat_ofNat_lt (by omega)
      simp only [matched]
      rw [toInt_toInt, hn]
      exact Int.bmod_eq_of_le (by omega) (by omega)
    have hi1 : ((job.matched f p).startPos + 1).toInt = p + 1 := by
      rw [Int32.toInt_add, hi]
      exact Int.bmod_eq_of_le (by simp; omega) (by simp; omega)
    have hz := toNat_toSize ((job.matched f p).startPos + 1)
    apply UInt64.toNat_inj.1
    rw [toNat_ofNat_lt (by omega)]
    omega
  simp only [result, matchResult, hs, he, hc]
  rfl

/-- The flag of a match on a short line: it is on the last line, and no match of that follows. -/
theorem finalFlag_matched (hl : f.line.bytes.length < 2 ^ 31) {n : ℕ}
    (h : firstFrom job.request.query.bytes f.line.bytes n = some p) {ps : List ℕ}
    (hps : Selects job.request.query.bytes f.line.bytes (p + job.request.query.bytes.length) ps) :
    job.finalFlag (job.matched f p) = (decide (f.lineNumber = job.source.size) && ps.isEmpty) := by
  obtain ⟨-, h2, -⟩ := job.matched_short hl h
  -- the look-ahead finds what the next search would
  have hnext : (TextHelper.findInString f.line job.request.query
      (toSize (job.matched f p).endPos)).1 = npos ↔ ps = [] := by
    cases ps with
    | nil =>
      rw [TextHelper.findInString_none (by rw [h2]; exact selects_nil_iff.1 hps)]
      simp
    | cons p' ps =>
      have hp' := (selects_cons_iff.1 hps).1
      rw [← h2] at hp'
      have hne : f.line.find job.request.query (toSize (job.matched f p).endPos) ≠ npos := by
        rw [Ne, StdString.find_eq_npos, hp']
        exact Option.some_ne_none p'
      simp [TextHelper.findInString, hne]
  have hline : (job.matched f p).lineNumber = f.lineNumber := rfl
  -- only the last line is looked ahead in
  unfold finalFlag
  by_cases hn : f.lineNumber = job.source.size
  · rw [if_pos (hline.trans hn), decide_eq_true hn, Bool.true_and, Bool.eq_iff_iff,
      decide_eq_true_iff, List.isEmpty_iff]
    exact hnext
  · rw [if_neg (by rw [hline]; exact hn), decide_eq_false hn, Bool.false_and]

/-- **The scan of a line** sends a result for each selected position, and goes to the next line. -/
theorem scan_line (hq : job.request.query.bytes ≠ []) {n : ℕ} {ps : List ℕ} {line : StdString}
    (hl : line.bytes.length < 2 ^ 31) (h : Selects job.request.query.bytes line.bytes n ps) :
    ∀ {f : Frame}, f.line = line → (toSize f.endPos).toNat = n → ∀ out : List SearchResult,
      ∃ k, job.scanStep^[k] (.searching f, out) =
        (f.nextLine.scan, out ++ job.lineResults f.lineNumber line ps) := by
  induction ps generalizing n with
  | nil =>
    intro f hf hn out
    subst hf hn
    refine ⟨1, ?_⟩
    simp only [Function.iterate_one, scanStep, job.search_none (selects_nil_iff.1 h), lineResults,
      List.append_nil]
  | cons p ps ih =>
    intro f hf hn out
    subst hf hn
    obtain ⟨hp, hps⟩ := selects_cons_iff.1 h
    obtain ⟨h1, h2, hle⟩ := job.matched_short hl hp
    -- the match is held, sent, and the search goes on behind it
    have hhead : (job.matched f p).loopHead = .checking (job.matched f p) := by
      have hne : toSize (job.matched f p).startPos ≠ npos := by
        intro he
        rw [he] at h1
        have hn : npos.toNat = 2 ^ 64 - 1 := by decide
        omega
      unfold Frame.loopHead
      rw [if_neg hne]
    obtain ⟨k, hk⟩ := ih hps (f := job.matched f p) rfl h2
      (out ++ [job.result (job.matched f p) (job.finalFlag (job.matched f p))])
    refine ⟨k + 2, ?_⟩
    have h2steps : job.scanStep^[2] (.searching f, out) = (.searching (job.matched f p),
        out ++ [job.result (job.matched f p) (job.finalFlag (job.matched f p))]) := by
      show job.scanStep (job.scanStep (.searching f, out)) = _
      simp only [scanStep, job.search_short hl hp, Phase.scan, hhead]
    rw [Function.iterate_add_apply, h2steps, hk, result_matched hq hle,
      finalFlag_matched hl hp hps, List.append_assoc]
    rfl

/-- **The scan of the remaining lines** sends the results of each of them, and ends. -/
theorem scan_lines (hq : job.request.query.bytes ≠ []) {lines : List StdString}
    {pss : List (List ℕ)} (hl : ∀ line ∈ lines, line.bytes.length < 2 ^ 31)
    (h : List.Forall₂ (fun line ps => Selects job.request.query.bytes line.bytes 0 ps) lines pss)
    (n : UInt64) (out : List SearchResult) :
    ∃ k, job.scanStep^[k] ((Phase.enterLine n lines).scan, out) =
      (.finished, out ++ job.linesResults n lines pss) := by
  induction h generalizing n out with
  | nil => exact ⟨0, by simp [Phase.enterLine, Phase.scan, linesResults]⟩
  | @cons line ps lines pss hsel _ ih =>
    obtain ⟨k, hk⟩ := scan_line hq (hl line List.mem_cons_self) hsel
      (f := { lineNumber := n, line, later := lines, startPos := 0, endPos := 0 }) rfl
      (show (toSize 0).toNat = 0 by decide) out
    obtain ⟨k', hk'⟩ := ih (fun x hx => hl x (List.mem_cons_of_mem _ hx)) (n + 1)
      (out ++ job.lineResults n line ps)
    refine ⟨k' + k, ?_⟩
    rw [Function.iterate_add_apply]
    show job.scanStep^[k'] (job.scanStep^[k] (.searching _, out)) = _
    rw [hk]
    show job.scanStep^[k'] ((Phase.enterLine (n + 1) lines).scan, _) = _
    rw [hk', linesResults, List.append_assoc]

/-- Each line has its selected positions. -/
theorem exists_positions {query : StdString} (hq : query.bytes ≠ []) (lines : List StdString) :
    ∃ pss, List.Forall₂ (fun line ps => Selects query.bytes line.bytes 0 ps) lines pss := by
  induction lines with
  | nil => exact ⟨[], .nil⟩
  | cons line lines ih =>
    obtain ⟨ps, hps⟩ := exists_selects hq line.bytes 0
    obtain ⟨pss, h⟩ := ih
    exact ⟨ps :: pss, .cons hps h⟩

theorem positions_lt {q : StdString} {lines : List StdString} {pss : List (List ℕ)}
    (h : List.Forall₂ (fun line ps => Selects q.bytes line.bytes 0 ps) lines pss) :
    ∀ ps ∈ pss, ∀ p ∈ ps, p + 1 < 2 ^ 64 := by
  induction h with
  | nil => simp
  | @cons line ps lines pss hps _ ih =>
    intro qs hqs p hp
    rcases List.mem_cons.1 hqs with rfl | hqs
    · have := (hps.at p hp).2.1
      have := line.size_lt
      omega
    · exact ih qs hqs p hp

/-- **The scan of short lines ends** with the results of all lines. -/
theorem scan_ends (hshort : job.source.Short) (hq : job.request.query.bytes ≠ [])
    {pss : List (List ℕ)}
    (h : List.Forall₂ (fun line ps => Selects job.request.query.bytes line.bytes 0 ps)
      job.source.lines pss) :
    ∃ n, job.scanAt n = (.finished, job.linesResults 1 job.source.lines pss) := by
  obtain ⟨k, hk⟩ := scan_lines hq hshort h 1 []
  exact ⟨k, hk⟩

end Job

end MTFind2
