import MTFind2.Proof.Enumeration

/-!
# Lines of any length

The structured binding of the scan loop is a pair of `int`, so the positions that
`find_in_string` returns are cut to 32 bits and widened again.

* `exact_iff`: an iteration works with the positions that were found exactly if the
  match it finds ends before `2 ^ 31`.
* `iterations_exact_iff`: all iterations of all runs do so exactly if every leftmost
  non-overlapping occurrence ends there: by induction on the selection, the loop
  follows it as long as it does.
-/

namespace MTFind2

open Run Occurrence TextHelper

namespace Job

variable {ι κ : Type} (job : Job κ)

/-- What `find_in_string` returns in the iteration that starts with `f`. -/
def occurrence (f : Frame) : UInt64 × UInt64 :=
  findInString (transformToLowercase f.line) (transformToLowercase job.request.query)
    (toSize f.endPos)

/-- The frame after `std::tie(start_pos, end_pos)`. -/
def tied (f : Frame) : Frame :=
  { f with startPos := toInt (job.occurrence f).1, endPos := toInt (job.occurrence f).2 }

/-- **The iteration works with the positions that were found**: the `int`s denote them, the loop
is left only for `npos`, and else the next find starts at the end of the match and the column is
that of its start. -/
structure Exact (f : Frame) : Prop where
  startPos : toSize (job.tied f).startPos = (job.occurrence f).1
  endPos : toSize (job.tied f).endPos = (job.occurrence f).2
  notFound : job.search f = f.nextLine ↔ (job.occurrence f).1 = npos
  resumes : (job.occurrence f).1 ≠ npos → (job.tied f).loopHead = .checking (job.tied f)
  column : (job.occurrence f).1 ≠ npos →
    ∀ b, (job.result (job.tied f) b).column = (job.occurrence f).1 + 1

variable {job} {f : Frame} {p : ℕ}

theorem occurrence_none
    (h : firstFrom job.request.query.bytes f.line.bytes (toSize f.endPos).toNat = none) :
    job.occurrence f = (npos, npos) :=
  findInString_none h

theorem occurrence_some
    (h : firstFrom job.request.query.bytes f.line.bytes (toSize f.endPos).toNat = some p) :
    job.occurrence f = (UInt64.ofNat p, UInt64.ofNat (p + job.request.query.bytes.length)) :=
  findInString_some h

/-- A match is not at `npos`. -/
theorem occurrence_ne_npos
    (h : firstFrom job.request.query.bytes f.line.bytes (toSize f.endPos).toNat = some p) :
    (job.occurrence f).1 ≠ npos := by
  have hp : (UInt64.ofNat p).toNat = p := job.toNat_ofNat_pos h
  have hlt := StdString.firstFrom_lt h
  have hn : npos.toNat = 2 ^ 64 - 1 := by decide
  rw [occurrence_some h, Ne, ← UInt64.toNat_inj, hn]
  dsimp only
  omega

theorem tied_some
    (h : firstFrom job.request.query.bytes f.line.bytes (toSize f.endPos).toNat = some p) :
    job.tied f = job.matched f p := by
  rw [tied, occurrence_some h]
  rfl

/-- A match does not leave the line. -/
theorem consuming_ne_nextLine (f' : Frame) (b : Bool) : Phase.consuming f' b ≠ f.nextLine := by
  unfold Frame.nextLine
  cases f.later <;> simp [Phase.enterLine]

theorem exact_of_none
    (h : firstFrom job.request.query.bytes f.line.bytes (toSize f.endPos).toNat = none) :
    job.Exact f := by
  have hocc := occurrence_none h
  have hnone : (job.occurrence f).1 = npos := by rw [hocc]
  refine ⟨?_, ?_, iff_of_true (job.search_none h) hnone, fun h => absurd hnone h,
    fun h => absurd hnone h⟩
  · rw [tied, hocc]
    exact toSize_toInt_npos
  · rw [tied, hocc]
    exact toSize_toInt_npos

/-- **An iteration is exact exactly if** the match it finds, if any, ends before `2 ^ 31`. -/
theorem exact_iff (hq : job.request.query.bytes ≠ []) : job.Exact f ↔
    ∀ p ∈ firstFrom job.request.query.bytes f.line.bytes (toSize f.endPos).toNat,
      p + job.request.query.bytes.length < 2 ^ 31 := by
  cases h : firstFrom job.request.query.bytes f.line.bytes (toSize f.endPos).toNat with
  | none => exact iff_of_true (exact_of_none h) (fun p hp => by cases hp)
  | some p =>
    have hle := (firstFrom_eq_some.1 h).2.1.le
    have hlen := f.line.size_lt
    have htied := tied_some h
    have hstart : (job.occurrence f).1 = UInt64.ofNat p := by rw [occurrence_some h]
    have hstop : (job.occurrence f).2 = UInt64.ofNat (p + job.request.query.bytes.length) := by
      rw [occurrence_some h]
    constructor
    · rintro hexact p' hp'
      cases hp'
      have he := hexact.endPos
      rw [htied, hstop] at he
      have hn : (UInt64.ofNat (p + job.request.query.bytes.length)).toNat =
          p + job.request.query.bytes.length := toNat_ofNat_lt (by omega)
      have hlt := (toSize_toInt_iff (by omega)).1 he
      omega
    · intro hlt
      have hlt := hlt p rfl
      obtain ⟨hs, he⟩ := job.matched_exact (f := f) hlt
      have hne := occurrence_ne_npos h
      refine ⟨?_, ?_, iff_of_false ?_ hne, ?_, ?_⟩
      · rw [htied, hs, hstart]
      · rw [htied, he, hstop]
      · rw [job.search_some h (by omega)]
        exact consuming_ne_nextLine _ _
      · intro _
        rw [Frame.loopHead, htied, hs, ← hstart, if_neg hne]
      · intro _ b
        rw [htied, result_matched hq hlt, hstart]
        exact UInt64.ofNat_add p 1

/-! ## All iterations -/

/-- The occurrences selected in `line` from position `n` on end before `2 ^ 31`. -/
def EndBelow (job : Job κ) (line : StdString) (n : ℕ) : Prop :=
  ∀ ps, Selects job.request.query.bytes line.bytes n ps →
    ∀ p ∈ ps, p + job.request.query.bytes.length < 2 ^ 31

/-- What is still to be searched in this line and the later ones. -/
def AllBelow (job : Job κ) : Scan → Prop
  | .searching f => job.EndBelow f.line (toSize f.endPos).toNat ∧ ∀ l ∈ f.later, job.EndBelow l 0
  | .found f _ => job.EndBelow f.line (toSize f.endPos).toNat ∧ ∀ l ∈ f.later, job.EndBelow l 0
  | .finished => True

theorem allBelow_enterLine {lines : List StdString} (h : ∀ l ∈ lines, job.EndBelow l 0)
    (n : UInt64) : job.AllBelow (Phase.enterLine n lines).scan := by
  cases lines with
  | nil => trivial
  | cons line lines =>
    exact ⟨h line List.mem_cons_self, fun l hl => h l (List.mem_cons_of_mem _ hl)⟩

theorem allBelow_loopHead {b : Bool} (h : job.AllBelow (.found f b)) :
    job.AllBelow f.loopHead.scan := by
  unfold Frame.loopHead
  split
  · exact allBelow_enterLine h.2 _
  · exact h

/-- The match found is the first selected one, and the others are selected behind it. -/
theorem endBelow_next (hq : job.request.query.bytes ≠ []) {line : StdString} {n : ℕ}
    (h : job.EndBelow line n) (hp : firstFrom job.request.query.bytes line.bytes n = some p) :
    p + job.request.query.bytes.length < 2 ^ 31 ∧
      job.EndBelow line (p + job.request.query.bytes.length) := by
  obtain ⟨ps, hps⟩ := exists_selects hq line.bytes (p + job.request.query.bytes.length)
  refine ⟨h _ (selects_cons_iff.2 ⟨hp, hps⟩) p List.mem_cons_self, ?_⟩
  intro ps' hps' p' hp'
  exact h _ (selects_cons_iff.2 ⟨hp, hps'⟩) p' (List.mem_cons_of_mem _ hp')

theorem allBelow_search (hq : job.request.query.bytes ≠ []) (h : job.AllBelow (.searching f)) :
    job.AllBelow (job.search f).scan := by
  obtain ⟨hline, hlater⟩ := h
  cases hf : firstFrom job.request.query.bytes f.line.bytes (toSize f.endPos).toNat with
  | none =>
    rw [job.search_none hf]
    exact allBelow_enterLine hlater _
  | some p =>
    obtain ⟨hlt, hnext⟩ := endBelow_next hq hline hf
    have hpos := List.length_pos_of_ne_nil hq
    obtain ⟨-, he⟩ := job.matched_exact (f := f) hlt
    rw [job.search_some hf (by omega)]
    have hn : (toSize (job.matched f p).endPos).toNat = p + job.request.query.bytes.length := by
      rw [he]
      exact toNat_ofNat_lt (by omega)
    refine ⟨?_, hlater⟩
    rw [hn]
    exact hnext

variable {i : ι} {c c' : Client ι} {p p' : Phase}

/-- **The positions still to be found stay below `2 ^ 31`** at every step, for any client. -/
theorem allBelow_step (hq : job.request.query.bytes ≠ []) (h : job.AllBelow p.scan)
    (hs : job.step i c p = some (c', p')) : job.AllBelow p'.scan := by
  cases job.step_cases hs with
  | check f =>
    split
    · exact allBelow_search hq h
    · exact h
  | request f sem =>
    split
    · trivial
    · exact h
  | wait f sem hsem => exact allBelow_search hq h
  | consume f b => exact h
  | deliver f b => exact allBelow_loopHead h

/-- **As long as the iterations are exact, the loop follows the selection** of a line, and then
enters the next line. -/
theorem scan_exact (hq : job.request.query.bytes ≠ [])
    (hexact : ∀ n f out, job.scanAt n = (.searching f, out) → job.Exact f) {line : StdString}
    {k : ℕ} {ps : List ℕ} (hps : Selects job.request.query.bytes line.bytes k ps) :
    ∀ {f : Frame} {n : ℕ} {out : List SearchResult}, f.line = line → (toSize f.endPos).toNat = k →
      job.scanAt n = (.searching f, out) →
      (∀ p ∈ ps, p + job.request.query.bytes.length < 2 ^ 31) ∧
        ∃ m out', job.scanAt m = (f.nextLine.scan, out') := by
  induction ps generalizing k with
  | nil =>
    intro f n out hf hk hn
    subst hf hk
    refine ⟨by simp, n + 1, out, ?_⟩
    rw [scanAt_succ, hn]
    simp only [scanStep, job.search_none (selects_nil_iff.1 hps)]
  | cons p ps ih =>
    intro f n out hf hk hn
    subst hf hk
    obtain ⟨hp, hps'⟩ := selects_cons_iff.1 hps
    have hlt := (exact_iff hq).1 (hexact n f out hn) p hp
    have hpos := List.length_pos_of_ne_nil hq
    obtain ⟨hs, he⟩ := job.matched_exact (f := f) hlt
    -- the match is held and sent, and the next iteration starts behind it
    have hhead : (job.matched f p).loopHead = .checking (job.matched f p) := by
      have hres := (hexact n f out hn).resumes (occurrence_ne_npos hp)
      rwa [tied_some hp] at hres
    have h2 : job.scanAt (n + 2) = (.searching (job.matched f p),
        out ++ [job.result (job.matched f p) (job.finalFlag (job.matched f p))]) := by
      rw [scanAt_succ, scanAt_succ, hn]
      simp only [scanStep, job.search_some hp (by omega), Phase.scan, hhead]
    have hk : (toSize (job.matched f p).endPos).toNat = p + job.request.query.bytes.length := by
      rw [he]
      exact toNat_ofNat_lt (by omega)
    obtain ⟨hrest, m, out', hm⟩ := ih hps' (f := job.matched f p) rfl hk h2
    refine ⟨?_, m, out', hm⟩
    intro p' hp'
    rcases List.mem_cons.1 hp' with rfl | hp'
    · exact hlt
    · exact hrest p' hp'

/-- Line by line, exact iterations mean small positions. -/
theorem scan_exact_lines (hq : job.request.query.bytes ≠ [])
    (hexact : ∀ n f out, job.scanAt n = (.searching f, out) → job.Exact f)
    {lines : List StdString} {l : UInt64} {n : ℕ} {out : List SearchResult}
    (hn : job.scanAt n = ((Phase.enterLine l lines).scan, out)) :
    ∀ line ∈ lines, job.EndBelow line 0 := by
  induction lines generalizing l n out with
  | nil => simp
  | cons line lines ih =>
    obtain ⟨ps, hps⟩ := exists_selects hq line.bytes 0
    obtain ⟨hall, m, out', hm⟩ := scan_exact hq hexact hps
      (f := { lineNumber := l, line, later := lines, startPos := 0, endPos := 0 }) rfl
      (show (toSize 0).toNat = 0 by decide) hn
    intro line' hline'
    rcases List.mem_cons.1 hline' with rfl | hline'
    · intro ps' hps' p hp
      exact hall p (hps.unique hps' ▸ hp)
    · exact ih hm line' hline'

/-- Every iteration of thread `i`, in every run of every system where it has the job. -/
def IterationsExact [DecidableEq ι] [DecidableEq κ] (job : Job κ) (i : ι) : Prop :=
  ∀ (clients : κ → Client ι) (jobs : ι → Option (Job κ)) (sched : List ι) (s : System ι κ)
    (t : Thread κ) (f : Frame), jobs i = some job →
    exec System.step (System.init clients jobs) sched = some s → s.threads i = some t →
    t.phase.scan = .searching f → job.Exact f

section Runs

variable [DecidableEq ι] [DecidableEq κ]

/-- The positions that thread `i` has still to find stay below `2 ^ 31` in every run. -/
theorem allBelow_run (hq : job.request.query.bytes ≠ []) (hstart : job.AllBelow job.start.scan)
    {clients : κ → Client ι} {jobs : ι → Option (Job κ)} {sched : List ι} {s : System ι κ}
    (hjob : jobs i = some job) (h : exec System.step (System.init clients jobs) sched = some s) :
    ∃ p, s.threads i = some ⟨job, p⟩ ∧ job.AllBelow p.scan := by
  refine exec_inv (I := fun s => ∃ p, s.threads i = some ⟨job, p⟩ ∧ job.AllBelow p.scan) ?_ ?_ h
  · rintro s j s' ⟨p, hp, hall⟩ hst
    obtain ⟨t, c', p', ht, hs, rfl⟩ := System.step_cases hst
    by_cases hji : j = i
    · subst hji
      obtain rfl : t = ⟨job, p⟩ := Option.some.inj (ht.symm.trans hp)
      exact ⟨p', Function.update_self .., allBelow_step hq hall hs⟩
    · exact ⟨p, (Function.update_of_ne (Ne.symm hji) ..).trans hp, hall⟩
  · refine ⟨job.start, ?_, hstart⟩
    show (jobs i).map _ = _
    rw [hjob]
    rfl

/-- **Every iteration of every run is exact exactly if** each leftmost non-overlapping occurrence
of the query in each line ends before `2 ^ 31`. -/
theorem iterations_exact_iff (job : Job κ) (i : ι) (hq : job.request.query.bytes ≠ []) :
    job.IterationsExact i ↔
      ∀ line ∈ job.source.lines, ∀ p ∈ job.linePositions line,
        p + job.request.query.bytes.length < 2 ^ 31 := by
  have hsel : ∀ line : StdString,
      Selects job.request.query.bytes line.bytes 0 (job.linePositions line) :=
    fun line => selects_positions hq line.bytes
  constructor
  · intro hexact line hline
    -- the run of a Premium client, alone, makes every iteration of the scan
    have hscan : ∀ n f out, job.scanAt n = (.searching f, out) → job.Exact f := by
      intro n f out hn
      obtain ⟨m, c', hm, -, -⟩ :=
        job.solo_scanAt (i := i) (c := ⟨0, .premium, 0, []⟩) rfl n
      obtain ⟨sched, s, hs, -, hthread⟩ :=
        System.exists_solo job i ⟨0, .premium, 0, []⟩ m
      refine hexact _ _ sched s _ f (if_pos rfl) hs hthread ?_
      rw [hm, hn]
      rfl
    exact scan_exact_lines hq hscan job.scanAt_zero line hline _ (hsel line)
  · intro hbelow clients jobs sched s t f hjob hs ht hf
    have hstart : job.AllBelow job.start.scan := by
      refine allBelow_enterLine ?_ 1
      intro line hline ps hps p hp
      exact hbelow line hline p ((hsel line).unique hps ▸ hp)
    obtain ⟨p, hp, hall⟩ := allBelow_run hq hstart hjob hs
    obtain rfl : t = ⟨job, p⟩ := Option.some.inj (ht.symm.trans hp)
    rw [hf] at hall
    refine (exact_iff hq).2 ?_
    intro p' hp'
    exact (endBelow_next hq hall.1 hp').1

end Runs

theorem iterations_exact_iff_letter :
    (letterJob 97 97).IterationsExact () ↔
      ∀ line ∈ (letterJob 97 97).source.lines, ∀ p ∈ (letterJob 97 97).linePositions line,
        p + (letterJob 97 97).request.query.bytes.length < 2 ^ 31 :=
  iterations_exact_iff (letterJob 97 97) () (by decide)

/-- The letter `a` behind `n` letters `b`. -/
def longLine (n : ℕ) (h : n + 1 < 2 ^ 63) : StdString :=
  ⟨List.replicate n 98 ++ [97], by simpa using h⟩

/-- The search for `a` in that line. -/
def longJob (n : ℕ) (h : n + 1 < 2 ^ 63) : Job Unit where
  client := ()
  source := ⟨.singleton 116, [longLine n h], by simp⟩
  request := ⟨0, .singleton 97, 0⟩

/-- The frame of its first iteration. -/
def longFrame (n : ℕ) (h : n + 1 < 2 ^ 63) : Frame :=
  { lineNumber := 1, line := longLine n h, later := [], startPos := 0, endPos := 0 }

theorem long_firstFrom (n : ℕ) (h : n + 1 < 2 ^ 63) :
    firstFrom (longJob n h).request.query.bytes (longFrame n h).line.bytes
      (toSize (longFrame n h).endPos).toNat = some n := by
  refine firstFrom_eq_some.2 ⟨Nat.zero_le _, at_singleton.2 ?_, ?_⟩
  · show (List.replicate n 98 ++ [(97 : UInt8)])[n]? = some 97
    rw [List.getElem?_append_right (by simp), List.length_replicate, Nat.sub_self]
    rfl
  · intro p _ hp hat
    have hb : (List.replicate n 98 ++ [(97 : UInt8)])[p]? = some 97 := at_singleton.1 hat
    rw [List.getElem?_append_left (by simpa using hp), List.getElem?_replicate, if_pos hp] at hb
    cases hb

/-- A match at a position that is `npos` as an `int` ends the loop. -/
theorem long_search {n : ℕ} {h : n + 1 < 2 ^ 63} (hn : n % 2 ^ 32 = 2 ^ 32 - 1) :
    (longJob n h).occurrence (longFrame n h) = (UInt64.ofNat n, UInt64.ofNat (n + 1)) ∧
      (longJob n h).search (longFrame n h) = .finished ∧ ¬ (longJob n h).IterationsExact () := by
  have hfound := long_firstFrom n h
  refine ⟨occurrence_some hfound, (longJob n h).search_hidden hfound hn, ?_⟩
  intro hexact
  -- any run starts with this iteration
  have hfirst : (longJob n h).Exact (longFrame n h) :=
    hexact (fun _ => debtor) (fun _ => some (longJob n h)) [] _ _ _ rfl rfl rfl rfl
  have hq : (longJob n h).request.query.bytes ≠ [] := List.cons_ne_nil _ _
  have hlt := (exact_iff hq).1 hfirst n hfound
  omega

/-- The letter behind `2 ^ 32 - 1` others is found, and taken for `npos`. -/
theorem long_notExact :
    ∃ h : 2 ^ 32 - 1 + 1 < 2 ^ 63,
      (longJob (2 ^ 32 - 1) h).occurrence (longFrame (2 ^ 32 - 1) h) =
          (UInt64.ofNat (2 ^ 32 - 1), UInt64.ofNat (2 ^ 32 - 1 + 1)) ∧
        (longJob (2 ^ 32 - 1) h).search (longFrame (2 ^ 32 - 1) h) = .finished ∧
        ¬ (longJob (2 ^ 32 - 1) h).IterationsExact () :=
  ⟨by omega, long_search (by omega)⟩

end Job

end MTFind2
