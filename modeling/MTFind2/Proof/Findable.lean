import MTFind2.Proof.Answers
import MTFind2.Proof.Dictionary

/-!
# The words of the dictionary are found

A word that the script takes stands between two spaces of a text, so without a newline, and
its bytes are a part of some line that the program reads (`exists_line`). The program searches
for the bytes as they are, so a word that the script left as it was is found.

* `answer_ne_zero_iff`: a request has an answer exactly if its query is a part of some line.
* `generated_found`: with the dictionary that the script wrote for the texts of the program, a
  Premium client that asks for a word taken in lower case has been delivered a result when its
  call returns.
-/

namespace MTFind2

open Run TextFile Occurrence

/-! ## Lines -/

namespace TextFile

/-- **A part of a file without newline is a part of a line.** -/
theorem infix_readLines (line : List UInt8) {w file : List UInt8} (hw : newline ∉ w) (hne : w ≠ [])
    (h : w <:+: line ++ file) : ∃ l ∈ readLines line file, w <:+: l := by
  induction file generalizing line with
  | nil =>
    rw [List.append_nil] at h
    have hline : line ≠ [] := by
      rintro rfl
      exact hne (List.infix_nil.1 h)
    exact ⟨line, by simp [readLines, hline], h⟩
  | cons b file ih =>
    unfold readLines
    split
    · rename_i hb
      subst hb
      rcases (infix_append_cons hw).1 h with h | h
      · exact ⟨line, List.mem_cons_self, h⟩
      · obtain ⟨l, hl, hinfix⟩ := ih [] h
        exact ⟨l, List.mem_cons_of_mem _ hl, hinfix⟩
    · exact ih _ (by simpa using h)

end TextFile

namespace GenerateDictionary

/-- Opening a file as text changes nothing but newlines. -/
theorem prefix_universalNewlines {word text : List Char} (hw : '\n' ∉ word)
    (h : word <+: universalNewlines text) : word <+: text := by
  fun_induction universalNewlines text generalizing word with
  | case1 => exact h
  | case2 text ih =>
    rcases List.prefix_cons_iff.1 h with rfl | ⟨t, rfl, -⟩
    · exact List.nil_prefix
    · exact absurd List.mem_cons_self hw
  | case3 c text hne ih =>
    rcases List.prefix_cons_iff.1 h with rfl | ⟨t, rfl, ht⟩
    · exact List.nil_prefix
    · split at hw
      · exact absurd List.mem_cons_self hw
      · rename_i hc
        rw [if_neg hc]
        exact (List.prefix_cons_inj c).2 (ih (fun hmem => hw (List.mem_cons_of_mem _ hmem)) ht)

theorem infix_universalNewlines {word text : List Char} (hw : '\n' ∉ word)
    (h : word <:+: universalNewlines text) : word <:+: text := by
  fun_induction universalNewlines text with
  | case1 => exact h
  | case2 text ih =>
    rcases List.infix_cons_iff.1 h with hpre | hinfix
    · rcases List.prefix_cons_iff.1 hpre with rfl | ⟨t, rfl, -⟩
      · exact List.nil_infix
      · exact absurd List.mem_cons_self hw
    · exact (ih hinfix).trans (List.infix_cons (List.infix_cons List.infix_rfl))
  | case3 c text hne ih =>
    rcases List.infix_cons_iff.1 h with hpre | hinfix
    · rw [← universalNewlines.eq_3 c text hne] at hpre
      exact (prefix_universalNewlines hw hpre).isInfix
    · exact (ih hinfix).trans (List.infix_cons List.infix_rfl)

variable {u : Unicode} {entry : DirectoryEntry} {text word : List Char}

/-- A file that the script reads is a source of the program. -/
theorem isSample_of_read (hglob : isGlobbed entry = true) (hread : read entry = some text) :
    entry.isSample = true := by
  unfold read at hread
  split at hread
  · rename_i hregular
    unfold isGlobbed at hglob
    unfold DirectoryEntry.isSample TextFile.extension
    simp only [Bool.and_eq_true, decide_eq_true_eq] at hglob ⊢
    obtain ⟨hdot, pre, hname⟩ := hglob
    refine ⟨hregular, ?_⟩
    rw [← hname] at hdot ⊢
    -- the last dot is the one of `.txt`
    have hsuffix : TextFile.suffix (pre ++ [46, 116, 120, 116]) = [116, 120, 116] := by
      simp [TextFile.suffix]
    have hpre : pre ≠ [] := by
      rintro rfl
      exact hdot rfl
    have hdots : pre ++ [46, 116, 120, 116] ≠ [46, 46] := by
      intro hdots
      have hlen := congrArg List.length hdots
      simp at hlen
    rw [hsuffix, if_neg]
    rintro (h | h)
    · exact hdots h
    · exact hpre (by simpa using h)
  · cases hread

/-- **A word that the script takes is a part of a line of the source.** -/
theorem exists_line (hread : read entry = some text) (hsplit : word ∈ text.splitOn ' ')
    (hword : isWord u word = true) :
    ∃ line ∈ entry.contentSource.lines, Utf8.encode word <:+: line.bytes := by
  unfold read at hread
  split at hread
  · obtain ⟨raw, hraw, rfl⟩ := Option.map_eq_some_iff.1 hread
    have hnewline := newline_not_mem hword
    have hinfix : word <:+: raw :=
      infix_universalNewlines hnewline (infix_of_mem_splitOn hsplit)
    have hbytes : Utf8.encode word <:+: entry.content.bytes := by
      rw [← Utf8.decode_eq_some.1 hraw]
      exact Utf8.encode_infix hinfix
    have hascii : '\n'.toNat < 128 := by decide
    have hnot : newline ∉ Utf8.encode word := fun h => hnewline ((Utf8.ascii_mem_encode hascii).1 h)
    have hne : Utf8.encode word ≠ [] := by
      rw [ne_eq, Utf8.encode_eq_nil]
      rintro rfl
      cases (isWord_iff.1 hword).1
    obtain ⟨l, hl, hpart⟩ := infix_readLines [] hnot hne hbytes
    rw [← StdString.lines_bytes] at hl
    obtain ⟨line, hline, rfl⟩ := List.mem_map.1 hl
    exact ⟨line, hline, hpart⟩
  · cases hread

end GenerateDictionary

/-! ## Answers -/

namespace Job

variable {κ : Type} {job : Job κ}

theorem lineResults_eq_nil {n : UInt64} {line : StdString} {ps : List ℕ} :
    job.lineResults n line ps = [] ↔ ps = [] := by
  cases ps <;> simp [lineResults]

theorem linesResults_eq_nil {n : UInt64} {lines : List StdString} {f : StdString → List ℕ} :
    job.linesResults n lines (lines.map f) = [] ↔ ∀ line ∈ lines, f line = [] := by
  induction lines generalizing n with
  | nil => simp [linesResults]
  | cons line lines ih =>
    rw [List.map_cons, linesResults, List.append_eq_nil_iff, lineResults_eq_nil, ih,
      List.forall_mem_cons]

/-- **A source has no results** exactly if the query is a part of none of its lines. -/
theorem found_eq_nil_iff (hq : job.request.query.bytes ≠ []) :
    job.found = [] ↔ ∀ line ∈ job.source.lines, ¬ job.request.query.bytes <:+: line.bytes := by
  unfold found positions
  rw [linesResults_eq_nil]
  refine forall₂_congr ?_
  intro line _
  exact positions_eq_nil_iff hq

end Job

/-- **A request has an answer** exactly if its query is a part of some line of some source. -/
theorem Environment.answer_ne_zero_iff {env : Environment} {n : ℕ}
    (hq : (env.request n).query.bytes ≠ []) :
    env.answer n ≠ 0 ↔ ∃ src ∈ env.contentSources, ∃ line ∈ src.lines,
      (env.request n).query.bytes <:+: line.bytes := by
  have hsum : ∀ sources : List ContentSource,
      (sources.map fun src =>
        ((jobOf n (env.request n) src).found : Multiset SearchResult)).sum = 0 ↔
        ∀ src ∈ sources, ∀ line ∈ src.lines, ¬ (env.request n).query.bytes <:+: line.bytes := by
    intro sources
    induction sources with
    | nil => simp
    | cons src sources ih =>
      rw [List.map_cons, List.sum_cons, add_eq_zero, ih, Multiset.coe_eq_zero,
        Job.found_eq_nil_iff hq, List.forall_mem_cons]
      rfl
  unfold answer
  rw [ne_eq, hsum]
  push Not
  rfl

namespace Process

variable {env : Environment} {s : Process} {as : List Action} {n : ℕ} {u : Unicode}
  {file : StdString}

/-- With the dictionary of the script no query is empty. -/
theorem tame_of_generated (hfile : GenerateDictionary.main u env.data = some file.bytes)
    (hdictionary : env.dictionary = .read file) (hshort : ∀ src ∈ env.contentSources, src.Short) :
    env.Tame := by
  refine ⟨hshort, ?_⟩
  rw [hdictionary]
  exact read_nonempty hfile

/-- **The words of the dictionary are found.** The dictionary of the program is the file that the
script wrote for its texts, and their lines are short. In every run, a Premium client that asks for
a word that the script took, in the case in which it stands in the text, has been delivered a result
when its call has returned. -/
theorem generated_found (hfile : GenerateDictionary.main u env.data = some file.bytes)
    (hdictionary : env.dictionary = .read file) (hshort : ∀ src ∈ env.contentSources, src.Short)
    (h : exec (step env) (init env) as = some s) (hprem : (env.draws n).premium = true)
    {word : List Char}
    (hword : GenerateDictionary.Takes u (GenerateDictionary.enumerateContentSources env.data) word)
    (hquery : (env.request n).query.bytes = Utf8.encode word) (hret : s.hasReturned n = true) :
    s.delivered env n ≠ 0 := by
  have hlimits := (tame_of_generated hfile hdictionary hshort).limits n
  rw [delivered_returned h hprem hlimits hret, Environment.answer_ne_zero_iff hlimits.2]
  obtain ⟨entry, hentry, text, hread, hsplit, htaken⟩ := hword
  obtain ⟨hdata, hglob⟩ := List.mem_filter.1 hentry
  have hsample := GenerateDictionary.isSample_of_read hglob hread
  obtain ⟨line, hline, hpart⟩ := GenerateDictionary.exists_line hread hsplit htaken
  refine ⟨entry.contentSource, ?_, line, hline, ?_⟩
  · exact List.mem_map_of_mem (List.mem_filter.2 ⟨hdata, hsample⟩)
  · rw [hquery]
    exact hpart

theorem wordFile_pos : 0 < (Dictionary.read wordFile).words.length := by decide +kernel

/-- The program on the text of the dictionary: every second client is Premium. -/
def wordEnvironment : Environment where
  hardwareConcurrency := 1
  data := [wordEntry]
  dictionary := .read wordFile
  draws n := ⟨n % 2 == 0, ⟨0, wordFile_pos⟩, n⟩

/-- The call for the Premium client 14. -/
def wordCalls : List Action :=
  sampleStart ++ List.replicate 3 (.caller 14) ++ List.replicate 4 (.thread 14 1) ++
    List.replicate 3 (.caller 14)

def wordAnswered : Process :=
  (exec (step wordEnvironment) (init wordEnvironment) wordCalls).get (by decide +kernel)

theorem wordAnswered_run :
    exec (step wordEnvironment) (init wordEnvironment) wordCalls = some wordAnswered :=
  (Option.some_get _).symm

theorem generated_found_word : wordAnswered.delivered wordEnvironment 14 ≠ 0 := by
  have hword : GenerateDictionary.Takes .ascii
      (GenerateDictionary.enumerateContentSources wordEnvironment.data) ['a', 'b', 'c', 'd'] := by
    refine ⟨wordEntry, ?_, wordText, wordEntry_read, by decide, by decide⟩
    exact List.mem_filter.2 ⟨List.mem_singleton_self _, by decide⟩
  exact generated_found wordFile_main rfl (by decide +kernel) wordAnswered_run rfl hword
    (by decide +kernel) (by decide +kernel)

end Process

end MTFind2
