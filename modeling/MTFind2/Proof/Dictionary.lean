import MTFind2.Spec.GenerateDictionary

/-!
# The dictionary that the script writes

* `collect_iff`: what the loop of the script collects.
* `main_lines`: the file consists of lines, each a collected word.
* `dictionary_read`: the program reads back exactly the words that the script took, in
  lower case, in strictly increasing order, and none of them is empty.
-/

namespace MTFind2

open TextFile

namespace GenerateDictionary

variable {u : Unicode} {entries : List DirectoryEntry} {allWords allWords' : Finset (List Char)}

/-- The script takes `word` from a text among `entries`. -/
def Takes (u : Unicode) (entries : List DirectoryEntry) (word : List Char) : Prop :=
  ∃ entry ∈ entries, ∃ text, read entry = some text ∧ word ∈ text.splitOn ' ' ∧
    isWord u word = true

/-- **What is collected**: the words in lower case, each with its newline. -/
theorem collect_iff (h : collect u entries allWords = some allWords') (line : List Char) :
    line ∈ allWords' ↔
      line ∈ allWords ∨ ∃ word, Takes u entries word ∧ line = u.lower word ++ ['\n'] := by
  induction entries generalizing allWords with
  | nil =>
    cases h
    simp [Takes]
  | cons entry entries ih =>
    obtain ⟨text, htext, hrest⟩ := Option.bind_eq_some_iff.1 h
    rw [ih hrest]
    constructor
    · rintro (hline | ⟨word, ⟨e, he, htakes⟩, rfl⟩)
      · rcases Finset.mem_union.1 hline with hline | hline
        · exact .inl hline
        · obtain ⟨word, hword, rfl⟩ := List.mem_map.1 (List.mem_toFinset.1 hline)
          obtain ⟨hsplit, htaken⟩ := List.mem_filter.1 hword
          exact .inr ⟨word, ⟨entry, List.mem_cons_self, text, htext, hsplit, htaken⟩, rfl⟩
      · exact .inr ⟨word, ⟨e, List.mem_cons_of_mem _ he, htakes⟩, rfl⟩
    · rintro (hline | ⟨word, ⟨e, he, text', htext', hsplit, htaken⟩, rfl⟩)
      · exact .inl (Finset.mem_union_left _ hline)
      · rcases List.mem_cons.1 he with rfl | he
        · cases htext.symm.trans htext'
          refine .inl (Finset.mem_union_right _ (List.mem_toFinset.2 ?_))
          exact List.mem_map.2 ⟨word, List.mem_filter.2 ⟨hsplit, htaken⟩, rfl⟩
        · exact .inr ⟨word, ⟨e, he, text', htext', hsplit, htaken⟩, rfl⟩

/-- A word has at least four characters, and no newline. -/
theorem isWord_iff {word : List Char} : isWord u word = true ↔
    3 < word.length ∧ ∀ c ∈ word, u.isalnum c = true := by
  unfold isWord
  constructor
  · intro h
    simp only [Bool.and_eq_true, decide_eq_true_eq, List.all_eq_true] at h
    exact ⟨h.1, h.2.2⟩
  · rintro ⟨hlen, hall⟩
    have hne : word.isEmpty = false := by
      cases word with
      | nil => cases hlen
      | cons => rfl
    simpa [hne, hlen] using hall

theorem newline_not_mem {word : List Char} (h : isWord u word = true) : '\n' ∉ word := by
  intro hmem
  have hnewline := (isWord_iff.1 h).2 _ hmem
  rw [u.isalnum_newline] at hnewline
  cases hnewline

/-- The bytes of a line of the file, without the newline. -/
theorem newline_not_mem_encode {word : List Char} (h : isWord u word = true) :
    newline ∉ Utf8.encode (u.lower word) := by
  have hmem := u.newline_not_mem_lower word (newline_not_mem h)
  have hascii : '\n'.toNat < 128 := by decide
  exact fun h => hmem ((Utf8.ascii_mem_encode hascii).1 h)

/-- The bytes of a text of lines. -/
theorem encode_flatten (lines : List (List Char)) :
    Utf8.encode (lines.map (· ++ ['\n'])).flatten = unlines (lines.map Utf8.encode) := by
  induction lines with
  | nil => rfl
  | cons line lines ih =>
    have hnewline : Utf8.encode ['\n'] = [newline] := by decide
    rw [List.map_cons, List.flatten_cons, Utf8.encode_append, Utf8.encode_append, ih, hnewline]
    rfl

/-- **The file consists of lines**: the sorted words. -/
theorem main_lines {data : List DirectoryEntry} {bytes : List UInt8}
    (h : main u data = some bytes) :
    ∃ lines : List (List Char), bytes = unlines (lines.map Utf8.encode) ∧
      (lines.map (· ++ ['\n'])).Pairwise (· < ·) ∧
      ∀ line, line ∈ lines ↔
        ∃ word, Takes u (enumerateContentSources data) word ∧ line = u.lower word := by
  obtain ⟨allWords, hcollect, rfl⟩ := Option.map_eq_some_iff.1 h
  have hmem : ∀ line, line ∈ allWords.sort (· ≤ ·) ↔
      ∃ word, Takes u (enumerateContentSources data) word ∧ line = u.lower word ++ ['\n'] := by
    intro line
    rw [Finset.mem_sort, collect_iff hcollect]
    simp
  -- every collected word ends with its newline
  have hlast : ∀ line ∈ allWords.sort (· ≤ ·), line.dropLast ++ ['\n'] = line := by
    intro line hline
    obtain ⟨word, -, rfl⟩ := (hmem line).1 hline
    simp
  have hlines : ((allWords.sort (· ≤ ·)).map List.dropLast).map (· ++ ['\n']) =
      allWords.sort (· ≤ ·) := by
    rw [List.map_map]
    calc (allWords.sort (· ≤ ·)).map ((· ++ ['\n']) ∘ List.dropLast)
        = (allWords.sort (· ≤ ·)).map id := List.map_congr_left hlast
      _ = allWords.sort (· ≤ ·) := List.map_id _
  refine ⟨(allWords.sort (· ≤ ·)).map List.dropLast, ?_, ?_, ?_⟩
  · rw [← encode_flatten, hlines]
  · rw [hlines]
    exact (Finset.sortedLT_sort allWords).pairwise
  · intro line
    rw [List.mem_map]
    constructor
    · rintro ⟨line', hline', rfl⟩
      obtain ⟨word, htakes, rfl⟩ := (hmem line').1 hline'
      exact ⟨word, htakes, by simp⟩
    · rintro ⟨word, htakes, rfl⟩
      exact ⟨u.lower word ++ ['\n'], (hmem _).2 ⟨word, htakes, rfl⟩, by simp⟩

end GenerateDictionary

open GenerateDictionary

section Read

variable {u : Unicode} {data : List DirectoryEntry} {file : StdString}

/-- The words that the program reads are the lines that the script wrote. -/
theorem read_lines (h : main u data = some file.bytes) :
    ∃ lines : List (List Char),
      (Dictionary.read file).words.map StdString.bytes = lines.map Utf8.encode ∧
      (lines.map (· ++ ['\n'])).Pairwise (· < ·) ∧
      ∀ line, line ∈ lines ↔
        ∃ word, Takes u (enumerateContentSources data) word ∧ line = u.lower word := by
  obtain ⟨lines, hfile, hsorted, hmem⟩ := main_lines h
  refine ⟨lines, ?_, hsorted, hmem⟩
  unfold Dictionary.read
  rw [StdString.lines_bytes, hfile]
  refine readLines_unlines ?_
  intro line hline
  obtain ⟨word, hword, rfl⟩ := List.mem_map.1 hline
  obtain ⟨taken, ⟨-, -, -, -, -, htaken⟩, rfl⟩ := (hmem word).1 hword
  exact newline_not_mem_encode htaken

theorem read_sorted (h : main u data = some file.bytes) :
    ((Dictionary.read file).words.map fun word => word.bytes ++ [newline]).Pairwise (· < ·) := by
  obtain ⟨lines, hwords, hsorted, -⟩ := read_lines h
  have hnewline : Utf8.encode ['\n'] = [newline] := by decide
  have hmap : (Dictionary.read file).words.map (fun word => word.bytes ++ [newline]) =
      (lines.map (· ++ ['\n'])).map Utf8.encode := by
    have happend := congrArg (List.map (· ++ [newline])) hwords
    rw [List.map_map, List.map_map] at happend
    rw [List.map_map]
    refine happend.trans (List.map_congr_left ?_)
    intro line _
    simp [hnewline]
  rw [hmap, List.pairwise_map]
  exact hsorted.imp fun hlt => Utf8.encode_lt hlt

theorem read_taken (h : main u data = some file.bytes) (bytes : List UInt8) :
    bytes ∈ (Dictionary.read file).words.map StdString.bytes ↔
      ∃ word, Takes u (enumerateContentSources data) word ∧
        bytes = Utf8.encode (u.lower word) := by
  obtain ⟨lines, hwords, -, hmem⟩ := read_lines h
  rw [hwords, List.mem_map]
  constructor
  · rintro ⟨line, hline, rfl⟩
    obtain ⟨word, htakes, rfl⟩ := (hmem line).1 hline
    exact ⟨word, htakes, rfl⟩
  · rintro ⟨word, htakes, rfl⟩
    exact ⟨u.lower word, (hmem _).2 ⟨word, htakes, rfl⟩, rfl⟩

theorem read_nonempty (h : main u data = some file.bytes) :
    ∀ word ∈ (Dictionary.read file).words, word.bytes ≠ [] := by
  intro word hword
  obtain ⟨taken, ⟨-, -, -, -, -, htaken⟩, hbytes⟩ :=
    (read_taken h word.bytes).1 (List.mem_map_of_mem hword)
  have hlen := (isWord_iff.1 htaken).1
  rw [hbytes, ne_eq, Utf8.encode_eq_nil]
  refine u.lower_ne_nil taken ?_
  rintro rfl
  cases hlen

/-- **What the program reads of the generated dictionary**: the words that the script takes, in
lower case. The lines of the file are strictly increasing, and no word is empty. -/
structure Dictionary.Generated (u : Unicode) (data : List DirectoryEntry) (d : Dictionary) :
    Prop where
  sorted : (d.words.map fun word => word.bytes ++ [newline]).Pairwise (· < ·)
  taken : ∀ bytes, bytes ∈ d.words.map StdString.bytes ↔
    ∃ word, Takes u (enumerateContentSources data) word ∧ bytes = Utf8.encode (u.lower word)
  nonempty : ∀ word ∈ d.words, word.bytes ≠ []

/-- **The script and the program agree on the dictionary**: the program reads back what the script
took from the texts. -/
theorem dictionary_read (h : main u data = some file.bytes) :
    (Dictionary.read file).Generated u data :=
  ⟨read_sorted h, read_taken h, read_nonempty h⟩

end Read

/-- A text with one word that is taken. -/
def wordText : List Char := ['a', 'b', 'c', 'd', ' ', 'x', '\n']

def wordEntry : DirectoryEntry :=
  ⟨⟨[100, 47, 119, 46, 116, 120, 116], by decide⟩, true, ⟨Utf8.encode wordText, by decide⟩⟩

/-- The dictionary of the text. -/
def wordFile : StdString := ⟨Utf8.encode ['a', 'b', 'c', 'd', '\n'], by decide⟩

theorem wordEntry_read : GenerateDictionary.read wordEntry = some wordText := by
  have hdecode : Utf8.decode wordEntry.content.bytes = some wordText := Utf8.decode_encode
  unfold GenerateDictionary.read
  rw [hdecode]
  rfl

theorem wordFile_main : main .ascii [wordEntry] = some wordFile.bytes := by
  have hglob : isGlobbed wordEntry = true := by decide
  have hsources : enumerateContentSources [wordEntry] = [wordEntry] :=
    List.filter_cons_of_pos hglob
  have hwords : extractWordsFromFile .ascii wordText = [['a', 'b', 'c', 'd', '\n']] := by decide
  unfold main
  rw [hsources, collect, wordEntry_read, Option.bind_some, hwords, collect]
  simp
  rfl

theorem dictionary_read_word : (Dictionary.read wordFile).Generated .ascii [wordEntry] :=
  dictionary_read wordFile_main

end MTFind2
