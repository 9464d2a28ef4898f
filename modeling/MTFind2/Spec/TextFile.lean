import MTFind2.Spec.Client

/-!
# The text files behind sources and queries

`ContentSource` and `Dictionary` read their file with the same loop of
`std::getline` (`readLines`), which gives back every list of lines that was written to
the file (`readLines_unlines`), the empty line included. A file that cannot be opened, for
which the program ends with an exception, is left out.
-/

namespace MTFind2

namespace TextFile

/-- The delimiter of `std::getline`. -/
def newline : UInt8 := 10

/-- The strings of the loop `while (std::getline(stream, line))`, where `line` has been read since
the last newline: a last line without newline counts unless it is empty. -/
def readLines (line : List UInt8) : List UInt8 → List (List UInt8)
  | [] => if line = [] then [] else [line]
  | b :: file => if b = newline then line :: readLines [] file else readLines (line ++ [b]) file

/-- The file that holds the given lines. -/
def unlines (lines : List (List UInt8)) : List UInt8 := lines.flatMap (· ++ [newline])

variable {line : List UInt8}

theorem readLines_append {l : List UInt8} (hl : newline ∉ l) (file : List UInt8) :
    readLines line (l ++ newline :: file) = (line ++ l) :: readLines [] file := by
  induction l generalizing line with
  | nil => simp [readLines]
  | cons b l ih =>
    have hb : b ≠ newline := fun h => hl (h ▸ List.mem_cons_self)
    rw [List.cons_append, readLines, if_neg hb, ih fun h => hl (List.mem_cons_of_mem _ h)]
    simp

/-- **Every list of lines without newline is read from the file that holds them.** -/
theorem readLines_unlines {lines : List (List UInt8)} (h : ∀ l ∈ lines, newline ∉ l) :
    readLines [] (unlines lines) = lines := by
  induction lines with
  | nil => rfl
  | cons l lines ih =>
    rw [unlines, List.flatMap_cons, List.append_assoc, List.singleton_append,
      readLines_append (h l List.mem_cons_self), List.nil_append]
    exact congrArg _ (ih fun l hl => h l (List.mem_cons_of_mem _ hl))

/-- There are no more lines than bytes, and no line is longer than the file. -/
theorem readLines_size (line file : List UInt8) :
    (readLines line file).length ≤ line.length + file.length ∧
      ∀ l ∈ readLines line file, l.length ≤ line.length + file.length := by
  induction file generalizing line with
  | nil =>
    unfold readLines
    split
    · simp
    · rename_i h
      have := List.length_pos_of_ne_nil h
      simp
      omega
  | cons b file ih =>
    unfold readLines
    split
    · obtain ⟨h1, h2⟩ := ih []
      simp only [List.length_nil] at h1 h2
      refine ⟨by simp only [List.length_cons]; omega, fun l hl => ?_⟩
      rcases List.mem_cons.1 hl with rfl | hl
      · omega
      · have := h2 l hl
        simp only [List.length_cons]
        omega
    · obtain ⟨h1, h2⟩ := ih (line ++ [b])
      simp only [List.length_append, List.length_cons, List.length_nil] at h1 h2 ⊢
      exact ⟨by omega, fun l hl => by have := h2 l hl; omega⟩

end TextFile

open TextFile

/-- The lines of a file as strings. -/
def StdString.lines (file : StdString) : List StdString :=
  (readLines [] file.bytes).attach.map fun l =>
    ⟨l.1, by
      have := (readLines_size [] file.bytes).2 l.1 l.2
      have := file.size_lt
      simp at *
      omega⟩

theorem StdString.lines_bytes (file : StdString) :
    file.lines.map StdString.bytes = readLines [] file.bytes := by
  simp [StdString.lines]

/-- `ContentSource(file_path)`, for a file with the given content. -/
def ContentSource.read (filePath file : StdString) : ContentSource where
  filePath
  lines := file.lines
  lines_lt := by
    have h1 := congrArg List.length file.lines_bytes
    have h2 := (readLines_size [] file.bytes).1
    have := file.size_lt
    simp only [List.length_map, List.length_nil] at h1 h2
    omega

/-- `Dictionary`: its words. -/
structure Dictionary where
  words : List StdString

/-- `Dictionary()`, for a dictionary file with the given content. -/
def Dictionary.read (file : StdString) : Dictionary := ⟨file.lines⟩

/-- `random_word()`, for the index drawn; there is none for an empty dictionary. -/
def Dictionary.randomWord (d : Dictionary) (index : ℕ) : Option StdString := d.words[index]?

/-- `SearchRequest::create_random()`, for the next id, the index drawn and the time it is made. -/
def SearchRequest.createRandom (d : Dictionary) (id : UInt64) (index : ℕ) (timestamp : ℤ) :
    Option SearchRequest :=
  (d.randomWord index).map fun query => { id, query, timestamp }

end MTFind2
