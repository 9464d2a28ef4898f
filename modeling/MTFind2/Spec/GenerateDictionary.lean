import MTFind2.Lib.Utf8
import MTFind2.Spec.Main
import Mathlib.Data.Finset.Sort

/-!
# `scripts/generate_dictionary.py`

The script that writes `data/dictionary.list`: the long enough words of the texts, in lower
case and sorted, one on each line. The program reads what it writes (`Dictionary.read`).

The files are in UTF-8 and `os.linesep` is the newline. What the interpreter knows of the
characters is a parameter (`Unicode`).
-/

namespace MTFind2

/-- **The character tables of the interpreter**, with what the script relies on. -/
structure Unicode where
  /-- `str.isalnum()` for one character. -/
  isalnum : Char → Bool
  /-- `str.lower()`. -/
  lower : List Char → List Char
  isalnum_newline : isalnum '\n' = false
  lower_ne_nil : ∀ word, word ≠ [] → lower word ≠ []
  newline_not_mem_lower : ∀ word, '\n' ∉ word → '\n' ∉ lower word

/-- The tables for the characters below 128. -/
def Unicode.ascii : Unicode where
  isalnum := Char.isAlphanum
  lower word := word.map Char.toLower
  isalnum_newline := by decide
  lower_ne_nil := by simp
  newline_not_mem_lower := by
    intro word hword hmem
    obtain ⟨c, hc, hlower⟩ := List.mem_map.1 hmem
    have hnewline : c = '\n' := by
      unfold Char.toLower at hlower
      split at hlower
      · rename_i hupper
        exfalso
        have hle : c.val.toNat ≤ 90 := hupper.2
        have hval := congrArg Char.toNat hlower
        simp at hval hle
        omega
      · exact hlower
    exact hword (hnewline ▸ hc)

namespace GenerateDictionary

/-- An entry that `glob.glob('data/*.txt')` lists. -/
def isGlobbed (entry : DirectoryEntry) : Bool :=
  let name := TextFile.filename entry.path.bytes
  decide (name.head? ≠ some 46) && decide ([46, 116, 120, 116] <:+ name)

/-- `enumerate_content_sources()`. -/
def enumerateContentSources (data : List DirectoryEntry) : List DirectoryEntry :=
  data.filter isGlobbed

/-- The newlines of a file opened as text. -/
def universalNewlines : List Char → List Char
  | [] => []
  | '\r' :: '\n' :: text => '\n' :: universalNewlines text
  | c :: text => (if c = '\r' then '\n' else c) :: universalNewlines text

/-- `file.read()`, for the file of the entry: it fails if that is not a file in UTF-8. -/
def read (entry : DirectoryEntry) : Option (List Char) :=
  if entry.isRegularFile then (Utf8.decode entry.content.bytes).map universalNewlines else none

variable (u : Unicode)

/-- `len(word) > 3 and word.isalnum()`. -/
def isWord (word : List Char) : Bool :=
  decide (word.length > 3) && (!word.isEmpty && word.all u.isalnum)

/-- `extract_words_from_file(path)`, for the text of the file. -/
def extractWordsFromFile (text : List Char) : List (List Char) :=
  ((text.splitOn ' ').filter (isWord u)).map fun word => u.lower word ++ ['\n']

/-- The loop over the content sources, with `all_words`. -/
def collect : List DirectoryEntry → Finset (List Char) → Option (Finset (List Char))
  | [], allWords => some allWords
  | contentSource :: contentSources, allWords => (read contentSource).bind fun text =>
      collect contentSources (allWords ∪ (extractWordsFromFile u text).toFinset)

/-- **The script**: the bytes of `data/dictionary.list`. -/
def main (data : List DirectoryEntry) : Option (List UInt8) :=
  (collect u (enumerateContentSources data) ∅).map fun allWords =>
    Utf8.encode (allWords.sort (· ≤ ·)).flatten

end GenerateDictionary

end MTFind2
