import MTFind2.Spec.Machine

/-!
# `Shared/TextHelper.h`

The text functions of the search, on the machine types of the source.

`getSurroundingText_ok`: the offset given to `substr` is never past the end, so
no call throws. `surroundingText` is the view it returns. `getSurroundingTextChecked`
is the same function, with the overflow of signed arithmetic as a fault.
-/

namespace MTFind2.TextHelper

/-- `tolower` in the C locale. -/
def tolower (c : UInt8) : UInt8 := if 65 ≤ c ∧ c ≤ 90 then c + 32 else c

/-- `transform_to_lowercase(str)`: the value of `str` after the call. The lower-case
bytes go to the local `tmp`, `str` itself is not assigned. -/
def transformToLowercase (str : StdString) : StdString :=
  let _tmp := str.bytes.map tolower
  str

@[simp] theorem transformToLowercase_eq (str : StdString) : transformToLowercase str = str := rfl

/-- `find_in_string(haystack, needle, start)`: first and past-the-end position. -/
def findInString (haystack needle : StdString) (start : UInt64) : UInt64 × UInt64 :=
  let startPos := haystack.find needle start
  if startPos = npos then (npos, npos) else (startPos, startPos + needle.size)

/-- The space character. -/
def space : UInt8 := 32

/-- `get_surrounding_text(source_string, start_pos, end_pos)`. -/
def getSurroundingText (s : StdString) (startPos endPos : UInt64) : Except OutOfRange StringView :=
  let prevWordPos : Int64 :=
    if startPos > 0 then
      let prevWordPos := (s.rfindChar space (startPos - 1)).toInt64
      (s.rfindChar space (prevWordPos - 1).toUInt64).toInt64
    else npos.toInt64
  let prevWordPos := max 0 (prevWordPos + 1)
  let nextWordPos : Int64 :=
    if endPos < s.size - 1 then (s.findChar space (endPos + 1)).toInt64 else npos.toInt64
  let length := min (nextWordPos - prevWordPos) s.size.toInt64
  (StringView.ofString s).substr prevWordPos.toUInt64 length.toUInt64

/-- `std::max(0l, x + 1)` as a `size_t`, for a position or `-1`. -/
theorem toNat_max_succ {x : Int64} (hlo : -1 ≤ x.toInt) (hhi : x.toInt + 1 < 2 ^ 63) :
    ((max 0 (x + 1)).toUInt64.toNat : ℤ) = x.toInt + 1 := by
  have h1 : (x + 1).toInt = x.toInt + 1 := by
    rw [Int64.toInt_add]
    exact Int.bmod_eq_of_le (by simp; omega) (by simp; omega)
  have h2 : (max 0 (x + 1)).toInt = x.toInt + 1 := by
    have hle : (0 : Int64) ≤ x + 1 := by
      rw [Int64.le_iff_toInt_le, h1]
      simp
      omega
    show (if 0 ≤ x + 1 then x + 1 else 0).toInt = _
    rw [if_pos hle, h1]
  have h3 := toNat_toUInt64 (max 0 (x + 1))
  rw [h2] at h3
  omega

/-- The word start computed from a backward search is inside the string. -/
theorem toNat_wordStart {s : StdString} {c : UInt8} {x : Int64}
    (hx : x = npos.toInt64 ∨ ∃ pos, x = (s.rfindChar c pos).toInt64) :
    (max 0 (x + 1)).toUInt64.toNat ≤ s.bytes.length := by
  have hs := s.size_lt
  -- the search gives `-1` or an index of the string
  have hv : x.toInt = -1 ∨ 0 ≤ x.toInt ∧ x.toInt < s.bytes.length := by
    rcases hx with rfl | ⟨pos, rfl⟩
    · exact .inl (by decide)
    · rw [toInt_toInt64, StdString.rfindChar]
      cases h : Occurrence.lastUpto [c] s.bytes pos.toNat with
      | none => exact .inl (by decide)
      | some p =>
        have hp := ((Occurrence.lastUpto_some h).2).lt (List.cons_ne_nil _ _)
        have hn : (StdString.ofPos (some p)).toNat = p :=
          StdString.toNat_ofPos (fun p' h' => by cases h'; omega)
        rw [hn, Int.bmod_eq_of_le (by omega) (by omega)]
        exact .inr ⟨by omega, by omega⟩
  have h := toNat_max_succ (show -1 ≤ x.toInt by omega) (show x.toInt + 1 < 2 ^ 63 by omega)
  omega

/-- **`get_surrounding_text` never throws.** -/
theorem getSurroundingText_ok (s : StdString) (startPos endPos : UInt64) :
    ((getSurroundingText s startPos endPos).toOption).isSome = true := by
  unfold getSurroundingText StringView.substr
  rw [dif_pos]
  · rfl
  · apply toNat_wordStart (c := space)
    split
    · exact .inr ⟨_, rfl⟩
    · exact .inl rfl

/-- The view that `get_surrounding_text` returns. -/
def surroundingText (s : StdString) (startPos endPos : UInt64) : StringView :=
  (getSurroundingText s startPos endPos).toOption.get (getSurroundingText_ok s startPos endPos)

/-! ## With the undefined behaviour of the signed arithmetic -/

/-- What can go wrong in `get_surrounding_text`. -/
inductive Fault
  | signedOverflow
  | outOfRange
deriving DecidableEq

/-- `x + y` for `ssize_t`. -/
def addSigned (x y : Int64) : Except Fault Int64 :=
  if (x + y).toInt = x.toInt + y.toInt then .ok (x + y) else .error .signedOverflow

/-- `x - y` for `ssize_t`. -/
def subSigned (x y : Int64) : Except Fault Int64 :=
  if (x - y).toInt = x.toInt - y.toInt then .ok (x - y) else .error .signedOverflow

/-- The backward searches of `get_surrounding_text`: its first `if`. -/
def prevWordPosChecked (s : StdString) (startPos : UInt64) : Except Fault Int64 :=
  if startPos > 0 then do
    let prevWordPos := (s.rfindChar space (startPos - 1)).toInt64
    let before ← subSigned prevWordPos 1
    pure (s.rfindChar space before.toUInt64).toInt64
  else pure npos.toInt64

/-- `get_surrounding_text(source_string, start_pos, end_pos)`, where a signed addition or
subtraction that overflows is a fault. -/
def getSurroundingTextChecked (s : StdString) (startPos endPos : UInt64) :
    Except Fault StringView := do
  let prevWordPos ← prevWordPosChecked s startPos
  let after ← addSigned prevWordPos 1
  let prevWordPos := max 0 after
  let nextWordPos : Int64 :=
    if endPos < s.size - 1 then (s.findChar space (endPos + 1)).toInt64 else npos.toInt64
  let length ← subSigned nextWordPos prevWordPos
  let length := min length s.size.toInt64
  match (StringView.ofString s).substr prevWordPos.toUInt64 length.toUInt64 with
  | .ok view => .ok view
  | .error .outOfRange => .error .outOfRange

end MTFind2.TextHelper
