import MTFind2.Proof.Line

/-!
# The context of a match

`get_surrounding_text` looks backwards twice for a space, and once forwards. The
second backward search starts before the first space found; when there is none, or
it is at index 0, the start wraps and the search is one of the whole string.

* `surroundingText_pos`, `surroundingText_end`: the window in terms of the three
  searches.
* `getSurroundingText_safe`: for any arguments nothing overflows, nothing is thrown,
  and the result is a window of the string.
* `showsMatch_iff`: the window holds the match exactly if the second search stays
  before it.
-/

namespace MTFind2

open Occurrence

/-- The signed value of a position that may be `npos`. -/
def posValue : Option ℕ → ℤ
  | none => -1
  | some p => p

theorem StdString.toInt_ofPos {o : Option ℕ} (h : ∀ p ∈ o, p < 2 ^ 63) :
    (StdString.ofPos o).toInt64.toInt = posValue o := by
  cases o with
  | none => decide
  | some p =>
    have hp : p < 2 ^ 63 := h p rfl
    have hn : (StdString.ofPos (some p)).toNat = p := StdString.toNat_ofPos h
    rw [toInt_toInt64, hn]
    exact Int.bmod_eq_of_le (by omega) (by omega)

namespace TextHelper

variable (s : StdString) (startPos endPos : UInt64)

/-- `prev_word_pos` after the backward searches. -/
def prevWordPos : Int64 :=
  if startPos > 0 then
    let prevWordPos := (s.rfindChar space (startPos - 1)).toInt64
    (s.rfindChar space (prevWordPos - 1).toUInt64).toInt64
  else npos.toInt64

/-- `prev_word_pos` at the end: the start of the window. -/
def wordStart : Int64 := max 0 (prevWordPos s startPos + 1)

/-- `next_word_pos`. -/
def nextWordPos : Int64 :=
  if endPos < s.size - 1 then (s.findChar space (endPos + 1)).toInt64 else npos.toInt64

theorem getSurroundingText_eq : getSurroundingText s startPos endPos =
    (StringView.ofString s).substr (wordStart s startPos).toUInt64
      (min (nextWordPos s endPos - wordStart s startPos) s.size.toInt64).toUInt64 := rfl

variable {s startPos endPos}

/-! ## The searches -/

theorem lastUpto_lt {c : UInt8} {n p : ℕ} (h : lastUpto [c] s.bytes n = some p) :
    p < s.bytes.length := by
  obtain ⟨-, hat, -⟩ := lastUpto_eq_some.1 h
  exact hat.lt (List.cons_ne_nil _ _)

theorem toInt_rfindChar (c : UInt8) (pos : UInt64) :
    (s.rfindChar c pos).toInt64.toInt = posValue (lastUpto [c] s.bytes pos.toNat) := by
  refine StdString.toInt_ofPos ?_
  intro p hp
  have := lastUpto_lt hp
  have := s.size_lt
  omega

theorem toInt_findChar (c : UInt8) (pos : UInt64) :
    (s.findChar c pos).toInt64.toInt = posValue (firstFrom [c] s.bytes pos.toNat) :=
  StdString.toInt_ofPos fun _ hp => StdString.firstFrom_lt hp

theorem posValue_lastUpto (c : UInt8) (n : ℕ) : -1 ≤ posValue (lastUpto [c] s.bytes n) ∧
    posValue (lastUpto [c] s.bytes n) < s.bytes.length := by
  cases h : lastUpto [c] s.bytes n with
  | none =>
    simp only [posValue]
    omega
  | some p =>
    have := lastUpto_lt h
    simp only [posValue]
    omega

theorem posValue_firstFrom (c : UInt8) (n : ℕ) : -1 ≤ posValue (firstFrom [c] s.bytes n) ∧
    posValue (firstFrom [c] s.bytes n) < s.bytes.length := by
  cases h : firstFrom [c] s.bytes n with
  | none =>
    simp only [posValue]
    omega
  | some p =>
    have := (firstFrom_eq_some.1 h).2.1.lt (List.cons_ne_nil c [])
    simp only [posValue]
    omega

theorem prevWordPos_bounds (s : StdString) (startPos : UInt64) :
    -1 ≤ (prevWordPos s startPos).toInt ∧ (prevWordPos s startPos).toInt < s.bytes.length := by
  unfold prevWordPos
  split
  · rw [toInt_rfindChar]
    exact posValue_lastUpto _ _
  · have hn : npos.toInt64.toInt = -1 := by decide
    omega

theorem nextWordPos_bounds (s : StdString) (endPos : UInt64) :
    -1 ≤ (nextWordPos s endPos).toInt ∧ (nextWordPos s endPos).toInt < s.bytes.length := by
  unfold nextWordPos
  split
  · rw [toInt_findChar]
    exact posValue_firstFrom _ _
  · have hn : npos.toInt64.toInt = -1 := by decide
    omega

theorem toNat_wordStart_eq (s : StdString) (startPos : UInt64) :
    ((wordStart s startPos).toUInt64.toNat : ℤ) = (prevWordPos s startPos).toInt + 1 := by
  obtain ⟨hlo, hhi⟩ := prevWordPos_bounds s startPos
  have := s.size_lt
  exact toNat_max_succ hlo (by omega)

theorem toInt_wordStart (s : StdString) (startPos : UInt64) :
    (wordStart s startPos).toInt = (prevWordPos s startPos).toInt + 1 := by
  obtain ⟨hlo, hhi⟩ := prevWordPos_bounds s startPos
  have h := toNat_toUInt64 (wordStart s startPos)
  rw [toNat_wordStart_eq] at h
  have h1 := (wordStart s startPos).toInt_lt
  have h2 := (wordStart s startPos).le_toInt
  have := s.size_lt
  omega

/-! ## The window -/

/-- The length that is asked of `substr`, before the minimum. -/
theorem toInt_sub_wordStart (s : StdString) (startPos endPos : UInt64) :
    (nextWordPos s endPos - wordStart s startPos).toInt =
      (nextWordPos s endPos).toInt - (wordStart s startPos).toInt := by
  obtain ⟨hlo, hhi⟩ := prevWordPos_bounds s startPos
  obtain ⟨hlo', hhi'⟩ := nextWordPos_bounds s endPos
  have hs := s.size_lt
  have hw := toInt_wordStart s startPos
  rw [Int64.toInt_sub]
  exact Int.bmod_eq_of_le (by omega) (by omega)

/-- The window starts at `prev_word_pos` and is as long as asked, up to the end of the string. -/
theorem getSurroundingText_window (s : StdString) (startPos endPos : UInt64) :
    ∃ view, getSurroundingText s startPos endPos = .ok view ∧
      view.source = s ∧ view.pos = (wordStart s startPos).toUInt64.toNat ∧
      view.len =
        min (min (nextWordPos s endPos - wordStart s startPos) s.size.toInt64).toUInt64.toNat
          (s.bytes.length - (wordStart s startPos).toUInt64.toNat) := by
  obtain ⟨hlo, hhi⟩ := prevWordPos_bounds s startPos
  have hw := toNat_wordStart_eq s startPos
  have hle : (wordStart s startPos).toUInt64.toNat ≤ (StringView.ofString s).len := by
    show _ ≤ s.bytes.length
    omega
  rw [getSurroundingText_eq, StringView.substr, dif_pos hle]
  exact ⟨_, rfl, rfl, Nat.zero_add _, rfl⟩

theorem surroundingText_eq {view : StringView}
    (h : getSurroundingText s startPos endPos = .ok view) :
    surroundingText s startPos endPos = view := by
  unfold surroundingText
  simp only [h]
  rfl

/-- **Where the window starts.** -/
theorem surroundingText_pos (s : StdString) (startPos endPos : UInt64) :
    ((surroundingText s startPos endPos).pos : ℤ) = (prevWordPos s startPos).toInt + 1 := by
  obtain ⟨view, hview, -, hpos, -⟩ := getSurroundingText_window s startPos endPos
  rw [surroundingText_eq hview, hpos]
  exact toNat_wordStart_eq s startPos

theorem surroundingText_source (s : StdString) (startPos endPos : UInt64) :
    (surroundingText s startPos endPos).source = s := by
  obtain ⟨view, hview, hsource, -, -⟩ := getSurroundingText_window s startPos endPos
  rw [surroundingText_eq hview, hsource]

/-- The minimum with the length of the string, read as a `size_t`: a negative length is huge. -/
theorem toNat_length (x : Int64) :
    ((min x s.size.toInt64).toUInt64.toNat : ℤ) =
      if x.toInt < 0 then x.toInt + 2 ^ 64 else min x.toInt s.bytes.length := by
  have hs := s.size_lt
  have hsize : s.size.toInt64.toInt = s.bytes.length := by
    rw [toInt_toInt64, StdString.toNat_size]
    exact Int.bmod_eq_of_le (by omega) (by omega)
  have hmin : (min x s.size.toInt64).toInt = min x.toInt s.bytes.length := by
    show (if x ≤ s.size.toInt64 then x else s.size.toInt64).toInt = _
    split
    · rename_i hle
      rw [Int64.le_iff_toInt_le, hsize] at hle
      omega
    · rename_i hle
      rw [Int64.le_iff_toInt_le, hsize] at hle
      omega
  have h := toNat_toUInt64 (min x s.size.toInt64)
  rw [hmin] at h
  have hlo := x.le_toInt
  have hhi := x.toInt_lt
  split <;> omega

/-- **Where the window ends**: at the space found after the match, and at the end of the string
if there is none or it is before the start of the window. -/
theorem surroundingText_end (s : StdString) (startPos endPos : UInt64) :
    ((surroundingText s startPos endPos).pos : ℤ) +
      (surroundingText s startPos endPos).len =
    if (prevWordPos s startPos).toInt + 1 ≤ (nextWordPos s endPos).toInt then
      (nextWordPos s endPos).toInt
    else s.bytes.length := by
  obtain ⟨view, hview, -, hpos, hlen⟩ := getSurroundingText_window s startPos endPos
  obtain ⟨hlo, hhi⟩ := prevWordPos_bounds s startPos
  obtain ⟨hlo', hhi'⟩ := nextWordPos_bounds s endPos
  have hs := s.size_lt
  have hw := toNat_wordStart_eq s startPos
  have hw' := toInt_wordStart s startPos
  have hsub := toInt_sub_wordStart s startPos endPos
  have hn := toNat_length (s := s) (nextWordPos s endPos - wordStart s startPos)
  rw [surroundingText_eq hview, hlen, hpos]
  split at hn <;> split <;> omega

/-! ## Nothing goes out of range -/

theorem addSigned_ok {x y : Int64} (hlo : -2 ^ 63 ≤ x.toInt + y.toInt)
    (hhi : x.toInt + y.toInt < 2 ^ 63) : addSigned x y = .ok (x + y) := by
  have h : (x + y).toInt = x.toInt + y.toInt := by
    rw [Int64.toInt_add]
    exact Int.bmod_eq_of_le (by omega) (by omega)
  rw [addSigned, if_pos h]

theorem subSigned_ok {x y : Int64} (hlo : -2 ^ 63 ≤ x.toInt - y.toInt)
    (hhi : x.toInt - y.toInt < 2 ^ 63) : subSigned x y = .ok (x - y) := by
  have h : (x - y).toInt = x.toInt - y.toInt := by
    rw [Int64.toInt_sub]
    exact Int.bmod_eq_of_le (by omega) (by omega)
  rw [subSigned, if_pos h]

/-- The backward searches overflow nothing: the position decremented is at least `-1`. -/
theorem prevWordPosChecked_eq : prevWordPosChecked s startPos = .ok (prevWordPos s startPos) := by
  unfold prevWordPosChecked
  unfold prevWordPos
  split
  · obtain ⟨hlo, hhi⟩ := posValue_lastUpto (s := s) space (startPos - 1).toNat
    have hs := s.size_lt
    have hone : (1 : Int64).toInt = 1 := by decide
    have hok : subSigned (s.rfindChar space (startPos - 1)).toInt64 1 =
        .ok ((s.rfindChar space (startPos - 1)).toInt64 - 1) := by
      refine subSigned_ok ?_ ?_ <;> rw [toInt_rfindChar] <;> omega
    simp only [hok]
    rfl
  · rfl

/-- With a window that starts and ends in range, the checked function is the other one. -/
theorem getSurroundingTextChecked_eq {view : StringView}
    (hadd : addSigned (prevWordPos s startPos) 1 = .ok (prevWordPos s startPos + 1))
    (hsub : subSigned (nextWordPos s endPos) (wordStart s startPos) =
      .ok (nextWordPos s endPos - wordStart s startPos))
    (hview : getSurroundingText s startPos endPos = .ok view) :
    getSurroundingTextChecked s startPos endPos = .ok view := by
  rw [getSurroundingText_eq] at hview
  unfold getSurroundingTextChecked
  rw [prevWordPosChecked_eq]
  show (addSigned (prevWordPos s startPos) 1 >>= fun after =>
    subSigned (nextWordPos s endPos) (max 0 after) >>= _) = _
  rw [hadd]
  show (subSigned (nextWordPos s endPos) (wordStart s startPos) >>= _) = _
  rw [hsub]
  simp only [bind, Except.bind]
  unfold wordStart at *
  rw [hview]

/-- **`get_surrounding_text` is safe** for all arguments: no signed operation overflows, the
position given to `substr` is inside the string, and the result is a window of the string. -/
theorem getSurroundingText_safe (s : StdString) (startPos endPos : UInt64) :
    (wordStart s startPos).toUInt64.toNat ≤ s.bytes.length ∧
      ∃ view, getSurroundingTextChecked s startPos endPos = .ok view ∧
        getSurroundingText s startPos endPos = .ok view ∧ view.source = s ∧
        view.pos = (wordStart s startPos).toUInt64.toNat ∧
        view.pos + view.len ≤ s.bytes.length := by
  obtain ⟨view, hview, hsource, hpos, hlen⟩ := getSurroundingText_window s startPos endPos
  obtain ⟨hlo, hhi⟩ := prevWordPos_bounds s startPos
  obtain ⟨hlo', hhi'⟩ := nextWordPos_bounds s endPos
  have hs := s.size_lt
  have hw := toNat_wordStart_eq s startPos
  have hw' := toInt_wordStart s startPos
  have hfits : view.pos + view.len ≤ s.bytes.length := by
    rw [← hsource]
    exact view.fits
  refine ⟨by omega, view, ?_, hview, hsource, hpos, hfits⟩
  -- each signed operation is the mathematical one
  have hone : (1 : Int64).toInt = 1 := by decide
  have hadd : addSigned (prevWordPos s startPos) 1 = .ok (prevWordPos s startPos + 1) :=
    addSigned_ok (by omega) (by omega)
  have hsub : subSigned (nextWordPos s endPos) (wordStart s startPos) =
      .ok (nextWordPos s endPos - wordStart s startPos) :=
    subSigned_ok (by omega) (by omega)
  exact getSurroundingTextChecked_eq hadd hsub hview

/-! ## Whether the match is shown -/

/-- **The window holds the match** `[startPos, endPos)`, and both its ends are word boundaries: an
end of the line, or a space. -/
structure ShowsMatch (line : StdString) (startPos endPos : UInt64) : Prop where
  source : (surroundingText line startPos endPos).source = line
  before : (surroundingText line startPos endPos).pos ≤ startPos.toNat
  after : endPos.toNat ≤
    (surroundingText line startPos endPos).pos + (surroundingText line startPos endPos).len
  left : (surroundingText line startPos endPos).pos = 0 ∨
    line.bytes[(surroundingText line startPos endPos).pos - 1]? = some space
  right : (surroundingText line startPos endPos).pos +
      (surroundingText line startPos endPos).len = line.bytes.length ∨
    line.bytes[(surroundingText line startPos endPos).pos +
      (surroundingText line startPos endPos).len]? = some space

/-- A backward search for a space: none up to `n`, or the last one. -/
theorem lastSpace (s : StdString) (n : ℕ) :
    posValue (lastUpto [space] s.bytes n) = -1 ∧ (∀ p, p ≤ n → s.bytes[p]? ≠ some space) ∨
    ∃ p : ℕ, posValue (lastUpto [space] s.bytes n) = p ∧ p ≤ n ∧ s.bytes[p]? = some space ∧
      ∀ p', p < p' → p' ≤ n → s.bytes[p']? ≠ some space := by
  cases h : lastUpto [space] s.bytes n with
  | none =>
    left
    refine ⟨rfl, ?_⟩
    intro p hp
    rw [Ne, ← at_singleton]
    exact lastUpto_eq_none.1 h p hp
  | some p =>
    right
    obtain ⟨hp, hat, hmax⟩ := lastUpto_eq_some.1 h
    refine ⟨p, rfl, hp, at_singleton.1 hat, ?_⟩
    intro p' hlt hle
    rw [Ne, ← at_singleton]
    exact hmax p' hlt hle

/-- The forward search ends at a space after the match, or finds none. -/
theorem nextWordPos_cases (hend : endPos.toNat ≤ s.bytes.length) :
    (nextWordPos s endPos).toInt = -1 ∨
      ∃ p : ℕ, (nextWordPos s endPos).toInt = p ∧ endPos.toNat < p ∧ s.bytes[p]? = some space := by
  unfold nextWordPos
  split
  · rename_i hlt
    -- the search starts inside the string, so its start does not wrap
    have hs := s.size_lt
    have hadd : (endPos + 1).toNat = endPos.toNat + 1 := toNat_add_one (k := 0) (by omega)
    rw [toInt_findChar, hadd]
    cases h : firstFrom [space] s.bytes (endPos.toNat + 1) with
    | none => exact .inl rfl
    | some p =>
      obtain ⟨hle, hat, -⟩ := firstFrom_eq_some.1 h
      exact .inr ⟨p, rfl, hle, at_singleton.1 hat⟩
  · exact .inl (by decide)

/-- **A window that starts at a word boundary before the match shows it.** -/
theorem showsMatch_of_start (hle : startPos.toNat ≤ endPos.toNat)
    (hend : endPos.toNat ≤ s.bytes.length)
    (hstart : (prevWordPos s startPos).toInt + 1 ≤ startPos.toNat)
    (hleft : (prevWordPos s startPos).toInt = -1 ∨
      ∃ p : ℕ, (prevWordPos s startPos).toInt = p ∧ s.bytes[p]? = some space) :
    ShowsMatch s startPos endPos := by
  have hpos := surroundingText_pos s startPos endPos
  have hwend := surroundingText_end s startPos endPos
  have hnext := nextWordPos_cases hend
  refine ⟨surroundingText_source s startPos endPos, by omega, ?_, ?_, ?_⟩
  · split at hwend <;> omega
  · rcases hleft with h | ⟨p, hp, hsp⟩
    · exact .inl (by omega)
    · right
      rwa [show (surroundingText s startPos endPos).pos - 1 = p by omega]
  · rcases hnext with h | ⟨p, hp, hlt, hsp⟩
    · left
      rw [if_neg (by omega)] at hwend
      omega
    · right
      rw [if_pos (by omega)] at hwend
      rwa [show (surroundingText s startPos endPos).pos +
        (surroundingText s startPos endPos).len = p by omega]

/-- The two backward searches, for a match that does not start the line. -/
theorem prevWordPos_pos (h : 0 < startPos.toNat) :
    ∃ first : ℤ, first = posValue (lastUpto [space] s.bytes (startPos.toNat - 1)) ∧
      (prevWordPos s startPos).toInt =
        posValue (lastUpto [space] s.bytes ((first - 1) % 2 ^ 64).toNat) := by
  refine ⟨_, rfl, ?_⟩
  have hs := s.size_lt
  obtain ⟨hlo, hhi⟩ := posValue_lastUpto (s := s) space (startPos.toNat - 1)
  have hpos : startPos > 0 := by
    rw [gt_iff_lt, UInt64.lt_iff_toNat_lt]
    exact h
  have hsub : (startPos - 1).toNat = startPos.toNat - 1 := by
    rw [UInt64.toNat_sub_of_le _ _ (by rw [UInt64.le_iff_toNat_le]; exact h)]
    rfl
  -- the second search starts at the `size_t` of the decremented position
  have hfirst := toInt_rfindChar (s := s) space (startPos - 1)
  rw [hsub] at hfirst
  have hdec : ((s.rfindChar space (startPos - 1)).toInt64 - 1).toInt =
      posValue (lastUpto [space] s.bytes (startPos.toNat - 1)) - 1 := by
    rw [Int64.toInt_sub, hfirst]
    exact Int.bmod_eq_of_le (by simp; omega) (by simp; omega)
  have hnat := toNat_toUInt64 ((s.rfindChar space (startPos - 1)).toInt64 - 1)
  rw [hdec] at hnat
  rw [prevWordPos, if_pos hpos]
  show (s.rfindChar space ((s.rfindChar space (startPos - 1)).toInt64 - 1).toUInt64).toInt64.toInt
    = _
  rw [toInt_rfindChar, ← hnat, Int.toNat_natCast]

/-- A match lies inside the line. -/
theorem findInString_bounds {line query : StdString} {start : UInt64}
    (h : (findInString line query start).1 ≠ npos) :
    (findInString line query start).1.toNat ≤ (findInString line query start).2.toNat ∧
      (findInString line query start).2.toNat ≤ line.bytes.length := by
  cases hf : firstFrom query.bytes line.bytes start.toNat with
  | none =>
    rw [findInString_none hf] at h
    exact absurd rfl h
  | some p =>
    have hle := (firstFrom_eq_some.1 hf).2.1.le
    have hs := line.size_lt
    rw [findInString_some hf]
    dsimp only
    rw [toNat_ofNat_lt (by omega), toNat_ofNat_lt (by omega)]
    omega

/-- **The second backward search** starts before the first space found, unless that is at index 0
or there is none: then its start wraps, and it is a search of the whole line. -/
theorem prevWordPos_cases (h : 0 < startPos.toNat) :
    (∃ p, 1 ≤ p ∧ p < startPos.toNat ∧ s.bytes[p]? = some space ∧
      (prevWordPos s startPos).toInt = posValue (lastUpto [space] s.bytes (p - 1))) ∨
    ((∀ p, 1 ≤ p → p < startPos.toNat → s.bytes[p]? ≠ some space) ∧
      ∃ n, s.bytes.length ≤ n ∧
        (prevWordPos s startPos).toInt = posValue (lastUpto [space] s.bytes n)) := by
  obtain ⟨first, hfirst, hprev⟩ := prevWordPos_pos (s := s) h
  have hs := s.size_lt
  rcases lastSpace s (startPos.toNat - 1) with ⟨hv, hnone⟩ | ⟨p, hv, hp, hsp, hmax⟩
  · right
    refine ⟨fun p _ hp => hnone p (by omega), _, ?_, hprev⟩
    omega
  · by_cases h0 : p = 0
    · right
      refine ⟨fun p' h1 hp' => hmax p' (by omega) (by omega), _, ?_, hprev⟩
      omega
    · left
      have hlt := (List.getElem?_eq_some_iff.1 hsp).1
      have hdec : ((first - 1) % 2 ^ 64).toNat = p - 1 := by omega
      rw [hdec] at hprev
      exact ⟨p, by omega, by omega, hsp, hprev⟩

/-- **The window around a match holds it exactly if** the match starts the line, a space that is
not the first character stands before it, or no space stands in it or after it. -/
theorem showsMatch_iff {line query : StdString} {start : UInt64}
    (hfound : (findInString line query start).1 ≠ npos) :
    ShowsMatch line (findInString line query start).1 (findInString line query start).2 ↔
      (findInString line query start).1 = 0 ∨
      (∃ p, 1 ≤ p ∧ p < (findInString line query start).1.toNat ∧
        line.bytes[p]? = some space) ∨
      ∀ p, (findInString line query start).1.toNat ≤ p → line.bytes[p]? ≠ some space := by
  obtain ⟨hle, hend⟩ := findInString_bounds hfound
  generalize (findInString line query start).1 = startPos at *
  generalize (findInString line query start).2 = endPos at *
  have hs := line.size_lt
  by_cases h0 : startPos = 0
  · -- no backward search
    subst h0
    have hprev : (prevWordPos line 0).toInt = -1 := by
      rw [prevWordPos, if_neg (by decide)]
      decide
    refine iff_of_true (showsMatch_of_start hle hend ?_ (.inl hprev)) (.inl rfl)
    rw [hprev]
    decide
  · have hpos : 0 < startPos.toNat := by
      have : startPos.toNat ≠ 0 := fun h => h0 (UInt64.toNat_inj.1 h)
      omega
    rcases prevWordPos_cases (s := line) hpos with ⟨p, hp, hlt, hsp, hprev⟩ | ⟨hno, n, hn, hprev⟩
    · -- a search of what is before the first space
      refine iff_of_true (showsMatch_of_start hle hend ?_ ?_) (.inr (.inl ⟨p, hp, hlt, hsp⟩))
      · rcases lastSpace line (p - 1) with ⟨hv, -⟩ | ⟨p', hv, hle', -, -⟩ <;> omega
      · rcases lastSpace line (p - 1) with ⟨hv, -⟩ | ⟨p', hv, -, hsp', -⟩
        · exact .inl (hprev.trans hv)
        · exact .inr ⟨p', hprev.trans hv, hsp'⟩
    · -- a search of the whole line
      rcases lastSpace line n with ⟨hv, hnone⟩ | ⟨p, hv, -, hsp, hmax⟩
      · refine iff_of_true (showsMatch_of_start hle hend (by omega) (.inl (hprev.trans hv)))
          (.inr (.inr ?_))
        intro p _ hsp
        have hp := (List.getElem?_eq_some_iff.1 hsp).1
        exact hnone p (by omega) hsp
      · by_cases hlt : p < startPos.toNat
        · -- the last space of the line is its first character
          refine iff_of_true (showsMatch_of_start hle hend (by omega)
            (.inr ⟨p, hprev.trans hv, hsp⟩)) (.inr (.inr ?_))
          intro p' hp' hsp'
          have := (List.getElem?_eq_some_iff.1 hsp').1
          exact hmax p' (by omega) (by omega) hsp'
        · -- the window starts behind the last space, and that is not before the match
          refine iff_of_false ?_ ?_
          · intro hshow
            have hb := hshow.before
            have hw := surroundingText_pos line startPos endPos
            omega
          · rintro (h | ⟨p', h1, h2, hsp'⟩ | h)
            · exact h0 h
            · exact hno p' h1 h2 hsp'
            · exact h p (by omega) hsp

/-- The line `xab c`. -/
def spacedLine : StdString := ⟨[120, 97, 98, 32, 99], by decide⟩

/-- The query `ab`, which occurs in it at index 1. -/
def spacedQuery : StdString := ⟨[97, 98], by decide⟩

theorem showsMatch_iff_spaced :
    ShowsMatch spacedLine (findInString spacedLine spacedQuery 0).1
        (findInString spacedLine spacedQuery 0).2 ↔
      (findInString spacedLine spacedQuery 0).1 = 0 ∨
      (∃ p, 1 ≤ p ∧ p < (findInString spacedLine spacedQuery 0).1.toNat ∧
        spacedLine.bytes[p]? = some space) ∨
      ∀ p, (findInString spacedLine spacedQuery 0).1.toNat ≤ p →
        spacedLine.bytes[p]? ≠ some space :=
  showsMatch_iff (by decide +kernel)

/-- The window of the first match is the word `c` after it. -/
theorem spaced_not_shown :
    findInString spacedLine spacedQuery 0 = (1, 3) ∧
      (surroundingText spacedLine 1 3).pos = 4 ∧ (surroundingText spacedLine 1 3).len = 1 ∧
      ¬ ShowsMatch spacedLine 1 3 := by
  have hpos : (surroundingText spacedLine 1 3).pos = 4 := by decide +kernel
  refine ⟨by decide +kernel, hpos, by decide +kernel, ?_⟩
  intro h
  have hb := h.before
  rw [hpos] at hb
  exact absurd hb (by decide)

end TextHelper

end MTFind2
