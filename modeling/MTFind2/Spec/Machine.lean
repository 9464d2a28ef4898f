import MTFind2.Lib.Occurrence
import Mathlib.Tactic.Ring

/-!
# Machine integers and strings

The C++ types the program computes with: `size_t` is `UInt64`, `ssize_t` is
`Int64`, `int` and `int32_t` are `Int32`, `unsigned int` is `UInt32`. The implicit
conversions between `int` and `size_t` are `toSize` (sign extension) and
`toInt` (truncation).

A `std::string` is a list of bytes shorter than `2 ^ 63` (`StdString`), a
`std::string_view` a window of one (`StringView`).
-/

namespace MTFind2

/-- `int` to `size_t`: sign extension. -/
def toSize (i : Int32) : UInt64 := i.toInt64.toUInt64

/-- `size_t` to `int`: truncation. -/
def toInt (u : UInt64) : Int32 := u.toInt64.toInt32

/-- `std::string::npos`. -/
def npos : UInt64 := 0xFFFFFFFFFFFFFFFF

theorem toInt_toInt64 (u : UInt64) : u.toInt64.toInt = (u.toNat : ℤ).bmod (2 ^ 64) := by
  show u.toBitVec.toInt = _
  rw [BitVec.toInt_eq_toNat_bmod]
  rfl

theorem toNat_toUInt64 (i : Int64) : (i.toUInt64.toNat : ℤ) = i.toInt % 2 ^ 64 := by
  show (i.toUInt64.toBitVec.toNat : ℤ) = i.toUInt64.toBitVec.toInt % 2 ^ 64
  rw [BitVec.toInt_eq_toNat_bmod]
  have hb : (i.toUInt64.toBitVec.toNat : ℤ).bmod (2 ^ 64) % 2 ^ 64 =
      i.toUInt64.toBitVec.toNat % 2 ^ 64 :=
    Int.bmod_emod
  have hlt := i.toUInt64.toBitVec.isLt
  omega

theorem toNat_toSize (i : Int32) : ((toSize i).toNat : ℤ) = i.toInt % 2 ^ 64 := by
  rw [toSize, toNat_toUInt64, Int32.toInt_toInt64]

theorem toInt_toInt (u : UInt64) : (toInt u).toInt = (u.toNat : ℤ).bmod (2 ^ 32) := by
  rw [toInt, Int64.toInt_toInt32, toInt_toInt64]
  exact Int.bmod_bmod_of_dvd (by norm_num)

/-- A position below `2 ^ 31` survives its storage in an `int`. -/
theorem toSize_toInt {u : UInt64} (h : u.toNat < 2 ^ 31) : toSize (toInt u) = u := by
  apply UInt64.toNat_inj.1
  have h1 := toNat_toSize (toInt u)
  rw [toInt_toInt] at h1
  rw [Int.bmod_eq_of_le (by omega) (by omega)] at h1
  omega

/-- Below `2 ^ 63`, no other position does. -/
theorem toSize_toInt_iff {u : UInt64} (h : u.toNat < 2 ^ 63) :
    toSize (toInt u) = u ↔ u.toNat < 2 ^ 31 := by
  constructor
  · intro he
    -- the `int` is the position itself, and is less than `2 ^ 31`
    have h1 := toNat_toSize (toInt u)
    rw [he] at h1
    have hlo := (toInt u).le_toInt
    have hhi := (toInt u).toInt_lt
    omega
  · exact toSize_toInt

theorem toSize_toInt_npos : toSize (toInt npos) = npos := by decide

/-- What the `int` of a position is read as: `npos` exactly for the residue `2 ^ 32 - 1`. -/
theorem toSize_toInt_eq_npos (u : UInt64) :
    toSize (toInt u) = npos ↔ u.toNat % 2 ^ 32 = 2 ^ 32 - 1 := by
  have h1 := toNat_toSize (toInt u)
  rw [toInt_toInt] at h1
  have hn : npos.toNat = 2 ^ 64 - 1 := by decide
  rw [← UInt64.toNat_inj, hn]
  have hb : (u.toNat : ℤ).bmod (2 ^ 32) % 2 ^ 32 = u.toNat % 2 ^ 32 := Int.bmod_emod
  have hlo := Int.le_bmod (x := (u.toNat : ℤ)) (m := 2 ^ 32) (by norm_num)
  have hhi := Int.bmod_lt (x := (u.toNat : ℤ)) (m := 2 ^ 32) (by norm_num)
  set b := (u.toNat : ℤ).bmod (2 ^ 32)
  constructor
  · intro h
    omega
  · intro h
    have : b = -1 := by omega
    omega

/-- A number in range as a `size_t`. -/
theorem toNat_ofNat_lt {n : ℕ} (h : n < 2 ^ 64) : (UInt64.ofNat n).toNat = n :=
  UInt64.toNat_ofNat_of_lt' h

/-- The next number, when a larger one is in range. -/
theorem toNat_add_one {n : UInt64} {k : ℕ} (h : n.toNat + (k + 1) < 2 ^ 64) :
    (n + 1).toNat = n.toNat + 1 := by
  rw [UInt64.toNat_add]
  exact Nat.mod_eq_of_lt (by simp; omega)

/-- A `std::string`: its bytes, fewer than `max_size()`. -/
structure StdString where
  bytes : List UInt8
  size_lt : bytes.length < 2 ^ 63
deriving DecidableEq

/-- A `std::string_view` of `len` bytes of `source`, starting at byte `pos`. -/
structure StringView where
  source : StdString
  pos : ℕ
  len : ℕ
  fits : pos + len ≤ source.bytes.length
deriving DecidableEq

namespace StdString

theorem length_singleton_lt (c : UInt8) : [c].length < 2 ^ 63 := by
  rw [List.length_singleton]
  decide

/-- `std::string(1, c)`. -/
def singleton (c : UInt8) : StdString := ⟨[c], length_singleton_lt c⟩

variable (s needle : StdString)

/-- `s.size()`, which is `s.length()`. -/
def size : UInt64 := UInt64.ofNat s.bytes.length

@[simp] theorem toNat_size : s.size.toNat = s.bytes.length := by
  have := s.size_lt
  exact toNat_ofNat_lt (by omega)

/-- A search result as a `size_t`. -/
def ofPos : Option ℕ → UInt64
  | some p => UInt64.ofNat p
  | none => npos

/-- `s.find(needle, pos)`. -/
def find (pos : UInt64) : UInt64 := ofPos (Occurrence.firstFrom needle.bytes s.bytes pos.toNat)

/-- `s.find(c, pos)` for a character `c`. -/
def findChar (c : UInt8) (pos : UInt64) : UInt64 :=
  ofPos (Occurrence.firstFrom [c] s.bytes pos.toNat)

/-- `s.rfind(c, pos)` for a character `c`. -/
def rfindChar (c : UInt8) (pos : UInt64) : UInt64 :=
  ofPos (Occurrence.lastUpto [c] s.bytes pos.toNat)

variable {s needle}

theorem toNat_ofPos {o : Option ℕ} (h : ∀ p ∈ o, p < 2 ^ 63) :
    (ofPos o).toNat = o.getD (2 ^ 64 - 1) := by
  cases o with
  | none => decide
  | some p =>
    have := h p rfl
    exact toNat_ofNat_lt (by omega)

theorem firstFrom_lt {n p : ℕ} {q : List UInt8}
    (h : Occurrence.firstFrom q s.bytes n = some p) : p < 2 ^ 63 := by
  have := (Occurrence.firstFrom_eq_some.1 h).2.1.1
  have := s.size_lt
  omega

theorem find_eq_npos {pos : UInt64} :
    s.find needle pos = npos ↔ Occurrence.firstFrom needle.bytes s.bytes pos.toNat = none := by
  rw [find, ← UInt64.toNat_inj, toNat_ofPos fun p h => firstFrom_lt h]
  cases h : Occurrence.firstFrom needle.bytes s.bytes pos.toNat with
  | none => simp; decide
  | some p =>
    have := firstFrom_lt h
    have hn : npos.toNat = 2 ^ 64 - 1 := by decide
    simp only [Option.getD_some, reduceCtorEq, iff_false]
    omega

end StdString

/-- The exception `std::out_of_range`. -/
inductive OutOfRange
  | outOfRange
deriving DecidableEq

namespace StringView

/-- `std::string_view(s)`. -/
def ofString (s : StdString) : StringView := ⟨s, 0, s.bytes.length, by simp⟩

/-- `v.substr(pos, n)`: throws when `pos` is past the end. -/
def substr (v : StringView) (pos n : UInt64) : Except OutOfRange StringView :=
  if h : pos.toNat ≤ v.len then
    .ok ⟨v.source, v.pos + pos.toNat, min n.toNat (v.len - pos.toNat), by have := v.fits; omega⟩
  else
    .error .outOfRange

end StringView

end MTFind2
