import Mathlib.Data.Char
import Mathlib.Data.List.Lex
import Mathlib.Data.List.Infix

/-!
# Text in UTF-8

`encode` is the list of bytes of a text, `decode` the way back for bytes that are
well-formed.

* `decode_eq_some`: the texts that a list of bytes decodes to are those it encodes.
* `ascii_mem_encode`: a byte below 128 stands for its character, and for nothing else. So a
  separator such as the newline can be looked for in the bytes.
* `encode_lt`: the order of the code points is the order of the bytes.
-/

namespace Utf8

/-- The bytes of a text. -/
def encode (text : List Char) : List UInt8 := text.flatMap String.utf8EncodeChar

/-- The text of a list of bytes, if it is well-formed. -/
def decode (bytes : List UInt8) : Option (List Char) :=
  (String.fromUTF8? bytes.toByteArray).map String.toList

variable {c d : Char} {s t : List Char}

@[simp] theorem encode_nil : encode [] = [] := rfl

@[simp] theorem encode_cons : encode (c :: s) = String.utf8EncodeChar c ++ encode s := rfl

@[simp] theorem encode_append : encode (s ++ t) = encode s ++ encode t := List.flatMap_append

@[simp] theorem encode_eq_nil : encode s = [] ↔ s = [] := by
  cases s <;> simp

/-- A part of a text is a part of its bytes. -/
theorem encode_infix (h : s <:+: t) : encode s <:+: encode t := by
  obtain ⟨a, b, rfl⟩ := h
  exact ⟨encode a, encode b, by simp⟩

/-- The bytes of a character below 128. -/
theorem encodeChar_ascii (h : c.toNat < 128) :
    String.utf8EncodeChar c = [UInt8.ofNat c.toNat] := by
  have hle : c.val.toNat ≤ 127 := Nat.le_of_lt_succ h
  unfold String.utf8EncodeChar
  exact if_pos hle

/-- A byte below 128 is a character by itself. -/
theorem ascii_mem_encodeChar {b : UInt8} (hb : b.toNat < 128)
    (h : b ∈ String.utf8EncodeChar c) : c.toNat = b.toNat := by
  unfold String.utf8EncodeChar at h
  simp only at h
  have hc : c.toNat = c.val.toNat := rfl
  split at h
  · rw [List.mem_singleton] at h
    rw [h, hc, UInt8.toNat_ofNat']
    omega
  · exfalso
    split at h
    · simp only [List.mem_cons, List.not_mem_nil, or_false] at h
      rcases h with rfl | rfl <;> rw [UInt8.toNat_ofNat'] at hb <;> omega
    · split at h
      · simp only [List.mem_cons, List.not_mem_nil, or_false] at h
        rcases h with rfl | rfl | rfl <;> rw [UInt8.toNat_ofNat'] at hb <;> omega
      · simp only [List.mem_cons, List.not_mem_nil, or_false] at h
        rcases h with rfl | rfl | rfl | rfl <;> rw [UInt8.toNat_ofNat'] at hb <;> omega

/-- **A byte below 128 stands for its character.** -/
theorem ascii_mem_encode (hc : c.toNat < 128) : UInt8.ofNat c.toNat ∈ encode s ↔ c ∈ s := by
  have hb : (UInt8.ofNat c.toNat).toNat = c.toNat := by
    rw [UInt8.toNat_ofNat']
    omega
  unfold encode
  rw [List.mem_flatMap]
  constructor
  · rintro ⟨d, hd, hmem⟩
    have hdc : d.toNat = c.toNat := (ascii_mem_encodeChar (hb.trans_lt hc) hmem).trans hb
    rwa [← Char.toNat_inj.1 hdc]
  · intro h
    exact ⟨c, h, by simp [encodeChar_ascii hc]⟩

/-! ## Decoding -/

/-- A string's bytes are those of its characters. -/
theorem toByteArray_eq_encode (string : String) :
    string.toByteArray = (encode string.toList).toByteArray := by
  rw [← String.utf8Encode_toList]
  rfl

/-- **A list of bytes decodes to the text that it encodes.** -/
theorem decode_eq_some {bytes : List UInt8} : decode bytes = some s ↔ encode s = bytes := by
  have hdata : ∀ l m : List UInt8, l.toByteArray = m.toByteArray ↔ l = m := by
    intro l m
    constructor
    · intro h
      have hlist := congrArg (fun b => b.data.toList) h
      simpa using hlist
    · exact congrArg _
  unfold decode String.fromUTF8?
  constructor
  · intro h
    split at h
    · rename_i hvalid
      obtain ⟨string, hstring, rfl⟩ := Option.map_eq_some_iff.1 h
      have hbytes : string.toByteArray = bytes.toByteArray := by
        rw [← Option.some.inj hstring]
        rfl
      rwa [toByteArray_eq_encode, hdata] at hbytes
    · cases h
  · rintro rfl
    have hofList : (String.ofList s).toByteArray = (encode s).toByteArray := by
      rw [toByteArray_eq_encode, String.toList_ofList]
    have hvalid : (encode s).toByteArray.IsValidUTF8 := by
      rw [← hofList]
      exact (String.ofList s).isValidUTF8
    rw [dif_pos hvalid, Option.map_some]
    have hstring : String.fromUTF8 (encode s).toByteArray hvalid = String.ofList s := by
      rw [← String.toByteArray_inj, hofList]
      rfl
    rw [hstring, String.toList_ofList]

@[simp] theorem decode_encode : decode (encode s) = some s := decode_eq_some.2 rfl

/-! ## Order -/

theorem ofNat_cons_lt {x y : ℕ} (hx : x < 256) (hy : y < 256) {l m : List UInt8} :
    UInt8.ofNat x :: l < UInt8.ofNat y :: m ↔ x < y ∨ x = y ∧ l < m := by
  rw [List.cons_lt_cons_iff, UInt8.lt_iff_toNat_lt, ← UInt8.toNat_inj, UInt8.toNat_ofNat',
    UInt8.toNat_ofNat', Nat.mod_eq_of_lt hx, Nat.mod_eq_of_lt hy]

/-- The first digit in base 64 that differs is smaller. -/
theorem digits_lt {v w : ℕ} (h : v < w) :
    v / 262144 < w / 262144 ∨ v / 262144 = w / 262144 ∧ (v / 4096 % 64 < w / 4096 % 64 ∨
      v / 4096 % 64 = w / 4096 % 64 ∧ (v / 64 % 64 < w / 64 % 64 ∨
        v / 64 % 64 = w / 64 % 64 ∧ v % 64 < w % 64)) := by
  have hlast : ∀ {n m : ℕ}, n < m → n / 64 < m / 64 ∨ n / 64 = m / 64 ∧ n % 64 < m % 64 := by
    intro n m hnm
    omega
  have hdiv : ∀ n : ℕ, n / 4096 = n / 64 / 64 ∧ n / 262144 = n / 64 / 64 / 64 := by
    intro n
    simp only [Nat.div_div_eq_div_mul, and_self]
  rw [(hdiv v).1, (hdiv v).2, (hdiv w).1, (hdiv w).2]
  rcases hlast h with h₁ | ⟨h₁, h₀⟩
  · rcases hlast h₁ with h₂ | ⟨h₂, h₁⟩
    · rcases hlast h₂ with h₃ | ⟨h₃, h₂⟩
      · exact .inl h₃
      · exact .inr ⟨h₃, .inl h₂⟩
    · exact .inr ⟨by rw [h₂], .inr ⟨by rw [h₂], .inl h₁⟩⟩
  · exact .inr ⟨by rw [h₁], .inr ⟨by rw [h₁], .inr ⟨by rw [h₁], h₀⟩⟩⟩

/-- The bytes of a smaller character come first, whatever follows. -/
theorem encodeChar_lt (h : c < d) (l m : List UInt8) :
    String.utf8EncodeChar c ++ l < String.utf8EncodeChar d ++ m := by
  have hlt : c.val.toNat < d.val.toNat := h
  have hd : d.val.toNat < 1114112 := by
    have hvalid : d.val.toNat < 55296 ∨ 57343 < d.val.toNat ∧ d.val.toNat < 1114112 := d.valid
    omega
  unfold String.utf8EncodeChar
  simp only
  generalize c.val.toNat = v at hlt
  generalize d.val.toNat = w at hlt hd
  have hdigits := digits_lt hlt
  have hv₈ : v / 262144 % 8 = v / 262144 := Nat.mod_eq_of_lt (by omega)
  have hw₈ : w / 262144 % 8 = w / 262144 := Nat.mod_eq_of_lt (by omega)
  split_ifs <;> simp (disch := omega) only [List.cons_append, List.nil_append, ofNat_cons_lt] <;>
    omega

/-- **The order of the code points is the order of the bytes.** -/
theorem encode_lt (h : s < t) : encode s < encode t := by
  induction s generalizing t with
  | nil =>
    cases t with
    | nil => exact absurd h (lt_irrefl _)
    | cons d t =>
      have hne : encode (d :: t) ≠ [] := by simp
      cases henc : encode (d :: t) with
      | nil => exact absurd henc hne
      | cons b bytes => exact List.nil_lt_cons b bytes
  | cons c s ih =>
    cases t with
    | nil => exact absurd h (List.not_lt_nil _)
    | cons d t =>
      rcases List.cons_lt_cons_iff.1 h with hlt | ⟨rfl, hlt⟩
      · exact encodeChar_lt hlt _ _
      · rw [encode_cons, encode_cons]
        exact List.append_left_lt (ih hlt)

end Utf8
