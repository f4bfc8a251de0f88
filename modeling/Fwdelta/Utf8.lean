import Mathlib.Tactic.Common
import Mathlib.Order.Defs.LinearOrder

/-
Text as UTF-8 bytes, and bytes read one character each.

Text of 7-bit characters survives that reading; any other character comes back
as several, so that the text grows.
-/

namespace Utf8

def encode (cs : List Char) : List UInt8 :=
  cs.flatMap String.utf8EncodeChar

/-- A byte as a character, one for each of the 256 values. -/
def latin1 (b : UInt8) : Char :=
  Char.ofNat b.toNat

/-- The characters that the bytes of a text are, read one by one. -/
def reread (cs : List Char) : List Char :=
  (encode cs).map latin1

theorem toUTF8_toList (text : String) : text.toUTF8.data.toList = encode text.toList := by
  rw [String.toUTF8_eq_toByteArray, ← String.utf8Encode_toList, List.utf8Encode,
    List.toList_data_toByteArray, encode]

@[simp] theorem encode_append (front back : List Char) :
    encode (front ++ back) = encode front ++ encode back :=
  List.flatMap_append

theorem encode_cons (c : Char) (cs : List Char) :
    encode (c :: cs) = String.utf8EncodeChar c ++ encode cs :=
  List.flatMap_cons

/-! ### 7-bit characters -/

theorem encodeChar_of_lt {c : Char} (low : c.toNat < 128) :
    String.utf8EncodeChar c = [UInt8.ofNat c.toNat] := by
  unfold String.utf8EncodeChar
  exact if_pos (show c.toNat ≤ 0x7f by omega)

theorem encode_cons_of_lt {c : Char} (low : c.toNat < 128) (cs : List Char) :
    encode (c :: cs) = UInt8.ofNat c.toNat :: encode cs := by
  rw [encode_cons, encodeChar_of_lt low]
  rfl

theorem latin1_ofNat {c : Char} (low : c.toNat < 128) : latin1 (UInt8.ofNat c.toNat) = c := by
  have value : (UInt8.ofNat c.toNat).toNat = c.toNat := by
    rw [UInt8.toNat_ofNat']
    omega
  rw [latin1, value, Char.ofNat_toNat]

theorem toNat_ofNat {n : Nat} (small : n < 256) : (Char.ofNat n).toNat = n := by
  have valid : n.isValidChar := Or.inl (by omega)
  rw [Char.ofNat, dif_pos valid]
  rfl

theorem toNat_latin1 (b : UInt8) : (latin1 b).toNat = b.toNat :=
  toNat_ofNat b.toNat_lt

theorem ofNat_toNat_latin1 (b : UInt8) : UInt8.ofNat (latin1 b).toNat = b := by
  rw [toNat_latin1]
  exact UInt8.ofNat_toNat

/-! ### Other characters -/

/-- Every byte of another character has its high bit set. -/
theorem le_of_mem_encodeChar {c : Char} (high : ¬ c.toNat < 128) {b : UInt8}
    (member : b ∈ String.utf8EncodeChar c) : 128 ≤ b.toNat := by
  have notLow : ¬ c.val.toNat ≤ 0x7f := by
    have same : c.val.toNat = c.toNat := rfl
    omega
  unfold String.utf8EncodeChar at member
  simp only [notLow, if_false] at member
  split at member
  · simp only [List.mem_cons, List.not_mem_nil, or_false] at member
    rcases member with rfl | rfl <;> rw [UInt8.toNat_ofNat'] <;> omega
  · split at member
    · simp only [List.mem_cons, List.not_mem_nil, or_false] at member
      rcases member with rfl | rfl | rfl <;> rw [UInt8.toNat_ofNat'] <;> omega
    · simp only [List.mem_cons, List.not_mem_nil, or_false] at member
      rcases member with rfl | rfl | rfl | rfl <;> rw [UInt8.toNat_ofNat'] <;> omega

theorem length_encodeChar_pos (c : Char) : 0 < (String.utf8EncodeChar c).length :=
  List.length_pos_iff.mpr String.utf8EncodeChar_ne_nil

theorem one_lt_length_encodeChar {c : Char} (high : ¬ c.toNat < 128) :
    1 < (String.utf8EncodeChar c).length := by
  have notLow : ¬ c.val.toNat ≤ 0x7f := by
    have same : c.val.toNat = c.toNat := rfl
    omega
  unfold String.utf8EncodeChar
  simp only [notLow, if_false]
  split
  · simp
  · split <;> simp

theorem count_encodeChar {n : Nat} (low : n < 128) (c : Char) :
    (String.utf8EncodeChar c).count (UInt8.ofNat n) = [c].count (Char.ofNat n) := by
  have value : (UInt8.ofNat n).toNat = n := by
    rw [UInt8.toNat_ofNat']
    omega
  have code : (Char.ofNat n).toNat = n := toNat_ofNat (by omega)
  by_cases small : c.toNat < 128
  · rw [encodeChar_of_lt small]
    by_cases same : c.toNat = n
    · have char : c = Char.ofNat n := by rw [← same, Char.ofNat_toNat]
      rw [char, code, List.count_singleton_self, List.count_singleton_self]
    · rw [List.count_eq_zero_of_not_mem, List.count_eq_zero_of_not_mem]
      · intro member
        exact same (by rw [← List.mem_singleton.mp member, code])
      · intro member
        have byte := congrArg UInt8.toNat (List.mem_singleton.mp member)
        rw [value, UInt8.toNat_ofNat'] at byte
        omega
  · rw [List.count_eq_zero_of_not_mem, List.count_eq_zero_of_not_mem]
    · intro member
      rw [← List.mem_singleton.mp member] at small
      omega
    · intro member
      have bound := le_of_mem_encodeChar small member
      omega

/-- A 7-bit value stands among the bytes as often as its character in the text. -/
theorem count_encode {n : Nat} (low : n < 128) (cs : List Char) :
    (encode cs).count (UInt8.ofNat n) = cs.count (Char.ofNat n) := by
  induction cs with
  | nil => rfl
  | cons c rest ih =>
      rw [encode_cons, List.count_append, count_encodeChar low, ih, ← List.count_append,
        List.singleton_append]

theorem mem_encode_iff {n : Nat} (low : n < 128) (cs : List Char) :
    UInt8.ofNat n ∈ encode cs ↔ Char.ofNat n ∈ cs := by
  rw [← List.count_pos_iff, count_encode low, List.count_pos_iff]

/-! ### Reading the bytes back -/

theorem length_reread (cs : List Char) : (reread cs).length = (encode cs).length := by
  rw [reread, List.length_map]

/-- A 7-bit character is read back exactly where it stands. -/
theorem mem_reread_iff {n : Nat} (low : n < 128) (cs : List Char) :
    Char.ofNat n ∈ reread cs ↔ Char.ofNat n ∈ cs := by
  rw [← mem_encode_iff low cs, reread, List.mem_map]
  constructor
  · intro found
    obtain ⟨b, member, same⟩ := found
    have value := congrArg Char.toNat same
    rw [toNat_latin1, toNat_ofNat (by omega)] at value
    rwa [← value, UInt8.ofNat_toNat]
  · intro member
    refine ⟨_, member, ?_⟩
    rw [latin1, UInt8.toNat_ofNat', Nat.mod_eq_of_lt (by omega)]

theorem reread_cons_of_lt {c : Char} (low : c.toNat < 128) (cs : List Char) :
    reread (c :: cs) = c :: reread cs := by
  rw [reread, encode_cons_of_lt low, List.map_cons, latin1_ofNat low, reread]

theorem reread_of_all {cs : List Char} (low : ∀ c ∈ cs, c.toNat < 128) : reread cs = cs := by
  induction cs with
  | nil => rfl
  | cons c rest ih =>
      rw [reread_cons_of_lt (low c (by simp)), ih (fun d member => low d (by simp [member]))]

theorem length_le_length_reread (cs : List Char) : cs.length ≤ (reread cs).length := by
  rw [length_reread]
  induction cs with
  | nil => exact Nat.le_refl _
  | cons c rest ih =>
      have positive := length_encodeChar_pos c
      rw [encode_cons, List.length_append, List.length_cons]
      omega

/-- Text of the same length as its bytes has 7-bit characters only. -/
theorem all_of_length_reread {cs : List Char} (same : (reread cs).length = cs.length) :
    ∀ c ∈ cs, c.toNat < 128 := by
  induction cs with
  | nil => simp
  | cons c rest ih =>
      have positive := length_encodeChar_pos c
      have grows := length_le_length_reread rest
      rw [length_reread, encode_cons, List.length_append, List.length_cons,
        ← length_reread] at same
      intro d member
      rcases List.mem_cons.mp member with rfl | later
      · by_contra high
        have wide := one_lt_length_encodeChar high
        omega
      · exact ih (by omega) d later

end Utf8
