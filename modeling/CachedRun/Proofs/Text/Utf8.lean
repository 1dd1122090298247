import CachedRun.Text.Utf8

/-!
# Bytes of characters — what a search by bytes finds

Programs look for marks in the bytes of a text, and what they find is meant as a place between
characters. That goes well for characters of one byte, because **a byte below 128 is a character,
and is part of no other one** (`eq_of_toUInt8_mem`). So a mark of such characters begins the bytes
of a text exactly if it begins the text (`encode_prefix_iff`).
-/

set_option autoImplicit false

namespace CachedRun.Text

/-- A character of one byte. -/
def IsAscii (c : Char) : Prop := c.toNat < 128

instance (c : Char) : Decidable (IsAscii c) := inferInstanceAs (Decidable (c.toNat < 128))

variable {a c : Char} {s t : List Char}

theorem length_bytes (s : String) : (bytes s).length = s.utf8ByteSize := rfl

theorem bytes_ofList (s : List Char) :
    bytes (String.ofList s) = s.flatMap String.utf8EncodeChar := by
  rw [bytes, String.toUTF8_eq_toByteArray, String.toByteArray_ofList, List.utf8Encode]
  exact List.toList_data_toByteArray

theorem utf8Size_eq_one_iff : c.utf8Size = 1 ↔ IsAscii c := by
  rw [Char.utf8Size_eq_one_iff, UInt32.le_iff_toNat_le]
  change c.toNat ≤ 127 ↔ c.toNat < 128
  omega

theorem encode_of_isAscii (h : IsAscii c) : String.utf8EncodeChar c = [c.toUInt8] := by
  rw [String.utf8EncodeChar_eq_singleton (utf8Size_eq_one_iff.mpr h), Char.toUInt8_val]

/-- Other characters have no byte of that kind. -/
theorem le_of_mem_encode (h : ¬ IsAscii c) {b : UInt8} (hb : b ∈ String.utf8EncodeChar c) :
    128 ≤ b.toNat := by
  rw [← utf8Size_eq_one_iff] at h
  have hor (x m : UInt8) (hm : 128 ≤ m.toNat) : 128 ≤ (x ||| m).toNat := by
    rw [UInt8.toNat_or]
    exact Nat.le_trans hm Nat.right_le_or
  rcases Char.utf8Size_eq c with hsize | hsize | hsize | hsize
  · exact absurd hsize h
  · rw [String.utf8EncodeChar_eq_cons_cons hsize] at hb
    simp only [List.mem_cons, List.not_mem_nil, or_false] at hb
    rcases hb with rfl | rfl <;> exact hor _ _ (by decide)
  · rw [String.utf8EncodeChar_eq_cons_cons_cons hsize] at hb
    simp only [List.mem_cons, List.not_mem_nil, or_false] at hb
    rcases hb with rfl | rfl | rfl <;> exact hor _ _ (by decide)
  · rw [String.utf8EncodeChar_eq_cons_cons_cons_cons hsize] at hb
    simp only [List.mem_cons, List.not_mem_nil, or_false] at hb
    rcases hb with rfl | rfl | rfl | rfl <;> exact hor _ _ (by decide)

theorem toNat_toUInt8 (h : IsAscii a) : a.toUInt8.toNat = a.toNat := by
  rw [Char.toUInt8, UInt32.toNat_toUInt8]
  exact Nat.mod_eq_of_lt (Nat.lt_trans h (by decide))

/-- **A byte of a character of one byte is that character.** -/
theorem eq_of_toUInt8_mem (ha : IsAscii a) (h : a.toUInt8 ∈ String.utf8EncodeChar c) : c = a := by
  by_cases hc : IsAscii c
  · rw [encode_of_isAscii hc, List.mem_singleton] at h
    apply Char.toNat_inj.mp
    rw [← toNat_toUInt8 hc, ← toNat_toUInt8 ha, h]
  · have hle := le_of_mem_encode hc h
    rw [toNat_toUInt8 ha] at hle
    exact absurd ha (Nat.not_lt.mpr hle)

/-- **A mark is found by its bytes where it is**, if each of its characters has one byte. -/
theorem encode_prefix_iff {mark : List Char} (h : ∀ a ∈ mark, IsAscii a) :
    mark.flatMap String.utf8EncodeChar <+: s.flatMap String.utf8EncodeChar ↔ mark <+: s := by
  induction mark generalizing s with
  | nil => simp
  | cons a mark ih =>
    rw [List.forall_mem_cons] at h
    rw [List.flatMap_cons, encode_of_isAscii h.1, List.singleton_append]
    cases s with
    | nil => simp
    | cons c s =>
      rw [List.flatMap_cons]
      constructor
      · intro hprefix
        obtain ⟨b, tail, hb⟩ := List.exists_cons_of_ne_nil (String.utf8EncodeChar_ne_nil (c := c))
        rw [hb, List.cons_append, List.cons_prefix_cons] at hprefix
        -- The first byte is one of a character of one byte, which no longer character has.
        have hmem : a.toUInt8 ∈ String.utf8EncodeChar c := by
          rw [hb, hprefix.1]
          exact List.mem_cons_self ..
        have hca := eq_of_toUInt8_mem h.1 hmem
        rw [hca, encode_of_isAscii h.1, List.cons.injEq] at hb
        rw [← hb.2, List.nil_append, ih h.2] at hprefix
        rw [hca, List.cons_prefix_cons]
        exact ⟨rfl, hprefix.2⟩
      · intro hprefix
        rw [List.cons_prefix_cons] at hprefix
        rw [← hprefix.1, encode_of_isAscii h.1, List.singleton_append, List.cons_prefix_cons,
          ih h.2]
        exact ⟨rfl, hprefix.2⟩

end CachedRun.Text
