import ErbTemplate.Memory.TextBuffer

/-!
# The bytes of a text

An offset is an index into the UTF-8 form of a text, so statements about offsets are statements
about `Text.toBytes`. Three facts about it carry them: it has `byteLength` many bytes, it can be
read back (`ofBytes?_toBytes`), and **a byte below 128 is an ASCII character**
(`eq_of_mem_utf8EncodeChar`), so that a newline or a semicolon among the bytes of a text is one
among its characters.
-/

set_option autoImplicit false

namespace ErbTemplate
namespace Text

@[simp] theorem toBytes_nil : toBytes [] = [] := rfl

@[simp] theorem toBytes_cons (c : Char) (text : List Char) :
    toBytes (c :: text) = String.utf8EncodeChar c ++ toBytes text := rfl

@[simp] theorem toBytes_append (front back : List Char) :
    toBytes (front ++ back) = toBytes front ++ toBytes back := by
  simp [toBytes]

@[simp] theorem length_toBytes (text : List Char) : (toBytes text).length = byteLength text := by
  induction text with
  | nil => rfl
  | cons c text ih => rw [toBytes_cons, List.length_append, ih, String.length_utf8EncodeChar]; rfl

/-- The bytes of a text spell it. -/
theorem ofBytes?_toBytes (text : List Char) :
    ofBytes? (toBytes text) = some (String.ofList text) := by
  have hvalid : (toBytes text).toByteArray.IsValidUTF8 := ⟨text, rfl⟩
  rw [ofBytes?, String.fromUTF8?, dif_pos hvalid]
  rfl

theorem utf8EncodeChar_of_ascii {c : Char} (hc : c.toNat ≤ 127) :
    String.utf8EncodeChar c = [UInt8.ofNat c.toNat] := by
  unfold String.utf8EncodeChar
  exact if_pos hc

/-- Every byte of a character with a longer form is 128 or more. -/
theorem le_toNat_of_mem_utf8EncodeChar {c : Char} {byte : UInt8} (hc : 127 < c.toNat)
    (h : byte ∈ String.utf8EncodeChar c) : 128 ≤ byte.toNat := by
  have hlong : ¬ c.val.toNat ≤ 127 := Nat.not_le.2 hc
  unfold String.utf8EncodeChar at h
  simp only [hlong, if_false] at h
  split at h
  · simp only [List.mem_cons, List.not_mem_nil, or_false] at h
    rcases h with rfl | rfl <;> rw [UInt8.toNat_ofNat'] <;> omega
  · split at h
    · simp only [List.mem_cons, List.not_mem_nil, or_false] at h
      rcases h with rfl | rfl | rfl <;> rw [UInt8.toNat_ofNat'] <;> omega
    · simp only [List.mem_cons, List.not_mem_nil, or_false] at h
      rcases h with rfl | rfl | rfl | rfl <;> rw [UInt8.toNat_ofNat'] <;> omega

/-- **A byte below 128 is an ASCII character, and part of no other.** -/
theorem eq_of_mem_utf8EncodeChar {c d : Char} (hd : d.toNat ≤ 127)
    (h : UInt8.ofNat d.toNat ∈ String.utf8EncodeChar c) : c = d := by
  by_cases hc : c.toNat ≤ 127
  · rw [utf8EncodeChar_of_ascii hc, List.mem_singleton] at h
    have hcode := congrArg UInt8.toNat h
    rw [UInt8.toNat_ofNat', UInt8.toNat_ofNat'] at hcode
    exact Char.toNat_inj.1 (by omega)
  · have hbyte := le_toNat_of_mem_utf8EncodeChar (Nat.lt_of_not_le hc) h
    rw [UInt8.toNat_ofNat'] at hbyte
    omega

/-- An ASCII character behind a front part is the byte at its offset. -/
theorem getElem?_toBytes_append {c : Char} (hc : c.toNat ≤ 127) (front back : List Char) :
    (toBytes (front ++ c :: back))[byteLength front]? = some (UInt8.ofNat c.toNat) := by
  rw [toBytes_append, toBytes_cons, utf8EncodeChar_of_ascii hc, ← length_toBytes,
    List.getElem?_append_right (Nat.le_refl _), Nat.sub_self]
  rfl

end Text
end ErbTemplate
