/-
Module: SotFs.Foundation.Utf8
Layer: Foundation
Purpose: Strings as lists of bytes: encoding and decoding are inverse, encoding follows concatenation, and the
  byte 0 stands for the character 0 only.
Trusted boundary: none
Main exports: bytesOf, ofBytes, ofBytes_bytesOf, ofBytes_eq_some, bytesOf_append, zero_mem_bytesOf
-/
import Mathlib

namespace Foundation

/-- The UTF-8 encoding of a string. -/
def bytesOf (s : String) : List UInt8 := s.toUTF8.data.toList

/-- The string that a list of bytes encodes, if it is UTF-8. -/
def ofBytes (bytes : List UInt8) : Option String := String.fromUTF8? ⟨bytes.toArray⟩

theorem toArray_bytesOf (s : String) : (⟨(bytesOf s).toArray⟩ : ByteArray) = s.toByteArray := by
  rw [bytesOf, String.toUTF8_eq_toByteArray]

@[simp] theorem ofBytes_bytesOf (s : String) : ofBytes (bytesOf s) = some s := by
  rw [ofBytes, toArray_bytesOf, String.fromUTF8?, dif_pos s.isValidUTF8]
  rfl

/-- Decoding gives back the string that the bytes encode. -/
theorem ofBytes_eq_some {bytes : List UInt8} {s : String} : ofBytes bytes = some s ↔ bytes = bytesOf s := by
  constructor
  · intro h
    rw [ofBytes, String.fromUTF8?] at h
    split at h
    · cases h
      rfl
    · cases h
  · rintro rfl
    exact ofBytes_bytesOf s

@[simp] theorem bytesOf_append (s s' : String) : bytesOf (s ++ s') = bytesOf s ++ bytesOf s' := by
  rw [bytesOf, String.toUTF8_eq_toByteArray, String.toByteArray_append, ByteArray.data_append,
    Array.toList_append]
  rfl

@[simp] theorem bytesOf_ofList_append (cs cs' : List Char) :
    bytesOf (String.ofList (cs ++ cs')) = bytesOf (String.ofList cs) ++ bytesOf (String.ofList cs') := by
  rw [String.ofList_append, bytesOf_append]

/-- The bytes of one character. -/
theorem bytesOf_singleton (c : Char) : bytesOf (String.ofList [c]) = String.utf8EncodeChar c := by
  rw [bytesOf, String.toUTF8_eq_toByteArray, String.toByteArray_ofList, List.utf8Encode_singleton]
  simp

theorem zero_eq_ofNat_iff {n : Nat} (hlt : n < 256) : (0 : UInt8) = UInt8.ofNat n ↔ n = 0 := by
  rw [← UInt8.toNat_inj, UInt8.toNat_ofNat_of_lt' hlt]
  exact eq_comm

/-- Only the character 0 has a byte 0: the bytes of a longer encoding are at least 128. -/
theorem zero_mem_utf8EncodeChar {c : Char} : 0 ∈ String.utf8EncodeChar c ↔ c = Char.ofNat 0 := by
  have hzero : c = Char.ofNat 0 ↔ c.val.toNat = 0 := by
    rw [← Char.toNat_inj]
    rfl
  have hbyte : ∀ n, 128 ≤ n → n < 256 → (0 : UInt8) ≠ UInt8.ofNat n := by
    intro n hle hlt heq
    have := (zero_eq_ofNat_iff hlt).mp heq
    omega
  rw [hzero]
  fun_cases String.utf8EncodeChar with
  | case1 v hsmall => rw [List.mem_singleton, zero_eq_ofNat_iff (by omega)]
  | case2 v hnot =>
      refine iff_of_false (fun hmem => ?_) (by omega)
      simp only [List.mem_cons, List.not_mem_nil, or_false] at hmem
      rcases hmem with h | h <;> exact hbyte _ (by omega) (by omega) h
  | case3 v hnot =>
      refine iff_of_false (fun hmem => ?_) (by omega)
      simp only [List.mem_cons, List.not_mem_nil, or_false] at hmem
      rcases hmem with h | h | h <;> exact hbyte _ (by omega) (by omega) h
  | case4 v hnot =>
      refine iff_of_false (fun hmem => ?_) (by omega)
      simp only [List.mem_cons, List.not_mem_nil, or_false] at hmem
      rcases hmem with h | h | h | h <;> exact hbyte _ (by omega) (by omega) h

/-- A string has a byte 0 exactly when it has the character 0. -/
theorem zero_mem_bytesOf {s : String} : 0 ∈ bytesOf s ↔ Char.ofNat 0 ∈ s.toList := by
  obtain ⟨cs, rfl⟩ := s.exists_eq_ofList
  rw [String.toList_ofList]
  induction cs with
  | nil => simp [bytesOf]
  | cons c cs ih =>
      rw [← List.singleton_append, bytesOf_ofList_append, List.mem_append, List.mem_append, ih,
        bytesOf_singleton, zero_mem_utf8EncodeChar, List.mem_singleton, eq_comm]

end Foundation
