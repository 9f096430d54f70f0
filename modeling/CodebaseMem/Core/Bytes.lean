import CodebaseMem.Core.Exec
import CodebaseMem.Library.RecordBuffer
import Mathlib.Data.List.Lex
import Mathlib.Data.Vector.Defs

/-!
# Integers and strings as bytes

`to_le_bytes` and `from_le_bytes` for the widths the program stores, the
conversions from lengths to `u32`, and strings as their UTF-8 bytes.

* `u16ToLeBytes`, `u32ToLeBytes`, `u64ToLeBytes` and their inverses: instances of the
  little-endian codec of the library.
* `utf8`, `fromUtf8Unchecked`: a string as bytes, and bytes read as a string without a
  check, which is undefined behaviour for bytes that are not UTF-8.
* `strCmp`: strings are compared as `str::cmp` does, by their bytes.

A length is cast to `u32` with a wrap where the code casts with `as`, and with an error
where it uses `try_from`.
-/

namespace CodebaseMem
namespace Core

open Library

theorem toNat_ofNat_u32 {n : Nat} (hn : n < 2 ^ 32) : (UInt32.ofNat n).toNat = n :=
  UInt32.toNat_ofNat_of_lt' hn

/-- `u32::try_from` of a length. -/
def u32TryFrom (n : Nat) : Option UInt32 :=
  if n < 2 ^ 32 then some (UInt32.ofNat n) else none

theorem u32TryFrom_of_lt {n : Nat} (hn : n < 2 ^ 32) :
    u32TryFrom n = some (UInt32.ofNat n) := by
  rw [u32TryFrom, if_pos hn]

theorem toNat_of_u32TryFrom {n : Nat} {x : UInt32} (h : u32TryFrom n = some x) :
    x.toNat = n := by
  unfold u32TryFrom at h
  split at h
  · next hn =>
      cases h
      exact toNat_ofNat_u32 hn
  · cases h

/-- `u32::saturating_add`. -/
def saturatingAddU32 (a b : UInt32) : UInt32 :=
  if a.toNat + b.toNat < 2 ^ 32 then a + b else UInt32.ofNat (2 ^ 32 - 1)

theorem toNat_saturatingAddU32 (a b : UInt32) :
    (saturatingAddU32 a b).toNat = min (a.toNat + b.toNat) (2 ^ 32 - 1) := by
  unfold saturatingAddU32
  split
  · next h =>
      rw [UInt32.toNat_add, Nat.mod_eq_of_lt h]
      omega
  · next h =>
      rw [toNat_ofNat_u32 (by decide)]
      omega

/-- `u32::to_le_bytes`. -/
def u32ToLeBytes (x : UInt32) : List UInt8 := toLittleEndian 4 x.toNat

/-- `u32::from_le_bytes`. -/
def u32FromLeBytes (bytes : List UInt8) : UInt32 := UInt32.ofNat (ofLittleEndian bytes)

@[simp] theorem length_u32ToLeBytes (x : UInt32) : (u32ToLeBytes x).length = 4 :=
  length_toLittleEndian 4 _

@[simp] theorem u32FromLeBytes_u32ToLeBytes (x : UInt32) :
    u32FromLeBytes (u32ToLeBytes x) = x := by
  rw [u32FromLeBytes, u32ToLeBytes, ofLittleEndian_toLittleEndian x.toNat_lt,
    UInt32.ofNat_toNat]

theorem slice_length_of_recordAt {α : Type*} {bytes : α → List UInt8} {items : List α}
    {position : Nat} {item : α} (h : RecordAt bytes items position item)
    (hFits : (bytes item).length < 2 ^ 32) :
    slice (records bytes items) position (position + 4) =
      .ok (u32ToLeBytes (UInt32.ofNat (bytes item).length)) := by
  obtain ⟨before, rest, hBuffer, rfl⟩ := h.exists_records_eq
  have hShape : records bytes items =
      before ++ u32ToLeBytes (UInt32.ofNat (bytes item).length) ++ (bytes item ++ rest) := by
    rw [hBuffer, record, u32ToLeBytes, toNat_ofNat_u32 hFits]
    simp [List.append_assoc]
  rw [hShape]
  exact slice_append_append _ _ _ (by simp)

theorem slice_bytes_of_recordAt {α : Type*} {bytes : α → List UInt8} {items : List α}
    {position : Nat} {item : α} (h : RecordAt bytes items position item) :
    slice (records bytes items) (position + 4) (position + 4 + (bytes item).length) =
      .ok (bytes item) := by
  obtain ⟨before, rest, hBuffer, rfl⟩ := h.exists_records_eq
  have hShape : records bytes items =
      (before ++ toLittleEndian 4 (bytes item).length) ++ bytes item ++ rest := by
    rw [hBuffer, record]
    simp [List.append_assoc]
  have hLength : (before ++ toLittleEndian 4 (bytes item).length).length = before.length + 4 := by
    simp
  rw [hShape, ← hLength]
  exact slice_append_append _ _ _ rfl

/-- The array type `[u8; n]`. -/
abbrev Bytes (n : Nat) := List.Vector UInt8 n

/-- `u16::to_le_bytes`. -/
def u16ToLeBytes (x : UInt16) : Bytes 2 :=
  ⟨toLittleEndian 2 x.toNat, length_toLittleEndian 2 _⟩

/-- `u16::from_le_bytes`. -/
def u16FromLeBytes (bytes : Bytes 2) : UInt16 := UInt16.ofNat (ofLittleEndian bytes.toList)

@[simp] theorem u16FromLeBytes_u16ToLeBytes (x : UInt16) :
    u16FromLeBytes (u16ToLeBytes x) = x := by
  rw [u16FromLeBytes, u16ToLeBytes, List.Vector.toList_mk,
    ofLittleEndian_toLittleEndian x.toNat_lt, UInt16.ofNat_toNat]

@[simp] theorem u16ToLeBytes_u16FromLeBytes (bytes : Bytes 2) :
    u16ToLeBytes (u16FromLeBytes bytes) = bytes := by
  have hBound := ofLittleEndian_lt bytes.toList
  have hBytes := toLittleEndian_ofLittleEndian bytes.toList
  rw [List.Vector.toList_length] at hBound hBytes
  apply List.Vector.eq
  rw [u16ToLeBytes, List.Vector.toList_mk, u16FromLeBytes, UInt16.toNat_ofNat_of_lt' hBound,
    hBytes]

/-- `u64::to_le_bytes`. -/
def u64ToLeBytes (x : UInt64) : Bytes 8 :=
  ⟨toLittleEndian 8 x.toNat, length_toLittleEndian 8 _⟩

/-- `u64::from_le_bytes`. -/
def u64FromLeBytes (bytes : Bytes 8) : UInt64 := UInt64.ofNat (ofLittleEndian bytes.toList)

@[simp] theorem u64FromLeBytes_u64ToLeBytes (x : UInt64) :
    u64FromLeBytes (u64ToLeBytes x) = x := by
  rw [u64FromLeBytes, u64ToLeBytes, List.Vector.toList_mk,
    ofLittleEndian_toLittleEndian x.toNat_lt, UInt64.ofNat_toNat]

@[simp] theorem u64ToLeBytes_u64FromLeBytes (bytes : Bytes 8) :
    u64ToLeBytes (u64FromLeBytes bytes) = bytes := by
  have hBound := ofLittleEndian_lt bytes.toList
  have hBytes := toLittleEndian_ofLittleEndian bytes.toList
  rw [List.Vector.toList_length] at hBound hBytes
  apply List.Vector.eq
  rw [u64ToLeBytes, List.Vector.toList_mk, u64FromLeBytes, UInt64.toNat_ofNat_of_lt' hBound,
    hBytes]

/-- The bytes of a string, `str::as_bytes`. -/
def utf8 (s : String) : List UInt8 := s.toByteArray.data.toList

theorem utf8_eq_flatMap (s : String) : utf8 s = s.toList.flatMap String.utf8EncodeChar := by
  conv_lhs => rw [← String.ofList_toList (s := s)]
  rw [utf8, String.toByteArray_ofList, List.utf8Encode]
  simp

/-- `std::str::from_utf8_unchecked`. On bytes that are not UTF-8 the behaviour is
undefined, and the model makes that a fault instead of picking a result. -/
def fromUtf8Unchecked (bytes : List UInt8) : Exec String :=
  if h : ByteArray.IsValidUTF8 ⟨bytes.toArray⟩ then .ok (String.ofByteArray _ h)
  else .error .undefinedBehaviour

@[simp] theorem fromUtf8Unchecked_utf8 (s : String) : fromUtf8Unchecked (utf8 s) = .ok s := by
  have hValid : ByteArray.IsValidUTF8 ⟨(utf8 s).toArray⟩ := by
    simpa [utf8] using s.isValidUTF8
  rw [fromUtf8Unchecked, dif_pos hValid]
  simp [utf8]

theorem utf8_injective : Function.Injective utf8 := by
  intro s s' h
  have hRead := congrArg fromUtf8Unchecked h
  rw [fromUtf8Unchecked_utf8, fromUtf8Unchecked_utf8] at hRead
  exact Except.ok.inj hRead

/-- The key of the order on strings: their bytes, compared from the left.  Rust orders
strings in this way and not by their characters. -/
def strKey (s : String) : List ℕ := (utf8 s).map UInt8.toNat

theorem strKey_injective : Function.Injective strKey := by
  intro s s' h
  apply utf8_injective
  exact List.map_injective_iff.mpr (fun _ _ => UInt8.toNat_inj.mp) h

/-- `str::cmp`. -/
def strCmp (a b : String) : Ordering :=
  if strKey a < strKey b then .lt else if a = b then .eq else .gt

end Core
end CodebaseMem
