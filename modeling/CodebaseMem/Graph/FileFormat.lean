import CodebaseMem.Graph.Persistence

/-!
# The documented file format

The table above the header of a saved graph assigns a meaning to each of its 32
bytes.  This file states the table over the raw bytes of a file and compares it
with what `from_mmap` accepts.  The two differ in one field: nothing looks at
the last eight bytes of the header.

* `CheckedFields`, `ReservedClear`, `DocumentedFormat`: the rows of the table, by offset
  and size, without a reference to the decoder.
* `validate_headerOf_iff`: the validator, in terms of the raw bytes.
* `accepts_iff_checkedFields`: loading checks every row but the last.
* `accepts_iff_documentedFormat_iff`: so it accepts exactly the documented format on the
  files whose last field is clear, and on those that violate another row.

Files whose payload length overflows with the header size are left out: on them loading
panics, which the module on persistence has.
-/

namespace CodebaseMem
namespace Graph

open CodebaseMem.Core Library

/-- The bytes of a field, by its offset and its size.  The header table of the source
gives these two numbers for each field, and nothing here goes through the codec. -/
def fieldBytes (file : List UInt8) (offset size : Nat) : List UInt8 :=
  (file.drop offset).take size

/-- The integer in a field, least significant byte first. -/
def fieldNat (file : List UInt8) (offset size : Nat) : Nat :=
  ofLittleEndian (fieldBytes file offset size)

/-- The bytes that the payload length declares to be the payload. -/
def declaredPayload (file : List UInt8) : List UInt8 :=
  fieldBytes file headerSize (fieldNat file 16 8)

/-- The rows of the header table but the last, and the payload they describe.  More bytes
may follow behind the payload. -/
structure CheckedFields (xxh3 : Xxh3) (file : List UInt8) : Prop where
  magic : fieldBytes file 0 4 = [0x43, 0x49, 0x46, 0x46]
  version : fieldNat file 4 2 = 1
  reserved1 : fieldBytes file 6 1 = [0]
  checksumAlgo : fieldBytes file 7 1 = [0]
  checksum : fieldNat file 8 8 = (xxh3 (declaredPayload file)).toNat
  payloadLen : fieldNat file 16 8 ≤ file.length - headerSize

/-- The last row of the header table: the trailing bytes are reserved and must be zero.
-/
def ReservedClear (file : List UInt8) : Prop := fieldBytes file 24 8 = List.replicate 8 0

instance (file : List UInt8) : Decidable (ReservedClear file) :=
  inferInstanceAs (Decidable (_ = _))

/-- The whole header table, as the source documents it. -/
def DocumentedFormat (xxh3 : Xxh3) (file : List UInt8) : Prop :=
  CheckedFields xxh3 file ∧ ReservedClear file

section

variable {file : List UInt8}

/-! ### The fields of the decoded header -/

theorem toList_readField_leadingBytes (hLen : headerSize ≤ file.length) (offset size : Nat)
    (hFits : offset + size ≤ headerSize) :
    (readField (leadingBytes file hLen) offset size hFits).toList =
      fieldBytes file offset size := by
  calc (readField (leadingBytes file hLen) offset size hFits).toList
    _ = ((file.take headerSize).drop offset).take size := by
      rw [readField, List.Vector.toList_mk, leadingBytes, List.Vector.toList_mk]
    _ = (file.drop offset).take size := by
      rw [List.drop_take, List.take_take, Nat.min_eq_left (by omega)]
    _ = fieldBytes file offset size := by rw [fieldBytes]

theorem headerOf_magic (hLen : headerSize ≤ file.length) :
    (headerOf file hLen).magic.toList = fieldBytes file 0 4 :=
  toList_readField_leadingBytes hLen 0 4 (by decide)

theorem headerOf_version (hLen : headerSize ≤ file.length) :
    (headerOf file hLen).version.toNat = fieldNat file 4 2 := by
  have hField := toList_readField_leadingBytes hLen 4 2 (by decide)
  have hBound := ofLittleEndian_lt (fieldBytes file 4 2)
  rw [← hField, List.Vector.toList_length] at hBound
  show (u16FromLeBytes ⟨[(leadingBytes file hLen)[4], (leadingBytes file hLen)[5]], rfl⟩).toNat = _
  rw [← readField_two (leadingBytes file hLen) (show 4 + 2 ≤ headerSize by decide), u16FromLeBytes,
    fieldNat, ← hField]
  exact UInt16.toNat_ofNat_of_lt' hBound

theorem headerOf_reserved1 (hLen : headerSize ≤ file.length) :
    [(headerOf file hLen).reserved1] = fieldBytes file 6 1 := by
  rw [← toList_readField_leadingBytes hLen 6 1 (by decide), readField_one]
  rfl

theorem headerOf_checksumAlgo (hLen : headerSize ≤ file.length) :
    [(headerOf file hLen).checksumAlgo] = fieldBytes file 7 1 := by
  rw [← toList_readField_leadingBytes hLen 7 1 (by decide), readField_one]
  rfl

theorem toNat_u64FromLeBytes (bytes : Bytes 8) :
    (u64FromLeBytes bytes).toNat = ofLittleEndian bytes.toList := by
  have hBound := ofLittleEndian_lt bytes.toList
  rw [List.Vector.toList_length] at hBound
  exact UInt64.toNat_ofNat_of_lt' hBound

theorem headerOf_checksum (hLen : headerSize ≤ file.length) :
    (headerOf file hLen).checksum.toNat = fieldNat file 8 8 := by
  rw [headerOf, FrozenGraphHeader.fromBytes, toNat_u64FromLeBytes,
    toList_readField_leadingBytes, fieldNat]

theorem headerOf_payloadLen (hLen : headerSize ≤ file.length) :
    (headerOf file hLen).payloadLen.toNat = fieldNat file 16 8 := by
  rw [headerOf, FrozenGraphHeader.fromBytes, toNat_u64FromLeBytes,
    toList_readField_leadingBytes, fieldNat]

theorem payloadWindow_eq (file : List UInt8) (payloadLen : UInt64) :
    payloadWindow file payloadLen = fieldBytes file headerSize payloadLen.toNat := by
  rw [payloadWindow, fieldBytes, List.drop_take, Nat.add_sub_cancel_left]

/-- The validator passes a header exactly when its first four fields are as
documented. -/
theorem validate_eq_none_iff {header : FrozenGraphHeader} :
    header.validate = none ↔ header.magic = fileMagic ∧ header.version = fileVersion ∧
      header.checksumAlgo = 0 ∧ header.reserved1 = 0 := by
  unfold FrozenGraphHeader.validate
  by_cases hMagic : header.magic = fileMagic
  · by_cases hVersion : header.version = fileVersion
    · by_cases hAlgo : header.checksumAlgo = 0
      · by_cases hReserved : header.reserved1 = 0
        · simp [hMagic, hVersion, hAlgo, hReserved]
        · simp [hMagic, hVersion, hAlgo, hReserved]
      · simp [hMagic, hVersion, hAlgo]
    · simp [hMagic, hVersion]
  · simp [hMagic]

theorem validate_headerOf_iff (hLen : headerSize ≤ file.length) :
    (headerOf file hLen).validate = none ↔
      fieldBytes file 0 4 = [0x43, 0x49, 0x46, 0x46] ∧ fieldNat file 4 2 = 1 ∧
        fieldBytes file 7 1 = [0] ∧ fieldBytes file 6 1 = [0] := by
  rw [validate_eq_none_iff, ← headerOf_magic hLen, ← headerOf_version hLen,
    ← headerOf_checksumAlgo hLen, ← headerOf_reserved1 hLen]
  have hMagic : (headerOf file hLen).magic = fileMagic ↔
      (headerOf file hLen).magic.toList = [0x43, 0x49, 0x46, 0x46] :=
    ⟨fun h => congrArg List.Vector.toList h, fun h => List.Vector.eq _ _ h⟩
  have hVersion : (headerOf file hLen).version = fileVersion ↔
      (headerOf file hLen).version.toNat = 1 := by
    rw [← UInt16.toNat_inj]
    rfl
  rw [hMagic, hVersion, List.cons_eq_cons, List.cons_eq_cons]
  simp

end

/-! ### What loading accepts -/

section

variable (profile : Profile) (rkyv : Rkyv) (xxh3 : Xxh3)

def Accepts (file : List UInt8) : Prop :=
  ∃ loaded, fromMmap profile rkyv xxh3 file = .ok (.ok loaded)

variable {file : List UInt8}

/-- A file whose payload ends within the range of 64 bits is loaded exactly when it
passes every check. -/
theorem fromMmap_eq_ok_iff (hLen : headerSize ≤ file.length)
    (hSum : fieldNat file 16 8 + headerSize < 2 ^ 64) {loaded : MmapFrozenGraph} :
    fromMmap profile rkyv xxh3 file = .ok (.ok loaded) ↔
      (headerOf file hLen).validate = none ∧ fieldNat file 16 8 + headerSize ≤ file.length ∧
        fieldNat file 8 8 = (xxh3 (declaredPayload file)).toNat ∧
        rkyv.fromBytes (declaredPayload file) = .ok loaded.graph ∧ loaded.mmap = file := by
  have hWindow : payloadWindow file (headerOf file hLen).payloadLen = declaredPayload file := by
    rw [payloadWindow_eq, headerOf_payloadLen hLen, declaredPayload]
  have hChecksum : fieldNat file 8 8 = (xxh3 (declaredPayload file)).toNat ↔
      xxh3 (declaredPayload file) = (headerOf file hLen).checksum := by
    rw [← headerOf_checksum hLen, UInt64.toNat_inj, eq_comm]
  rw [hChecksum, fromMmap_eq _ _ _ hLen]
  -- the checks in the order of the source: header, length, checksum, serialiser
  rw [← headerOf_payloadLen hLen] at hSum ⊢
  cases hValid : (headerOf file hLen).validate with
  | some e => simp
  | none =>
      by_cases hInside : (headerOf file hLen).payloadLen.toNat + headerSize ≤ file.length
      · rw [loadPayload_of_le _ _ _ hSum hInside, checkPayload, hWindow]
        by_cases hSame : xxh3 (declaredPayload file) = (headerOf file hLen).checksum
        · rw [if_neg (not_not.mpr hSame)]
          cases rkyv.fromBytes (declaredPayload file) with
          | error text => simp
          | ok graph =>
              cases loaded
              simp [hInside, hSame, and_comm, eq_comm]
        · rw [if_pos hSame]
          simp [hSame]
      · rw [loadPayload_of_truncated _ _ _ hSum (by omega)]
        simp [hInside]

theorem accepts_iff_checkedFields (hLen : headerSize ≤ file.length)
    (hSmall : fieldNat file 16 8 < 2 ^ 63)
    (hDecodes : fieldNat file 16 8 ≤ file.length - headerSize →
      ∃ graph, rkyv.fromBytes (declaredPayload file) = .ok graph) :
    Accepts profile rkyv xxh3 file ↔ CheckedFields xxh3 file := by
  have hSum : fieldNat file 16 8 + headerSize < 2 ^ 64 := by
    rw [headerSize]
    omega
  rw [Accepts]
  simp only [fromMmap_eq_ok_iff profile rkyv xxh3 hLen hSum, validate_headerOf_iff hLen]
  constructor
  · rintro ⟨loaded, ⟨hMagic, hVersion, hAlgo, hReserved⟩, hInside, hChecksum, -, -⟩
    exact ⟨hMagic, hVersion, hReserved, hAlgo, hChecksum, by omega⟩
  · rintro ⟨hMagic, hVersion, hReserved, hAlgo, hChecksum, hInside⟩
    obtain ⟨graph, hGraph⟩ := hDecodes hInside
    exact ⟨⟨file, graph⟩, ⟨hMagic, hVersion, hAlgo, hReserved⟩, by omega, hChecksum, hGraph, rfl⟩

/-- Loading accepts exactly the documented format on the files whose last header
field is clear, and on those that violate the table elsewhere. -/
theorem accepts_iff_documentedFormat_iff (hLen : headerSize ≤ file.length)
    (hSmall : fieldNat file 16 8 < 2 ^ 63)
    (hDecodes : fieldNat file 16 8 ≤ file.length - headerSize →
      ∃ graph, rkyv.fromBytes (declaredPayload file) = .ok graph) :
    (Accepts profile rkyv xxh3 file ↔ DocumentedFormat xxh3 file) ↔
      (ReservedClear file ∨ ¬CheckedFields xxh3 file) := by
  rw [accepts_iff_checkedFields profile rkyv xxh3 hLen hSmall hDecodes, DocumentedFormat]
  tauto

end

/-- A file of five bytes of payload, with `reserved` as the first byte of the last
header field. -/
def fileWithReserved (reserved : UInt8) : List UInt8 :=
  [0x43, 0x49, 0x46, 0x46, 1, 0, 0, 0] ++ [14, 0, 0, 0, 0, 0, 0, 0] ++
    [5, 0, 0, 0, 0, 0, 0, 0] ++ [reserved, 0, 0, 0, 0, 0, 0, 0] ++ [3, 1, 4, 1, 5]

theorem accepts_iff_documentedFormat_clear :
    Accepts .dev labelIndexRkyv byteSum (fileWithReserved 0) ↔
      DocumentedFormat byteSum (fileWithReserved 0) :=
  (accepts_iff_documentedFormat_iff .dev labelIndexRkyv byteSum (by decide) (by decide)
    fun _ => ⟨_, rfl⟩).mpr (.inl (by decide))

/-- A file whose last header field is not zero is accepted. -/
theorem not_accepts_iff_documentedFormat_reserved :
    ¬∀ (profile : Profile) (rkyv : Rkyv) (xxh3 : Xxh3) (file : List UInt8),
      headerSize ≤ file.length → fieldNat file 16 8 < 2 ^ 63 →
      (fieldNat file 16 8 ≤ file.length - headerSize →
        ∃ graph, rkyv.fromBytes (declaredPayload file) = .ok graph) →
      (Accepts profile rkyv xxh3 file ↔ DocumentedFormat xxh3 file) := by
  intro h
  have hIff := h .dev labelIndexRkyv byteSum (fileWithReserved 1) (by decide) (by decide)
    fun _ => ⟨_, rfl⟩
  have hAccepts : Accepts .dev labelIndexRkyv byteSum (fileWithReserved 1) :=
    ⟨⟨fileWithReserved 1, labelIndexGraph [3, 1, 4, 1, 5]⟩, rfl⟩
  exact absurd (hIff.mp hAccepts).2 (by decide)

end Graph
end CodebaseMem
