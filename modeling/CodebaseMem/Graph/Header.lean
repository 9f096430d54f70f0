import CodebaseMem.Core.Bytes
import CodebaseMem.Library.BufferFields
import Mathlib.Data.Vector.Basic

/-!
# The file header

A saved graph starts with a header of 32 bytes.  Encoder and decoder place its
seven fields by offsets of their own.

* `FrozenGraphHeader`, `new`, `validate`, `toBytes`, `fromBytes`: the code.
* `fromBytes_toBytes`: a header that was written reads back as itself.
* `validate_new`: the validator passes every header that `save` writes.

The other inverse, and which bytes belong to which field, is in the module on the header
codec; what the documentation says about the fields is in the one on the file format.
-/

namespace CodebaseMem
namespace Graph

open CodebaseMem.Core Library

/-- `MAGIC`, the bytes `CIFF`. -/
def fileMagic : Bytes 4 := ⟨[0x43, 0x49, 0x46, 0x46], rfl⟩

/-- `VERSION`. -/
def fileVersion : UInt16 := 1

abbrev headerSize : Nat := 32

structure FrozenGraphHeader where
  magic : Bytes 4
  version : UInt16
  reserved1 : UInt8
  checksumAlgo : UInt8
  checksum : UInt64
  payloadLen : UInt64
  reserved2 : UInt64
  deriving DecidableEq

inductive HeaderError where
  | invalidMagic (magic : Bytes 4)
  | unsupportedVersion (version : UInt16)
  | unknownChecksumAlgo (algo : UInt8)
  | invalidReservedByte (byte : UInt8)
  | checksumMismatch (expected actual : UInt64)
  | payloadTruncated (expected actual : UInt64)
  deriving DecidableEq

namespace FrozenGraphHeader

def new (payloadLen checksum : UInt64) : FrozenGraphHeader where
  magic := fileMagic
  version := fileVersion
  reserved1 := 0
  checksumAlgo := 0
  checksum := checksum
  payloadLen := payloadLen
  reserved2 := 0

/-- The first thing that is wrong with the header, in the order in which the source
looks: the magic, the version, the checksum algorithm and the first reserved byte. -/
def validate (header : FrozenGraphHeader) : Option HeaderError :=
  if header.magic ≠ fileMagic then some (.invalidMagic header.magic)
  else if header.version ≠ fileVersion then some (.unsupportedVersion header.version)
  else if header.checksumAlgo ≠ 0 then some (.unknownChecksumAlgo header.checksumAlgo)
  else if header.reserved1 ≠ 0 then some (.invalidReservedByte header.reserved1)
  else none

/-- The bytes of a `u8`. -/
def oneByte (x : UInt8) : Bytes 1 := ⟨[x], rfl⟩

def toBytes (header : FrozenGraphHeader) : Bytes headerSize :=
  let buf : Bytes headerSize := List.Vector.replicate headerSize 0
  let buf := writeField buf 0 header.magic
  let buf := writeField buf 4 (u16ToLeBytes header.version)
  let buf := writeField buf 6 (oneByte header.reserved1)
  let buf := writeField buf 7 (oneByte header.checksumAlgo)
  let buf := writeField buf 8 (u64ToLeBytes header.checksum)
  let buf := writeField buf 16 (u64ToLeBytes header.payloadLen)
  writeField buf 24 (u64ToLeBytes header.reserved2)

def fromBytes (buf : Bytes headerSize) : FrozenGraphHeader where
  magic := readField buf 0 4
  version := u16FromLeBytes ⟨[buf[4], buf[5]], rfl⟩
  reserved1 := buf[6]
  checksumAlgo := buf[7]
  checksum := u64FromLeBytes (readField buf 8 8)
  payloadLen := u64FromLeBytes (readField buf 16 8)
  reserved2 := u64FromLeBytes (readField buf 24 8)

/-- The windows of the encoder do not overlap: each holds its own field. -/
theorem readField_toBytes (header : FrozenGraphHeader) :
    readField header.toBytes 0 4 = header.magic ∧
      readField header.toBytes 4 2 = u16ToLeBytes header.version ∧
      readField header.toBytes 6 1 = oneByte header.reserved1 ∧
      readField header.toBytes 7 1 = oneByte header.checksumAlgo ∧
      readField header.toBytes 8 8 = u64ToLeBytes header.checksum ∧
      readField header.toBytes 16 8 = u64ToLeBytes header.payloadLen ∧
      readField header.toBytes 24 8 = u64ToLeBytes header.reserved2 := by
  refine ⟨?_, ?_, ?_, ?_, ?_, ?_, ?_⟩ <;>
    simp (disch := omega) only [toBytes, readField_writeField_disjoint,
      readField_writeField_same]

/-- A written header reads back as itself. -/
@[simp] theorem fromBytes_toBytes (header : FrozenGraphHeader) :
    fromBytes header.toBytes = header := by
  obtain ⟨hMagic, hVersion, hReserved1, hAlgo, hChecksum, hPayloadLen, hReserved2⟩ :=
    header.readField_toBytes
  -- the decoder reads the narrow fields byte by byte
  rw [readField_two] at hVersion
  rw [readField_one] at hReserved1 hAlgo
  have hByte6 : header.toBytes[6] = header.reserved1 :=
    (List.cons.inj (congrArg List.Vector.toList hReserved1)).1
  have hByte7 : header.toBytes[7] = header.checksumAlgo :=
    (List.cons.inj (congrArg List.Vector.toList hAlgo)).1
  rw [fromBytes, hMagic, hVersion, hByte6, hByte7, hChecksum, hPayloadLen, hReserved2]
  simp only [u16FromLeBytes_u16ToLeBytes, u64FromLeBytes_u64ToLeBytes]

theorem validate_new (payloadLen checksum : UInt64) :
    (new payloadLen checksum).validate = none := by
  simp [validate, new]

end FrozenGraphHeader

end Graph
end CodebaseMem
