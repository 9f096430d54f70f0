import CodebaseMem.Graph.Header

/-!
# The header codec

The seven fields of a header tile its 32 bytes.  Encoder and decoder agree on the
window of every field, so they are inverse to each other on all headers and on all
arrays of 32 bytes, the ones no `save` would write included.

* `HeaderField`: the fields, with offset, size and encoding as functions of the field, so
  that each fact below is one proof for all of them.
* `covers_ofByte`, `Covers.eq_ofByte`: every byte lies in the window of one field.
* `window_toBytes`, `encode_fromBytes`: encoder and decoder keep to the windows.
* `codec_inverse`: both inverses, and that a field decides its own bytes and is decided
  by them.
-/

namespace CodebaseMem
namespace Graph

open CodebaseMem.Core Library

inductive HeaderField where
  | magic
  | version
  | reserved1
  | checksumAlgo
  | checksum
  | payloadLen
  | reserved2
  deriving DecidableEq

namespace HeaderField

def offset : HeaderField → Nat
  | magic => 0
  | version => 4
  | reserved1 => 6
  | checksumAlgo => 7
  | checksum => 8
  | payloadLen => 16
  | reserved2 => 24

def size : HeaderField → Nat
  | magic => 4
  | version => 2
  | reserved1 => 1
  | checksumAlgo => 1
  | checksum => 8
  | payloadLen => 8
  | reserved2 => 8

theorem fits (field : HeaderField) : field.offset + field.size ≤ headerSize := by
  cases field <;> decide

def Covers (field : HeaderField) (i : Fin headerSize) : Prop :=
  field.offset ≤ i ∧ i < field.offset + field.size

/-- The two headers have the same value in the field. -/
def Same (header header' : FrozenGraphHeader) : HeaderField → Prop
  | magic => header.magic = header'.magic
  | version => header.version = header'.version
  | reserved1 => header.reserved1 = header'.reserved1
  | checksumAlgo => header.checksumAlgo = header'.checksumAlgo
  | checksum => header.checksum = header'.checksum
  | payloadLen => header.payloadLen = header'.payloadLen
  | reserved2 => header.reserved2 = header'.reserved2

def encode (header : FrozenGraphHeader) : (field : HeaderField) → Bytes field.size
  | magic => header.magic
  | version => u16ToLeBytes header.version
  | reserved1 => FrozenGraphHeader.oneByte header.reserved1
  | checksumAlgo => FrozenGraphHeader.oneByte header.checksumAlgo
  | checksum => u64ToLeBytes header.checksum
  | payloadLen => u64ToLeBytes header.payloadLen
  | reserved2 => u64ToLeBytes header.reserved2

def window (buf : Bytes headerSize) (field : HeaderField) : Bytes field.size :=
  readField buf field.offset field.size field.fits

/-- The field a byte lies in. -/
def ofByte (i : Fin headerSize) : HeaderField :=
  if i.val < 4 then magic
  else if i.val < 6 then version
  else if i.val < 7 then reserved1
  else if i.val < 8 then checksumAlgo
  else if i.val < 16 then checksum
  else if i.val < 24 then payloadLen
  else reserved2

theorem covers_ofByte (i : Fin headerSize) : (ofByte i).Covers i := by
  have hi : i.val < 32 := i.isLt
  unfold ofByte
  split_ifs <;> simp only [Covers, offset, size] <;> omega

theorem Covers.eq_ofByte {field : HeaderField} {i : Fin headerSize} (h : field.Covers i) :
    field = ofByte i := by
  obtain ⟨hStart, hEnd⟩ := h
  cases field
  all_goals simp only [offset, size] at hStart hEnd
  case magic => rw [ofByte, if_pos (by omega)]
  case version => rw [ofByte, if_neg (by omega), if_pos (by omega)]
  case reserved1 => rw [ofByte, if_neg (by omega), if_neg (by omega), if_pos (by omega)]
  case checksumAlgo =>
    rw [ofByte, if_neg (by omega), if_neg (by omega), if_neg (by omega), if_pos (by omega)]
  case checksum =>
    rw [ofByte, if_neg (by omega), if_neg (by omega), if_neg (by omega), if_neg (by omega),
      if_pos (by omega)]
  case payloadLen =>
    rw [ofByte, if_neg (by omega), if_neg (by omega), if_neg (by omega), if_neg (by omega),
      if_neg (by omega), if_pos (by omega)]
  case reserved2 =>
    rw [ofByte, if_neg (by omega), if_neg (by omega), if_neg (by omega), if_neg (by omega),
      if_neg (by omega), if_neg (by omega)]

theorem encode_eq_iff (header header' : FrozenGraphHeader) (field : HeaderField) :
    encode header field = encode header' field ↔ Same header header' field := by
  have hU16 : Function.Injective u16ToLeBytes :=
    Function.LeftInverse.injective u16FromLeBytes_u16ToLeBytes
  have hU64 : Function.Injective u64ToLeBytes :=
    Function.LeftInverse.injective u64FromLeBytes_u64ToLeBytes
  have hByte : Function.Injective FrozenGraphHeader.oneByte := by
    intro x y h
    exact (List.cons.inj (congrArg List.Vector.toList h)).1
  cases field with
  | magic => exact Iff.rfl
  | version => exact hU16.eq_iff
  | reserved1 => exact hByte.eq_iff
  | checksumAlgo => exact hByte.eq_iff
  | checksum => exact hU64.eq_iff
  | payloadLen => exact hU64.eq_iff
  | reserved2 => exact hU64.eq_iff

/-- The encoder puts every field into its window. -/
theorem window_toBytes (header : FrozenGraphHeader) (field : HeaderField) :
    window header.toBytes field = encode header field := by
  obtain ⟨hMagic, hVersion, hReserved1, hAlgo, hChecksum, hPayloadLen, hReserved2⟩ :=
    header.readField_toBytes
  cases field with
  | magic => exact hMagic
  | version => exact hVersion
  | reserved1 => exact hReserved1
  | checksumAlgo => exact hAlgo
  | checksum => exact hChecksum
  | payloadLen => exact hPayloadLen
  | reserved2 => exact hReserved2

/-- The decoder reads every field from its window, and forgets nothing of it. -/
theorem encode_fromBytes (buf : Bytes headerSize) (field : HeaderField) :
    encode (FrozenGraphHeader.fromBytes buf) field = window buf field := by
  cases field with
  | magic => rfl
  | version => exact (u16ToLeBytes_u16FromLeBytes _).trans (readField_two buf (by decide)).symm
  | reserved1 => exact (readField_one buf (by decide)).symm
  | checksumAlgo => exact (readField_one buf (by decide)).symm
  | checksum => exact u64ToLeBytes_u64FromLeBytes _
  | payloadLen => exact u64ToLeBytes_u64FromLeBytes _
  | reserved2 => exact u64ToLeBytes_u64FromLeBytes _

theorem window_eq_iff (buf buf' : Bytes headerSize) (field : HeaderField) :
    window buf field = window buf' field ↔
      ∀ i : Fin headerSize, field.Covers i → buf.get i = buf'.get i := by
  rw [window, window, readField_eq_readField_iff]
  simp only [Covers, and_imp]

theorem eq_of_windows {buf buf' : Bytes headerSize}
    (h : ∀ field, window buf field = window buf' field) : buf = buf' := by
  apply List.Vector.ext
  intro i
  exact (window_eq_iff buf buf' (ofByte i)).mp (h _) i (covers_ofByte i)

end HeaderField

namespace FrozenGraphHeader

/-- An array of 32 bytes is the encoding of the header it is decoded to. -/
theorem toBytes_fromBytes (buf : Bytes headerSize) : (fromBytes buf).toBytes = buf := by
  apply HeaderField.eq_of_windows
  intro field
  rw [HeaderField.window_toBytes, HeaderField.encode_fromBytes]

/-- Encoder and decoder are inverse to each other, every byte lies in one field only,
and a field decides its own bytes and is decided by them. -/
theorem codec_inverse :
    Function.LeftInverse fromBytes toBytes ∧
      Function.RightInverse fromBytes toBytes ∧
      (∀ i : Fin headerSize, ∃! field : HeaderField, field.Covers i) ∧
      ∀ (field : HeaderField) (header header' : FrozenGraphHeader),
        field.Same header header' ↔
          ∀ i : Fin headerSize, field.Covers i → header.toBytes.get i = header'.toBytes.get i := by
  refine ⟨fromBytes_toBytes, toBytes_fromBytes, ?_, ?_⟩
  · intro i
    refine ⟨HeaderField.ofByte i, HeaderField.covers_ofByte i, ?_⟩
    intro field hCovers
    exact hCovers.eq_ofByte
  · intro field header header'
    rw [← HeaderField.encode_eq_iff, ← HeaderField.window_toBytes,
      ← HeaderField.window_toBytes, HeaderField.window_eq_iff]

end FrozenGraphHeader

end Graph
end CodebaseMem
