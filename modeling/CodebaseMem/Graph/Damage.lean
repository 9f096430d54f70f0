import CodebaseMem.Graph.FileFormat

/-!
# Damaged files

A saved file is damaged when it is cut short or when one of its bytes is
replaced.  Whatever the damage hits, loading reports an error or gives back the
graph that was saved.

* `Damaged`: the two kinds of damage.
* `rejects_of_strict_prefix`: every file that is cut short is rejected.
* `rejects_or_loadsAs_of_damaged`: every damaged file is rejected or loads as the graph
  that was saved.

The hash function is only assumed to tell the payload apart from the windows that
damaged files make loading look at.  A real hash does so with high probability, which is
not stated here; and nothing is claimed about a file with two replaced bytes.
-/

namespace CodebaseMem
namespace Graph

open CodebaseMem.Core Library

/-- A damaged file: a strict prefix of the original, or the original with another
byte at one position. -/
inductive Damaged (original : List UInt8) : List UInt8 → Prop
  | truncated (file : List UInt8) (hPrefix : file <+: original) (hShorter : file ≠ original) :
      Damaged original file
  | replaced (position : Nat) (byte : UInt8) (hInside : position < original.length)
      (hOther : original[position]? ≠ some byte) : Damaged original (original.set position byte)

/-! ### Replacing a byte inside or outside a field -/

theorem fieldBytes_set_of_outside {file : List UInt8} {position offset size : Nat} (byte : UInt8)
    (hOutside : position < offset ∨ offset + size ≤ position) :
    fieldBytes (file.set position byte) offset size = fieldBytes file offset size := by
  refine List.ext_getElem? fun i => ?_
  rw [fieldBytes, fieldBytes, List.getElem?_take, List.getElem?_take]
  by_cases hi : i < size
  · rw [if_pos hi, if_pos hi, List.getElem?_drop, List.getElem?_drop,
      List.getElem?_set_ne (by omega)]
  · rw [if_neg hi, if_neg hi]

theorem fieldBytes_set_of_inside {file : List UInt8} {position offset size : Nat} (byte : UInt8)
    (hAfter : offset ≤ position) :
    fieldBytes (file.set position byte) offset size =
      (fieldBytes file offset size).set (position - offset) byte := by
  rw [fieldBytes, fieldBytes, List.drop_set, if_neg (by omega), List.take_set]

/-- With a payload below `2 ^ 55` bytes, no damage to the length field takes the
end of the payload out of the range of 64 bits. -/
theorem fieldNat_set_lt {file : List UInt8} (position : Nat) (byte : UInt8)
    (hLength : fieldNat file 16 8 < 2 ^ 55) :
    fieldNat (file.set position byte) 16 8 + headerSize < 2 ^ 64 := by
  have hByte : byte.toNat < 256 := byte.toNat_lt
  by_cases hInside : 16 ≤ position ∧ position < 24
  · have hSet := ofLittleEndian_set_le (fieldBytes file 16 8) (position - 16) byte
    have hPlace : 256 ^ (position - 16) ≤ 256 ^ 7 := Nat.pow_le_pow_right (by decide) (by omega)
    have hAdded : byte.toNat * 256 ^ (position - 16) ≤ 255 * 256 ^ 7 :=
      Nat.mul_le_mul (by omega) hPlace
    rw [fieldNat, fieldBytes_set_of_inside byte hInside.1, headerSize]
    rw [fieldNat] at hLength
    omega
  · rw [fieldNat, fieldBytes_set_of_outside byte (by omega), ← fieldNat, headerSize]
    omega

section

variable (profile : Profile) (rkyv : Rkyv) (xxh3 : Xxh3)

def Rejects (file : List UInt8) : Prop := ∃ e, fromMmap profile rkyv xxh3 file = .ok (.error e)

def LoadsAs (file : List UInt8) (graph : FrozenGraph) : Prop :=
  fromMmap profile rkyv xxh3 file = .ok (.ok ⟨file, graph⟩)

variable {file payload : List UInt8} {graph : FrozenGraph}

/-! ### Outcomes of loading -/

theorem exists_fromMmap_eq_ok (hLen : headerSize ≤ file.length)
    (hSum : fieldNat file 16 8 + headerSize < 2 ^ 64) :
    ∃ result, fromMmap profile rkyv xxh3 file = .ok result := by
  rw [← headerOf_payloadLen hLen] at hSum
  rw [fromMmap_eq _ _ _ hLen]
  split
  · exact ⟨_, rfl⟩
  · rcases Nat.lt_or_ge file.length ((headerOf file hLen).payloadLen.toNat + headerSize)
      with hTruncated | hInside
    · rw [loadPayload_of_truncated _ _ _ hSum hTruncated]
      exact ⟨_, rfl⟩
    · rw [loadPayload_of_le _ _ _ hSum hInside]
      exact ⟨_, rfl⟩

theorem rejects_of_truncated (hLen : headerSize ≤ file.length)
    (hSum : fieldNat file 16 8 + headerSize < 2 ^ 64)
    (hTruncated : file.length < fieldNat file 16 8 + headerSize) :
    Rejects profile rkyv xxh3 file := by
  obtain ⟨result, hResult⟩ := exists_fromMmap_eq_ok profile rkyv xxh3 hLen hSum
  cases result with
  | error e => exact ⟨e, hResult⟩
  | ok loaded =>
      obtain ⟨-, hInside, -⟩ := (fromMmap_eq_ok_iff profile rkyv xxh3 hLen hSum).mp hResult
      exact absurd hInside hTruncated.not_ge

/-- A file whose declared payload is `payload`, or has another hash than its
checksum field says, is rejected or loads as the graph that `payload` stands
for. -/
theorem rejects_or_loadsAs (hDecodes : rkyv.fromBytes payload = .ok graph)
    (hLen : headerSize ≤ file.length) (hSum : fieldNat file 16 8 + headerSize < 2 ^ 64)
    (hWindow : declaredPayload file = payload ∨
      fieldNat file 8 8 ≠ (xxh3 (declaredPayload file)).toNat) :
    Rejects profile rkyv xxh3 file ∨ LoadsAs profile rkyv xxh3 file graph := by
  obtain ⟨result, hResult⟩ := exists_fromMmap_eq_ok profile rkyv xxh3 hLen hSum
  cases result with
  | error e => exact .inl ⟨e, hResult⟩
  | ok loaded =>
      obtain ⟨-, -, hChecksum, hGraph, hFile⟩ :=
        (fromMmap_eq_ok_iff profile rkyv xxh3 hLen hSum).mp hResult
      -- the checksum matches, so the window is the payload
      have hPayload : declaredPayload file = payload :=
        hWindow.resolve_right fun hDiffers => hDiffers hChecksum
      rw [hPayload, hDecodes] at hGraph
      refine .inr ?_
      rw [LoadsAs, hResult, Except.ok.inj hGraph, ← hFile]

/-! ### The damage, field by field -/

variable {header : FrozenGraphHeader}

theorem headerSize_le_length_image (header : FrozenGraphHeader) (payload : List UInt8) :
    headerSize ≤ (image header payload).length := by
  rw [image, List.length_append, List.Vector.toList_length]
  omega

theorem headerOf_image_self (header : FrozenGraphHeader) (payload : List UInt8) :
    headerOf (image header payload) (headerSize_le_length_image header payload) = header := by
  simpa using headerOf_image header payload [] (by simpa using headerSize_le_length_image _ _)

theorem header_eq_of_prepare (hSaved : prepare rkyv xxh3 graph = .ok (header, payload)) :
    header = .new (UInt64.ofNat payload.length) (xxh3 payload) ∧ payload.length < 2 ^ 64 := by
  unfold prepare at hSaved
  split at hSaved
  · cases hSaved
  · next bytes _ =>
      dsimp only at hSaved
      unfold u64TryFrom at hSaved
      by_cases hBytes : bytes.length < 2 ^ 64
      · rw [if_pos hBytes] at hSaved
        obtain ⟨rfl, rfl⟩ := Prod.mk.inj (Except.ok.inj hSaved)
        exact ⟨rfl, hBytes⟩
      · rw [if_neg hBytes] at hSaved
        cases hSaved

/-- What `save` writes for a graph, in terms of the header table.  Damage is described by
positions in the file, so the fields are read off the bytes. -/
theorem fields_image (hSaved : prepare rkyv xxh3 graph = .ok (header, payload)) :
    fieldNat (image header payload) 16 8 = payload.length ∧
      fieldNat (image header payload) 8 8 = (xxh3 payload).toNat ∧
      fieldBytes (image header payload) headerSize payload.length = payload := by
  obtain ⟨hHeader, hBytes⟩ := header_eq_of_prepare rkyv xxh3 hSaved
  have hLen := headerSize_le_length_image header payload
  have hSelf := headerOf_image_self header payload
  refine ⟨?_, ?_, ?_⟩
  · rw [← headerOf_payloadLen hLen, hSelf, hHeader]
    exact UInt64.toNat_ofNat_of_lt' hBytes
  · rw [← headerOf_checksum hLen, hSelf, hHeader, FrozenGraphHeader.new]
  · rw [fieldBytes, image, List.drop_left' (List.Vector.toList_length _), List.take_length]

theorem rejects_of_strict_prefix (hSaved : prepare rkyv xxh3 graph = .ok (header, payload))
    (hLength : payload.length < 2 ^ 55) (hPrefix : file <+: image header payload)
    (hShorter : file ≠ image header payload) : Rejects profile rkyv xxh3 file := by
  obtain ⟨hPayloadLen, -, -⟩ := fields_image rkyv xxh3 hSaved
  have hCut : file.length < (image header payload).length :=
    lt_of_le_of_ne hPrefix.length_le fun hSame => hShorter (hPrefix.eq_of_length hSame)
  have hSize : headerSize = 32 := rfl
  by_cases hLen : headerSize ≤ file.length
  · have hField : fieldNat file 16 8 = payload.length := by
      calc fieldNat file 16 8
        _ = fieldNat ((image header payload).take file.length) 16 8 := by
          rw [← List.prefix_iff_eq_take.mp hPrefix]
        -- the field lies in front of the cut
        _ = fieldNat (image header payload) 16 8 := by
          rw [fieldNat, fieldNat, fieldBytes, fieldBytes, List.drop_take, List.take_take,
            Nat.min_eq_left (by omega)]
        _ = payload.length := hPayloadLen
    rw [image, List.length_append, List.Vector.toList_length] at hCut
    exact rejects_of_truncated profile rkyv xxh3 hLen (by rw [hField]; omega)
      (by rw [hField]; omega)
  · exact fromMmap_of_short profile rkyv xxh3 (by omega)

/-- A damaged file is rejected or loads as the graph that was saved, and every
strict prefix is rejected. -/
theorem rejects_or_loadsAs_of_damaged
    (hSaved : prepare rkyv xxh3 graph = .ok (header, payload))
    (hDecodes : rkyv.fromBytes payload = .ok graph) (hLength : payload.length < 2 ^ 55)
    (hHash : ∀ position byte,
      declaredPayload ((image header payload).set position byte) ≠ payload →
      xxh3 (declaredPayload ((image header payload).set position byte)) ≠ xxh3 payload) :
    (∀ file, file <+: image header payload → file ≠ image header payload →
      Rejects profile rkyv xxh3 file) ∧
    ∀ file, Damaged (image header payload) file →
      Rejects profile rkyv xxh3 file ∨ LoadsAs profile rkyv xxh3 file graph := by
  have hCut : ∀ file, file <+: image header payload → file ≠ image header payload →
      Rejects profile rkyv xxh3 file :=
    fun _ => rejects_of_strict_prefix profile rkyv xxh3 hSaved hLength
  refine ⟨hCut, fun file hDamaged => ?_⟩
  obtain ⟨hPayloadLen, hChecksum, hPayload⟩ := fields_image rkyv xxh3 hSaved
  cases hDamaged with
  | truncated _ hPrefix hShorter => exact .inl (hCut file hPrefix hShorter)
  | replaced position byte hInside hOther =>
      have hLen : headerSize ≤ ((image header payload).set position byte).length := by
        rw [List.length_set]
        exact headerSize_le_length_image header payload
      refine rejects_or_loadsAs profile rkyv xxh3 hDecodes hLen
        (fieldNat_set_lt position byte (by rw [hPayloadLen]; exact hLength)) ?_
      by_cases hWindow : declaredPayload ((image header payload).set position byte) = payload
      · exact .inl hWindow
      · refine .inr fun hSame => hHash position byte hWindow (UInt64.toNat_inj.mp ?_)
        -- damage to the checksum itself leaves the window as it was
        have hOutside : position < 8 ∨ 8 + 8 ≤ position := by
          by_contra hChecksumHit
          apply hWindow
          have hBefore : position < headerSize := by
            show position < 32
            omega
          have hField : fieldNat ((image header payload).set position byte) 16 8 =
              payload.length := by
            rw [← hPayloadLen, fieldNat, fieldNat, fieldBytes_set_of_outside byte (by omega)]
          rw [declaredPayload, hField, fieldBytes_set_of_outside byte (.inl hBefore), hPayload]
        rw [← hSame, ← hChecksum, fieldNat, fieldNat, fieldBytes_set_of_outside byte hOutside]

end

/-- A hash that tells one payload apart from everything else.  A damaged payload has
another checksum under it, which no hash of 64 bits can promise for all payloads at once.
-/
def onlyPayload (payload : List UInt8) : Xxh3 := fun bytes => if bytes = payload then 1 else 0

theorem rejects_or_loadsAs_labelIndex :
    ∃ header, prepare labelIndexRkyv (onlyPayload [3, 1, 4]) (labelIndexGraph [3, 1, 4]) =
        .ok (header, [3, 1, 4]) ∧
      (∀ file, file <+: image header [3, 1, 4] → file ≠ image header [3, 1, 4] →
        Rejects .dev labelIndexRkyv (onlyPayload [3, 1, 4]) file) ∧
      ∀ file, Damaged (image header [3, 1, 4]) file →
        Rejects .dev labelIndexRkyv (onlyPayload [3, 1, 4]) file ∨
          LoadsAs .dev labelIndexRkyv (onlyPayload [3, 1, 4]) file (labelIndexGraph [3, 1, 4]) := by
  refine ⟨_, rfl, ?_⟩
  refine rejects_or_loadsAs_of_damaged .dev labelIndexRkyv (onlyPayload [3, 1, 4]) rfl rfl
    (by decide) fun position byte hOther => ?_
  have hZero : onlyPayload [3, 1, 4] _ = 0 := if_neg hOther
  rw [hZero]
  decide

end Graph
end CodebaseMem
