import CodebaseMem.Graph.FrozenGraph
import CodebaseMem.Graph.Header

/-!
# Saving and loading a graph

A saved graph is a header followed by the payload.  Loading checks the header,
cuts the payload out of the file by the length the header gives, compares the
checksum and decodes.  The serialiser and the hash function come from other
libraries and are parameters.

* `prepare`, `image`: what `save` computes before it opens a file, and the bytes of a
  complete file.
* `readHeader`, `loadPayload`, `fromMmap`: loading, with its panics and its errors.
* `fromMmap_eq`, `loadPayload_of_le` and the lemmas beside them: what loading does in each
  case of the header and of the payload length.
* `fromMmap_image`: a saved graph loads again, whatever bytes follow it.
* `loadsWithoutPanic_iff`: loading panics exactly on a valid header whose payload length
  overflows with the header size.

A mapping of a whole file begins at a page, so alignment plays no part in this module.
The module on loading has the windows, where it does.
-/

namespace CodebaseMem
namespace Graph

open CodebaseMem.Core Library

/-- The serialiser, with the texts of its errors.  It sees the bytes of the payload and
no address; reading from an address is modelled where windows of a file are loaded. -/
structure Rkyv where
  toBytes : FrozenGraph → Except String (List UInt8)
  fromBytes : List UInt8 → Except String FrozenGraph

/-- `xxh3_64`. -/
abbrev Xxh3 := List UInt8 → UInt64

inductive SaveError where
  | serialization (text : String)
  | io
  deriving DecidableEq, Repr

/-- What an `std::io::Error` of kind `InvalidData` wraps. -/
inductive InvalidData where
  | message (text : String)
  | header (error : HeaderError)
  deriving DecidableEq

/-- A loaded graph and the mapping it was loaded from.  The graph is deserialised into
memory of its own, and the mapping is kept beside it. -/
structure MmapFrozenGraph where
  mmap : List UInt8
  graph : FrozenGraph

/-- `u64::try_from` of a length. -/
def u64TryFrom (n : Nat) : Option UInt64 :=
  if n < 2 ^ 64 then some (UInt64.ofNat n) else none

/-- `<[u8; n]>::try_from` of a slice. -/
def tryIntoBytes (n : Nat) (bytes : List UInt8) : Option (Bytes n) :=
  if h : bytes.length = n then some ⟨bytes, h⟩ else none

section

variable (profile : Profile) (rkyv : Rkyv) (xxh3 : Xxh3)

/-- The part of `save` before it opens a file: the header and the payload.  An error here
leaves the file system alone. -/
def prepare (graph : FrozenGraph) : Except SaveError (FrozenGraphHeader × List UInt8) :=
  match rkyv.toBytes graph with
  | .error text => .error (.serialization text)
  | .ok bytes =>
      let checksum := xxh3 bytes
      match u64TryFrom bytes.length with
      | none => .error (.serialization "graph exceeds 2^64 bytes")
      | some payloadLen => .ok (.new payloadLen checksum, bytes)

/-- The bytes of a complete file. -/
def image (header : FrozenGraphHeader) (payload : List UInt8) : List UInt8 :=
  header.toBytes.toList ++ payload

/-- `from_bytes((&mmap[..HEADER_SIZE]).try_into().unwrap())`. -/
def readHeader (mmap : List UInt8) : Exec FrozenGraphHeader := do
  let bytes ← slice mmap 0 headerSize
  let buf ← expect (tryIntoBytes headerSize bytes)
  .ok (.fromBytes buf)

/-- The part of `from_mmap` that follows a valid header. -/
def loadPayload (mmap : List UInt8) (header : FrozenGraphHeader) :
    Exec (Except InvalidData MmapFrozenGraph) := do
  let payloadStart := UInt64.ofNat headerSize
  let payloadLen := header.payloadLen
  let payloadEnd ← addUsize profile payloadStart payloadLen
  if mmap.length < payloadEnd.toNat then
    .ok (.error (.header (.payloadTruncated header.payloadLen
      (UInt64.ofNat (mmap.length - headerSize)))))
  else
    let payload ← slice mmap payloadStart.toNat payloadEnd.toNat
    let computed := xxh3 payload
    if computed ≠ header.checksum then
      .ok (.error (.header (.checksumMismatch header.checksum computed)))
    else
      match rkyv.fromBytes payload with
      | .error text => .ok (.error (.message text))
      | .ok graph => .ok (.ok ⟨mmap, graph⟩)

def fromMmap (mmap : List UInt8) : Exec (Except InvalidData MmapFrozenGraph) :=
  if mmap.length < headerSize then
    .ok (.error (.message ("file too small: " ++ toString mmap.length ++
      " bytes, expected at least " ++ toString headerSize)))
  else do
    let header ← readHeader mmap
    match header.validate with
    | some e => .ok (.error (.header e))
    | none => loadPayload profile rkyv xxh3 mmap header

/-! ### What loading does, case by case -/

/-- The first bytes of a file that is long enough for a header. -/
def leadingBytes (mmap : List UInt8) (hLen : headerSize ≤ mmap.length) : Bytes headerSize :=
  ⟨mmap.take headerSize, by rw [List.length_take]; omega⟩

/-- The header of a file that is long enough for one. -/
def headerOf (mmap : List UInt8) (hLen : headerSize ≤ mmap.length) : FrozenGraphHeader :=
  .fromBytes (leadingBytes mmap hLen)

/-- The bytes that a header of this payload length declares to be the payload. -/
def payloadWindow (mmap : List UInt8) (payloadLen : UInt64) : List UInt8 :=
  (mmap.take (headerSize + payloadLen.toNat)).drop headerSize

/-- The comparison and the decoding once the payload is cut out. -/
def checkPayload (mmap : List UInt8) (header : FrozenGraphHeader) :
    Except InvalidData MmapFrozenGraph :=
  let payload := payloadWindow mmap header.payloadLen
  if xxh3 payload ≠ header.checksum then
    .error (.header (.checksumMismatch header.checksum (xxh3 payload)))
  else
    match rkyv.fromBytes payload with
    | .error text => .error (.message text)
    | .ok graph => .ok ⟨mmap, graph⟩

variable {mmap : List UInt8}

theorem fromMmap_of_short (hShort : mmap.length < headerSize) :
    ∃ e, fromMmap profile rkyv xxh3 mmap = .ok (.error e) := by
  rw [fromMmap, if_pos hShort]
  exact ⟨_, rfl⟩

theorem readHeader_eq (hLen : headerSize ≤ mmap.length) :
    readHeader mmap = .ok (headerOf mmap hLen) := by
  have hTake : (mmap.take headerSize).length = headerSize := by
    rw [List.length_take]
    omega
  rw [readHeader, slice_ok (by omega) hLen, Exec.ok_bind, List.drop_zero, tryIntoBytes,
    dif_pos hTake]
  rfl

/-- A file of at least 32 bytes is judged by its header first.  The slice and the array
conversion in front of it cannot fail. -/
theorem fromMmap_eq (hLen : headerSize ≤ mmap.length) :
    fromMmap profile rkyv xxh3 mmap =
      match (headerOf mmap hLen).validate with
      | some e => .ok (.error (.header e))
      | none => loadPayload profile rkyv xxh3 mmap (headerOf mmap hLen) := by
  rw [fromMmap, if_neg (by omega), readHeader_eq hLen, Exec.ok_bind]

theorem toNat_payloadEnd {payloadLen : UInt64} (hFits : payloadLen.toNat + headerSize < 2 ^ 64) :
    (UInt64.ofNat headerSize + payloadLen).toNat = headerSize + payloadLen.toNat := by
  have hStart : (UInt64.ofNat headerSize).toNat = headerSize := rfl
  rw [UInt64.toNat_add, hStart, Nat.mod_eq_of_lt (by omega)]

/-- A payload length near the top of the range panics: the sum overflows under
overflow checks, and without them wraps around to an end before the start. -/
theorem loadPayload_of_overflow (hLen : headerSize ≤ mmap.length)
    {header : FrozenGraphHeader} (hOverflow : 2 ^ 64 ≤ header.payloadLen.toNat + headerSize) :
    loadPayload profile rkyv xxh3 mmap header = .error .panic := by
  have hTop : header.payloadLen.toNat < 2 ^ 64 := header.payloadLen.toNat_lt
  have hStart : (UInt64.ofNat headerSize).toNat = headerSize := rfl
  rw [loadPayload]
  dsimp only
  rw [addUsize_eq_ite, hStart]
  cases profile with
  | dev =>
      -- the addition itself panics
      rw [if_neg (by simp; omega)]
      rfl
  | release =>
      -- the sum wraps around, the length test passes and the slice is reversed
      have hEnd : (UInt64.ofNat headerSize + header.payloadLen).toNat < headerSize := by
        rw [UInt64.toNat_add, hStart]
        omega
      rw [if_pos (.inl rfl), Exec.ok_bind, if_neg (by omega), slice_panic (by omega)]
      rfl

theorem loadPayload_of_truncated {header : FrozenGraphHeader}
    (hFits : header.payloadLen.toNat + headerSize < 2 ^ 64)
    (hTruncated : mmap.length < header.payloadLen.toNat + headerSize) :
    loadPayload profile rkyv xxh3 mmap header =
      .ok (.error (.header (.payloadTruncated header.payloadLen
        (UInt64.ofNat (mmap.length - headerSize))))) := by
  have hStart : (UInt64.ofNat headerSize).toNat = headerSize := rfl
  rw [loadPayload]
  dsimp only
  rw [addUsize_ok profile (by omega), Exec.ok_bind, toNat_payloadEnd hFits, if_pos (by omega)]

theorem loadPayload_of_le {header : FrozenGraphHeader}
    (hFits : header.payloadLen.toNat + headerSize < 2 ^ 64)
    (hInside : header.payloadLen.toNat + headerSize ≤ mmap.length) :
    loadPayload profile rkyv xxh3 mmap header = .ok (checkPayload rkyv xxh3 mmap header) := by
  have hStart : (UInt64.ofNat headerSize).toNat = headerSize := rfl
  rw [loadPayload]
  dsimp only
  rw [addUsize_ok profile (by omega), Exec.ok_bind, toNat_payloadEnd hFits, if_neg (by omega),
    hStart, slice_ok (by omega) (by omega), Exec.ok_bind, checkPayload,
    payloadWindow]
  split
  · rfl
  · split <;> simp [*]

/-! ### Loading undoes saving -/

theorem prepare_eq {graph : FrozenGraph} {payload : List UInt8}
    (hBytes : rkyv.toBytes graph = .ok payload) (hLength : payload.length < 2 ^ 64) :
    prepare rkyv xxh3 graph =
      .ok (.new (UInt64.ofNat payload.length) (xxh3 payload), payload) := by
  rw [prepare, hBytes]
  dsimp only
  rw [u64TryFrom, if_pos hLength]

theorem headerOf_image (header : FrozenGraphHeader) (payload trailing : List UInt8)
    (hLen : headerSize ≤ (image header payload ++ trailing).length) :
    headerOf (image header payload ++ trailing) hLen = header := by
  have hBytes : leadingBytes (image header payload ++ trailing) hLen = header.toBytes := by
    apply List.Vector.eq
    rw [leadingBytes, List.Vector.toList_mk, image, List.append_assoc,
      List.take_left' (List.Vector.toList_length _)]
  rw [headerOf, hBytes, FrozenGraphHeader.fromBytes_toBytes]

theorem payloadWindow_image (header : FrozenGraphHeader) (payload trailing : List UInt8)
    {payloadLen : UInt64} (hLength : payloadLen.toNat = payload.length) :
    payloadWindow (image header payload ++ trailing) payloadLen = payload := by
  have hBytes : header.toBytes.toList.length = headerSize := List.Vector.toList_length _
  have hAll : (image header payload).length = headerSize + payload.length := by
    rw [image, List.length_append, hBytes]
  calc payloadWindow (image header payload ++ trailing) payloadLen
    _ = ((image header payload ++ trailing).take (headerSize + payload.length)).drop
          headerSize := by
      rw [payloadWindow, hLength]
    _ = (image header payload).drop headerSize := by rw [List.take_left' hAll]
    _ = payload := by rw [image, List.drop_left' hBytes]

/-- Of a file that starts with the image of a payload, the serialiser decides.  Nothing
is assumed of the serialiser here, so the lemma also serves for one that refuses an
address. -/
theorem fromMmap_newImage_eq {payload : List UInt8} (hLength : payload.length < 2 ^ 63)
    (trailing : List UInt8) :
    let mmap := image (.new (UInt64.ofNat payload.length) (xxh3 payload)) payload ++ trailing
    fromMmap profile rkyv xxh3 mmap =
      match rkyv.fromBytes payload with
      | .error text => .ok (.error (.message text))
      | .ok graph => .ok (.ok ⟨mmap, graph⟩) := by
  generalize hHeader : FrozenGraphHeader.new (UInt64.ofNat payload.length) (xxh3 payload) = header
  have hPayloadLen : header.payloadLen.toNat = payload.length := by
    rw [← hHeader, FrozenGraphHeader.new]
    exact UInt64.toNat_ofNat_of_lt' (show payload.length < 2 ^ 64 by omega)
  have hImage : (image header payload ++ trailing).length =
      headerSize + payload.length + trailing.length := by
    rw [image, List.length_append, List.length_append, List.Vector.toList_length]
  have hLen : headerSize ≤ (image header payload ++ trailing).length := by omega
  -- no check on the way fails: not the sum, not the header, not the length, not the hash
  have hSum : header.payloadLen.toNat + headerSize < 2 ^ 64 := by
    rw [hPayloadLen, headerSize]
    omega
  have hValid : header.validate = none := hHeader ▸ FrozenGraphHeader.validate_new _ _
  have hChecksum : header.checksum = xxh3 payload := by rw [← hHeader, FrozenGraphHeader.new]
  dsimp only
  rw [fromMmap_eq _ _ _ hLen, headerOf_image, hValid]
  dsimp only
  rw [loadPayload_of_le _ _ _ hSum (by omega), checkPayload,
    payloadWindow_image _ _ _ hPayloadLen, hChecksum, if_neg (by simp)]
  cases rkyv.fromBytes payload with
  | error text => rfl
  | ok graph => rfl

theorem fromMmap_newImage {graph : FrozenGraph} {payload : List UInt8}
    (hDecodes : rkyv.fromBytes payload = .ok graph) (hLength : payload.length < 2 ^ 63)
    (trailing : List UInt8) :
    let mmap := image (.new (UInt64.ofNat payload.length) (xxh3 payload)) payload ++ trailing
    fromMmap profile rkyv xxh3 mmap = .ok (.ok ⟨mmap, graph⟩) := by
  intro mmap
  have hEq := fromMmap_newImage_eq profile rkyv xxh3 hLength trailing
  rwa [hDecodes] at hEq

/-- Loading the file that `save` writes for a graph, with any bytes after its end,
gives the graph back. -/
theorem fromMmap_image {graph : FrozenGraph} {payload : List UInt8}
    (hBytes : rkyv.toBytes graph = .ok payload)
    (hDecodes : rkyv.fromBytes payload = .ok graph)
    (hLength : payload.length < 2 ^ 63) (trailing : List UInt8) :
    ∃ header, prepare rkyv xxh3 graph = .ok (header, payload) ∧
      fromMmap profile rkyv xxh3 (image header payload ++ trailing) =
        .ok (.ok ⟨image header payload ++ trailing, graph⟩) :=
  ⟨_, prepare_eq rkyv xxh3 hBytes (by omega),
    fromMmap_newImage profile rkyv xxh3 hDecodes hLength trailing⟩

end

/-- A graph that holds nothing but the bytes of its label index. -/
def labelIndexGraph (bytes : List UInt8) : FrozenGraph where
  nodeLabels := []
  nodeNames := []
  nodeFiles := []
  nodeLines := []
  nodeColumns := []
  forwardOffsets := [0]
  forwardEdgeTargets := []
  forwardEdgeTypes := []
  revOffsets := [0]
  revEdgeSources := []
  revEdgeTypes := []
  interner := ⟨[]⟩
  labelIndexBytes := bytes
  qnIndex := HashMap.empty
  fileIndex := HashMap.empty
  bareNameFstBytes := []
  bareNameNodes := []

/-- A serialiser for graphs that hold nothing but their label index. -/
def labelIndexRkyv : Rkyv where
  toBytes := fun graph => .ok graph.labelIndexBytes
  fromBytes := fun bytes => .ok (labelIndexGraph bytes)

def byteSum : Xxh3 := fun bytes => UInt64.ofNat (bytes.map UInt8.toNat).sum

/-- Five bytes of payload, with two more bytes at the end of the file. -/
theorem fromMmap_image_labelIndex :
    ∃ header, prepare labelIndexRkyv byteSum (labelIndexGraph [3, 1, 4, 1, 5]) =
        .ok (header, [3, 1, 4, 1, 5]) ∧
      fromMmap .dev labelIndexRkyv byteSum (image header [3, 1, 4, 1, 5] ++ [9, 2]) =
        .ok (.ok ⟨image header [3, 1, 4, 1, 5] ++ [9, 2], labelIndexGraph [3, 1, 4, 1, 5]⟩) :=
  fromMmap_image .dev labelIndexRkyv byteSum rfl rfl (by decide) [9, 2]

/-! ### Loading never panics below the top of the range -/

section

variable (profile : Profile) (rkyv : Rkyv) (xxh3 : Xxh3)

/-- Loading returns, and reports a payload that ends beyond the file as
truncated. -/
def LoadsWithoutPanic (mmap : List UInt8) : Prop :=
  (∃ result, fromMmap profile rkyv xxh3 mmap = .ok result) ∧
    ∀ hLen : headerSize ≤ mmap.length, (headerOf mmap hLen).validate = none →
      mmap.length - headerSize < (headerOf mmap hLen).payloadLen.toNat →
      fromMmap profile rkyv xxh3 mmap =
        .ok (.error (.header (.payloadTruncated (headerOf mmap hLen).payloadLen
          (UInt64.ofNat (mmap.length - headerSize)))))

/-- Loading is free of panics on exactly the files that are too short, have an
invalid header or a payload length that the header size can be added to. -/
theorem loadsWithoutPanic_iff (mmap : List UInt8) :
    LoadsWithoutPanic profile rkyv xxh3 mmap ↔
      ∀ hLen : headerSize ≤ mmap.length, (headerOf mmap hLen).validate = none →
        (headerOf mmap hLen).payloadLen.toNat + headerSize < 2 ^ 64 := by
  constructor
  · -- a sum that overflows would end the load in a panic
    rintro ⟨⟨result, hResult⟩, -⟩ hLen hValid
    by_contra hOverflow
    rw [fromMmap_eq _ _ _ hLen, hValid] at hResult
    dsimp only at hResult
    rw [loadPayload_of_overflow _ _ _ hLen (by omega)] at hResult
    cases hResult
  · -- a file without an overflow is too short, invalid, truncated or compared
    intro hFits
    by_cases hLen : headerSize ≤ mmap.length
    · rw [LoadsWithoutPanic, fromMmap_eq _ _ _ hLen]
      cases hValidate : (headerOf mmap hLen).validate with
      | some e =>
          refine ⟨⟨_, rfl⟩, fun _ hValid => ?_⟩
          rw [hValidate] at hValid
          cases hValid
      | none =>
          have hSum := hFits hLen hValidate
          dsimp only
          by_cases hInside : (headerOf mmap hLen).payloadLen.toNat + headerSize ≤ mmap.length
          · rw [loadPayload_of_le _ _ _ hSum hInside]
            exact ⟨⟨_, rfl⟩, fun _ _ hBeyond => by omega⟩
          · rw [loadPayload_of_truncated _ _ _ hSum (by omega)]
            exact ⟨⟨_, rfl⟩, fun _ _ _ => rfl⟩
    · obtain ⟨e, hShort⟩ := fromMmap_of_short profile rkyv xxh3 (Nat.lt_of_not_le hLen)
      exact ⟨⟨_, hShort⟩, fun h => absurd h hLen⟩

end

/-- A file of one header whose payload length is the largest `u64`. -/
def maxPayloadFile : List UInt8 :=
  [0x43, 0x49, 0x46, 0x46, 1, 0, 0, 0] ++ List.replicate 8 0 ++ List.replicate 8 0xFF ++
    List.replicate 8 0

/-- The sum of its payload length and the header size overflows. -/
theorem not_loadsWithoutPanic_maxPayloadFile :
    ¬∀ (profile : Profile) (rkyv : Rkyv) (xxh3 : Xxh3) (mmap : List UInt8),
      LoadsWithoutPanic profile rkyv xxh3 mmap := by
  intro h
  obtain ⟨⟨result, hResult⟩, -⟩ := h .release labelIndexRkyv byteSum maxPayloadFile
  have hPanic : fromMmap .release labelIndexRkyv byteSum maxPayloadFile = .error .panic := rfl
  rw [hPanic] at hResult
  cases hResult

end Graph
end CodebaseMem
