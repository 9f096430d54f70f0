import CodebaseMem.Graph.Save

/-!
# Loading from a file and from a part of a file

`load` maps a whole file, `load_from` a window of an open file.  `serialized_size` tells
how long the image of a graph is, so images can be stored one after the other and loaded
from their windows.

The serialiser reads numbers of four bytes in place and refuses a buffer at an address
that is not a multiple of four.  A mapping of a whole file begins at a page, and the
payload 32 bytes behind it, so `load` never sees this.  A window begins `offset` bytes
behind a page: `load_from` reads an image only where the offset is a multiple of four,
and `loadFrom_images` says so in both directions.

The system calls fail here in one way only: a path that leads nowhere cannot be opened.
-/

namespace CodebaseMem
namespace Graph

open CodebaseMem.Core Library

/-- The errors of `load`. A path that leads nowhere cannot be opened; all else that is
wrong with a file is `InvalidData`. -/
inductive LoadError where
  | notFound
  | invalidData (error : InvalidData)
  deriving DecidableEq

section

variable (profile : Profile) (rkyv : Rkyv) (xxh3 : Xxh3)

/-- `load` with nothing else going on. -/
def load (files : Files) (path : Path) : Exec (Except LoadError MmapFrozenGraph) :=
  match files.contentAt path with
  | none => .ok (.error .notFound)
  | some mmap => do
      let result ← fromMmap profile rkyv xxh3 mmap
      .ok (result.mapError .invalidData)

variable {profile rkyv xxh3} in
/-- What a path holds decides what `load` returns: a mapping of a whole file is the
content of the inode, whatever names the inode has. -/
theorem load_of_contentAt {files : Files} {path : Path} {mmap : List UInt8}
    {result : Except InvalidData MmapFrozenGraph} (hContent : files.contentAt path = some mmap)
    (hLoad : fromMmap profile rkyv xxh3 mmap = .ok result) :
    load profile rkyv xxh3 files path = .ok (result.mapError .invalidData) := by
  rw [load, hContent]
  show (do
    let result ← fromMmap profile rkyv xxh3 mmap
    .ok (result.mapError LoadError.invalidData)) = _
  rw [hLoad, Exec.ok_bind]

/-- The alignment of the numbers in an archive. -/
def archiveAlign : Nat := 4

/-- The serialiser on a buffer at an address.  It is built without its `unaligned`
feature; `unaligned` is the text of the error. -/
def Rkyv.atAddress (rkyv : Rkyv) (unaligned : String) (address : Nat) : Rkyv where
  toBytes := rkyv.toBytes
  fromBytes := fun bytes =>
    if address % archiveAlign = 0 then rkyv.fromBytes bytes else .error unaligned

/-- `load_from` for the contents of an open file.  A window is mapped together with the
part of its page before it, so it begins at an address like its offset.  A mapping that
reaches beyond the end of the file may not be read there. -/
def loadFrom (unaligned : String) (contents : List UInt8) (offset len : Nat) :
    Exec (Except InvalidData MmapFrozenGraph) :=
  if offset + len ≤ contents.length then
    fromMmap profile (rkyv.atAddress unaligned (offset + headerSize)) xxh3
      ((contents.drop offset).take len)
  else
    .error .undefinedBehaviour

/-- The size in bytes of the serialized form of `graph`. -/
def serializedSize (graph : FrozenGraph) : Exec (Except String UInt64) :=
  match rkyv.toBytes graph with
  | .error text => .ok (.error text)
  | .ok bytes => do
      let size ← addUsize profile (UInt64.ofNat headerSize) (UInt64.ofNat bytes.length)
      .ok (.ok size)

/-- The bytes that `save` writes for a graph. -/
def imageOf (graph : FrozenGraph) : Option (List UInt8) :=
  match prepare rkyv xxh3 graph with
  | .error _ => none
  | .ok (header, payload) => some (image header payload)

/-- What the format relies on: the payload of a graph decodes to the graph, and fits
into memory. -/
structure RoundTrips (graph : FrozenGraph) : Prop where
  decodes : ∀ payload, rkyv.toBytes graph = .ok payload → rkyv.fromBytes payload = .ok graph
  fits : ∀ payload, rkyv.toBytes graph = .ok payload → payload.length < 2 ^ 63

variable {rkyv xxh3} {graph : FrozenGraph} {bytes : List UInt8}

theorem toBytes_of_prepare {header : FrozenGraphHeader} {payload : List UInt8}
    (hPrepare : prepare rkyv xxh3 graph = .ok (header, payload)) :
    rkyv.toBytes graph = .ok payload := by
  unfold prepare at hPrepare
  split at hPrepare
  · cases hPrepare
  · next found hBytes =>
      dsimp only at hPrepare
      split at hPrepare
      · cases hPrepare
      · cases hPrepare
        exact hBytes

theorem exists_payload_of_imageOf (hLaws : RoundTrips rkyv graph)
    (hImage : imageOf rkyv xxh3 graph = some bytes) :
    ∃ payload, rkyv.toBytes graph = .ok payload ∧ payload.length < 2 ^ 63 ∧
      rkyv.fromBytes payload = .ok graph ∧
      bytes = image (.new (UInt64.ofNat payload.length) (xxh3 payload)) payload := by
  unfold imageOf at hImage
  split at hImage
  · cases hImage
  · next header payload hPrepare =>
      obtain rfl := Option.some.inj hImage
      have hBytes := toBytes_of_prepare hPrepare
      have hFits := hLaws.fits payload hBytes
      have hHeader := (prepare_eq rkyv xxh3 hBytes (by omega)).symm.trans hPrepare
      obtain ⟨rfl, -⟩ := Prod.mk.inj (Except.ok.inj hHeader)
      exact ⟨payload, hBytes, hFits, hLaws.decodes payload hBytes, rfl⟩

theorem fromMmap_imageOf (hLaws : RoundTrips rkyv graph)
    (hImage : imageOf rkyv xxh3 graph = some bytes) (trailing : List UInt8) :
    fromMmap profile rkyv xxh3 (bytes ++ trailing) = .ok (.ok ⟨bytes ++ trailing, graph⟩) := by
  obtain ⟨payload, -, hFits, hDecodes, rfl⟩ := exists_payload_of_imageOf hLaws hImage
  exact fromMmap_newImage profile rkyv xxh3 hDecodes hFits trailing

/-- `serialized_size` is the length of the image, which is also what `save` returns. -/
theorem serializedSize_eq (hLaws : RoundTrips rkyv graph)
    (hImage : imageOf rkyv xxh3 graph = some bytes) :
    ∃ size, serializedSize profile rkyv graph = .ok (.ok size) ∧ size.toNat = bytes.length ∧
      ∀ files path, (save rkyv xxh3 files graph path).2 = some (.ok size) := by
  obtain ⟨payload, hBytes, hFits, -, rfl⟩ := exists_payload_of_imageOf hLaws hImage
  have hLength : (UInt64.ofNat payload.length).toNat = payload.length :=
    UInt64.toNat_ofNat_of_lt' (show payload.length < 2 ^ 64 by omega)
  have hStart : (UInt64.ofNat headerSize).toNat = headerSize := rfl
  refine ⟨UInt64.ofNat headerSize + UInt64.ofNat payload.length, ?_, ?_, fun files path => ?_⟩
  · rw [serializedSize, hBytes]
    dsimp only
    rw [addUsize_ok profile (by rw [hLength, hStart, headerSize]; omega), Exec.ok_bind]
  · calc (UInt64.ofNat headerSize + UInt64.ofNat payload.length).toNat
        = (headerSize + payload.length) % 2 ^ 64 := by rw [UInt64.toNat_add, hLength, hStart]
      _ = headerSize + payload.length := Nat.mod_eq_of_lt (by rw [headerSize]; omega)
      _ = (image (.new (UInt64.ofNat payload.length) (xxh3 payload)) payload).length := by
          rw [image, List.length_append, List.Vector.toList_length]
  · exact (save_spec (prepare_eq rkyv xxh3 hBytes (by omega)) files path).2

/-- The window of an image loads where its payload is aligned, and nowhere else. -/
theorem loadFrom_image (hLaws : RoundTrips rkyv graph)
    (hImage : imageOf rkyv xxh3 graph = some bytes) (unaligned : String)
    (before after : List UInt8) :
    loadFrom profile rkyv xxh3 unaligned (before ++ bytes ++ after) before.length bytes.length =
      .ok (if before.length % archiveAlign = 0 then .ok ⟨bytes, graph⟩
        else .error (.message unaligned)) := by
  obtain ⟨payload, -, hFits, hDecodes, rfl⟩ := exists_payload_of_imageOf hLaws hImage
  -- the header does not change the alignment
  have hAligned : (before.length + headerSize) % archiveAlign = 0 ↔
      before.length % archiveAlign = 0 := by
    rw [headerSize, archiveAlign]
    omega
  have hLoad := fromMmap_newImage_eq profile
    (rkyv.atAddress unaligned (before.length + headerSize)) xxh3 hFits []
  rw [List.append_nil] at hLoad
  rw [loadFrom, if_pos (by simp), List.append_assoc, List.drop_left, List.take_left, hLoad,
    Rkyv.atAddress]
  dsimp only
  -- the serialiser reads the payload exactly where it is aligned
  by_cases hHere : before.length % archiveAlign = 0
  · rw [if_pos (hAligned.mpr hHere), if_pos hHere, hDecodes]
  · rw [if_neg (mt hAligned.mp hHere), if_neg hHere]

/-- Images that are stored one after the other load from the windows that their
serialised sizes give, exactly where these begin at multiples of four. -/
theorem loadFrom_images {graphs : List FrozenGraph} {images : List (List UInt8)}
    {sizes : List UInt64} (hLaws : ∀ graph ∈ graphs, RoundTrips rkyv graph)
    (hImages : List.Forall₂ (fun graph bytes => imageOf rkyv xxh3 graph = some bytes) graphs images)
    (hSizes : List.Forall₂ (fun graph size => serializedSize profile rkyv graph = .ok (.ok size))
      graphs sizes) (unaligned : String) (before after : List UInt8) (i : Nat)
    (hi : i < graphs.length) :
    ∃ bytes size, imageOf rkyv xxh3 graphs[i] = some bytes ∧ sizes[i]? = some size ∧
      let offset := before.length + ((sizes.take i).map UInt64.toNat).sum
      loadFrom profile rkyv xxh3 unaligned (before ++ images.flatten ++ after) offset
          size.toNat =
        .ok (if offset % archiveAlign = 0 then .ok ⟨bytes, graphs[i]⟩
          else .error (.message unaligned)) := by
  induction hImages generalizing sizes before i with
  | nil => cases hi
  | @cons graph bytes graphs images hImage hImages ih =>
      cases hSizes with
      | @cons _ size _ sizes hSize hSizes =>
          have hHere := hLaws graph List.mem_cons_self
          obtain ⟨size', hSize', hLength, -⟩ := serializedSize_eq profile hHere hImage
          obtain rfl : size = size' := by
            rw [hSize] at hSize'
            cases hSize'
            rfl
          cases i with
          | zero =>
              refine ⟨bytes, size, hImage, rfl, ?_⟩
              have hLoad := loadFrom_image profile hHere hImage unaligned before
                (images.flatten ++ after)
              simpa [hLength, List.append_assoc] using hLoad
          | succ i =>
              obtain ⟨found, foundSize, hFound, hFoundSize, hLoad⟩ :=
                ih (fun later hLater => hLaws later (List.mem_cons_of_mem _ hLater)) hSizes
                  (before ++ bytes) i (by simpa using hi)
              refine ⟨found, foundSize, hFound, hFoundSize, ?_⟩
              -- the first image becomes a part of what stands before the others
              have hOffset : before.length + (((size :: sizes).take (i + 1)).map UInt64.toNat).sum =
                  (before ++ bytes).length + ((sizes.take i).map UInt64.toNat).sum := by
                simp [hLength, Nat.add_assoc]
              have hContents : before ++ (bytes :: images).flatten ++ after =
                  before ++ bytes ++ images.flatten ++ after := by simp
              rw [hOffset, hContents]
              exact hLoad

end

theorem roundTrips_labelIndexGraph (bytes : List UInt8) (hFits : bytes.length < 2 ^ 63) :
    RoundTrips labelIndexRkyv (labelIndexGraph bytes) where
  decodes := by
    intro payload hBytes
    cases hBytes
    rfl
  fits := by
    intro payload hBytes
    cases hBytes
    exact hFits

/-- The second of two images loads behind three other bytes, where it begins at offset 36,
and does not load behind one. -/
theorem loadFrom_images_two : ∃ first bytes size,
    imageOf labelIndexRkyv byteSum (labelIndexGraph [1]) = some first ∧
      imageOf labelIndexRkyv byteSum (labelIndexGraph [2, 2]) = some bytes ∧
      ([33, 34] : List UInt64)[1]? = some size ∧
      loadFrom .dev labelIndexRkyv byteSum "unaligned" ([7, 7, 7] ++ [first, bytes].flatten ++ [8])
        36 size.toNat = .ok (.ok ⟨bytes, labelIndexGraph [2, 2]⟩) ∧
      loadFrom .dev labelIndexRkyv byteSum "unaligned" ([7] ++ [first, bytes].flatten ++ [8])
        34 size.toNat = .ok (.error (.message "unaligned")) := by
  have hLaws : ∀ graph ∈ [labelIndexGraph [1], labelIndexGraph [2, 2]],
      RoundTrips labelIndexRkyv graph := by
    intro graph hGraph
    rcases List.mem_cons.mp hGraph with rfl | hGraph
    · exact roundTrips_labelIndexGraph _ (by decide)
    · rw [List.mem_singleton.mp hGraph]
      exact roundTrips_labelIndexGraph _ (by decide)
  have hLoads := fun before : List UInt8 => @loadFrom_images .dev labelIndexRkyv byteSum
    [labelIndexGraph [1], labelIndexGraph [2, 2]] _ [33, 34] hLaws
    (.cons rfl (.cons rfl .nil)) (.cons rfl (.cons rfl .nil)) "unaligned" before [8] 1 (by decide)
  obtain ⟨bytes, size, hImage, hSize, hAligned⟩ := hLoads [7, 7, 7]
  obtain ⟨bytes', size', hImage', hSize', hMisaligned⟩ := hLoads [7]
  obtain rfl : bytes = bytes' := Option.some.inj (hImage.symm.trans hImage')
  obtain rfl : size = size' := Option.some.inj (hSize.symm.trans hSize')
  cases hImage
  -- the offsets are 3 + 33 and 1 + 33
  have hLoaded := hAligned.trans (congrArg Except.ok (if_pos (by decide)))
  have hRefused := hMisaligned.trans (congrArg Except.ok (if_neg (by decide)))
  exact ⟨_, _, size, rfl, rfl, hSize, hLoaded, hRefused⟩

end Graph
end CodebaseMem
