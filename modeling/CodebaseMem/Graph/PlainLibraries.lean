import CodebaseMem.Graph.BareNames

/-!
# Plain implementations of the two libraries

Bitmaps as lists of words, and maps as lists of entries that are written out
byte by byte.  They behave as the libraries do and can be evaluated, so they
instantiate the parameters in concrete runs.

* `plainRoaring`: sets of words, each word serialised as four bytes.
* `plainFst`: entries in ascending order, rejected where they do not ascend.
* `fstLaw_plainFst`: the plain map keeps what is relied on.  The law of the bitmaps is
  beside its statement, in the module on the label index.

No claim about the real libraries is made: their formats are others.
-/

namespace CodebaseMem
namespace Graph

open CodebaseMem.Core Library

/-- A list of words, each serialised as four bytes. -/
def plainRoaring : Roaring where
  Bitmap := List UInt32
  new := []
  insert := fun bitmap value => if value ∈ bitmap then bitmap else bitmap ++ [value]
  serializeInto := fun bitmap => some (bitmap.flatMap u32ToLeBytes)
  deserializeFrom := fun bytes =>
    some ((List.range (bytes.length / 4)).map fun i =>
      u32FromLeBytes ((bytes.drop (4 * i)).take 4))

/-- One entry: every byte of the key behind a one, a zero, and eight bytes for
the value. -/
def writeEntry (entry : List UInt8 × UInt64) : List UInt8 :=
  entry.1.flatMap (fun byte => [1, byte]) ++ 0 :: toLittleEndian 8 entry.2.toNat

/-- Read entries; `key` collects the key of the entry that is being read. -/
def readEntries (key : List UInt8) : List UInt8 → Option (List (List UInt8 × UInt64))
  | [] => if key.isEmpty then some [] else none
  | marker :: bytes =>
      if marker = 1 then
        match bytes with
        | byte :: bytes => readEntries (key ++ [byte]) bytes
        | [] => none
      else
        match bytes with
        | b₀ :: b₁ :: b₂ :: b₃ :: b₄ :: b₅ :: b₆ :: b₇ :: bytes =>
            (readEntries [] bytes).map fun entries =>
              (key, UInt64.ofNat (ofLittleEndian [b₀, b₁, b₂, b₃, b₄, b₅, b₆, b₇])) :: entries
        | _ => none

theorem readEntries_writeEntry (key : List UInt8) (entry : List UInt8 × UInt64)
    (bytes : List UInt8) :
    readEntries key (writeEntry entry ++ bytes) =
      (readEntries [] bytes).map fun entries => (key ++ entry.1, entry.2) :: entries := by
  obtain ⟨rest, value⟩ := entry
  induction rest generalizing key with
  | nil =>
      have hValue : ofLittleEndian (toLittleEndian 8 value.toNat) = value.toNat :=
        ofLittleEndian_toLittleEndian value.toNat_lt
      show (readEntries [] bytes).map (fun entries =>
        (key, UInt64.ofNat (ofLittleEndian (toLittleEndian 8 value.toNat))) :: entries) = _
      rw [hValue, UInt64.ofNat_toNat, List.append_nil]
  | cons byte rest ih =>
      have hStep : readEntries key (writeEntry (byte :: rest, value) ++ bytes) =
          readEntries (key ++ [byte]) (writeEntry (rest, value) ++ bytes) := by
        simp [writeEntry, readEntries]
      rw [hStep, ih (key ++ [byte])]
      simp

theorem readEntries_flatMap_writeEntry (entries : List (List UInt8 × UInt64)) :
    readEntries [] (entries.flatMap writeEntry) = some entries := by
  induction entries with
  | nil => rfl
  | cons entry entries ih =>
      rw [List.flatMap_cons, readEntries_writeEntry, ih]
      rfl

/-- Append an entry whose key is above the keys of `entries`. -/
def plainInsert (entries : List (List UInt8 × UInt64)) (key : List UInt8) (value : UInt64) :
    Option (List (List UInt8 × UInt64)) :=
  if ∀ entry ∈ entries, entry.1.map UInt8.toNat < key.map UInt8.toNat then
    some (entries ++ [(key, value)])
  else none

/-- A list of entries in ascending order. -/
def plainFst : Fst where
  MapBuilder := List (List UInt8 × UInt64)
  memory := []
  insert := plainInsert
  intoInner := fun builder => some (builder.flatMap writeEntry)
  Map := List (List UInt8 × UInt64)
  new := readEntries []
  get := fun map key => (map.find? fun entry => entry.1 = key).map Prod.snd

theorem foldlM_plainInsert {done rest : List (List UInt8 × UInt64)}
    (hAscending : (done ++ rest).Pairwise fun a b =>
      a.1.map UInt8.toNat < b.1.map UInt8.toNat) :
    rest.foldlM (fun entries entry => plainInsert entries entry.1 entry.2) done =
      some (done ++ rest) := by
  induction rest generalizing done with
  | nil => simp
  | cons entry rest ih =>
      have hAbove : ∀ earlier ∈ done,
          earlier.1.map UInt8.toNat < entry.1.map UInt8.toNat :=
        fun earlier hMem => (List.pairwise_append.mp hAscending).2.2 earlier hMem entry
          List.mem_cons_self
      have hSplit : done ++ entry :: rest = (done ++ [entry]) ++ rest := by simp
      rw [hSplit] at hAscending ⊢
      rw [List.foldlM_cons, plainInsert, if_pos hAbove]
      exact ih hAscending

theorem fstLaw_plainFst : FstLaw plainFst where
  build := by
    intro entries hAscending
    refine ⟨entries, entries.flatMap writeEntry, entries,
      @foldlM_plainInsert [] entries hAscending, rfl,
      readEntries_flatMap_writeEntry entries, fun key value => ?_⟩
    show (entries.find? fun entry => decide (entry.1 = key)).map Prod.snd = some value ↔ _
    rw [Option.map_eq_some_iff]
    constructor
    · rintro ⟨⟨key', value'⟩, hFind, rfl⟩
      have hKey : key' = key := by simpa using List.find?_some hFind
      rw [← hKey]
      exact List.mem_of_find?_eq_some hFind
    · intro hMem
      cases hFind : entries.find? fun entry => decide (entry.1 = key) with
      | none => simpa using List.find?_eq_none.mp hFind _ hMem
      | some entry =>
          have hKey : entry.1 = key := by simpa using List.find?_some hFind
          -- the keys ascend strictly, so the entry that is found is the only one of its key
          have hDistinct : entries.Pairwise fun a b => a.1 ≠ b.1 :=
            hAscending.imp fun hLess hEq => by
              rw [hEq] at hLess
              exact lt_irrefl _ hLess
          have : Std.Symm fun a b : List UInt8 × UInt64 => a.1 ≠ b.1 :=
            ⟨fun _ _ hDiff => hDiff.symm⟩
          refine ⟨entry, rfl, ?_⟩
          by_contra hValue
          refine hDistinct.forall (List.mem_of_find?_eq_some hFind) hMem ?_ hKey
          rintro rfl
          exact hValue rfl

end Graph
end CodebaseMem
