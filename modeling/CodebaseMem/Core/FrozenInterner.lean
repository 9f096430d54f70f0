import CodebaseMem.Core.Interner
import Mathlib.Data.List.Nodup

/-!
# The compacted interner

`compact` concatenates the shard buffers and relocates the handles: a position
in a shard becomes a position in the merged buffer.  `resolve` reads the record
at such a position.

* `FrozenHolds`: the frozen interner stores exactly some distinct strings.
* `InternerHolds.compact`: `compact` returns while the buffers fit into 32 bits together,
  and relocates every handle to the record of its string.
* `FrozenHolds.resolve`, `FrozenHolds.handle_eq_iff`: resolving gives the string, and
  relocated handles are equal exactly when the strings are.
* `resolve_remap_intern`: all of it together, for any run of `intern` calls and any
  assignment of strings to shards.

`resolve` does not check its handle.  A handle of another interner reads whatever stands
at its position, and nothing is claimed about it.
-/

namespace CodebaseMem
namespace Core

open Library

structure FrozenInterner where
  buf : List UInt8
  deriving DecidableEq, Repr

namespace FrozenInterner

/-- Resolve `handle` to the string it was interned from.  The length is read at the
position of the handle, and the bytes behind it are taken for UTF-8 without a check. -/
def resolve (frozen : FrozenInterner) (handle : InternedStr) : Exec String := do
  let offset := handle.val.toNat
  let lenBytes ← slice frozen.buf offset (offset + 4)
  let len := (u32FromLeBytes lenBytes).toNat
  let bytes ← slice frozen.buf (offset + 4) (offset + 4 + len)
  fromUtf8Unchecked bytes

def bufLen (frozen : FrozenInterner) : Nat := frozen.buf.length

end FrozenInterner

namespace StringInterner

/-- The global position at which each shard begins, and the end of the last
one: the prefix sums of the buffer lengths. -/
def shardStarts (profile : Profile) : UInt32 → List (List UInt8) → Exec (List UInt32)
  | start, [] => .ok [start]
  | start, buf :: bufs => do
      let next ← addU32 profile start (UInt32.ofNat buf.length)
      let starts ← shardStarts profile next bufs
      .ok (start :: starts)

/-- The closure that relocates a handle.  It unpacks the shard index and the position in
the shard, and adds the start of the shard in the merged buffer. -/
def remap (profile : Profile) (shardStart : List UInt32) (handle : InternedStr) :
    Exec InternedStr := do
  let shard := (handle.val >>> offsetBits).toNat
  let localOffset := handle.val &&& offsetMask
  let start ← index shardStart shard
  let position ← addU32 profile start localOffset
  .ok ⟨position⟩

def shardBufs (interner : StringInterner) : List (List UInt8) :=
  (List.finRange shardCount).map fun i => (interner.shards i).buf

/-- Compact all shard buffers into a single contiguous buffer. -/
def compact (profile : Profile) (interner : StringInterner) :
    Exec (FrozenInterner × (InternedStr → Exec InternedStr)) := do
  let shardStart ← shardStarts profile 0 interner.shardBufs
  .ok ({ buf := interner.shardBufs.flatten }, remap profile shardStart)

theorem totalBytes_eq (interner : StringInterner) :
    interner.totalBytes = interner.shardBufs.flatten.length := by
  rw [totalBytes, shardBufs, List.length_flatten, List.map_map]
  rfl

theorem shardStarts_ok (profile : Profile) (bufs : List (List UInt8)) (start : UInt32)
    (hFits : start.toNat + bufs.flatten.length < 2 ^ 32) :
    ∃ starts, shardStarts profile start bufs = .ok starts ∧
      ∀ i ≤ bufs.length, ∃ x, starts[i]? = some x ∧
        x.toNat = start.toNat + (bufs.take i).flatten.length := by
  induction bufs generalizing start with
  | nil =>
      refine ⟨[start], rfl, fun i hi => ?_⟩
      obtain rfl : i = 0 := by simpa using hi
      exact ⟨start, rfl, by simp⟩
  | cons buf bufs ih =>
      rw [List.flatten_cons, List.length_append] at hFits
      have hLen : (UInt32.ofNat buf.length).toNat = buf.length := toNat_ofNat_u32 (by omega)
      -- the first addition stays below `2 ^ 32`, and so does every later one
      have hNext : (start + UInt32.ofNat buf.length).toNat = start.toNat + buf.length := by
        rw [UInt32.toNat_add, hLen, Nat.mod_eq_of_lt (by omega)]
      obtain ⟨starts, hStarts, hExact⟩ :=
        ih (start + UInt32.ofNat buf.length) (by rw [hNext]; omega)
      refine ⟨start :: starts, ?_, ?_⟩
      · rw [shardStarts, addU32_ok profile (by omega), Exec.ok_bind, hStarts, Exec.ok_bind]
      · intro i hi
        cases i with
        | zero => exact ⟨start, rfl, by simp⟩
        | succ i =>
            obtain ⟨x, hx, hxNat⟩ := hExact i (by simpa using hi)
            refine ⟨x, by simpa using hx, ?_⟩
            rw [hxNat, hNext, List.take_succ_cons, List.flatten_cons, List.length_append]
            omega

end StringInterner

/-!
## Handles
-/

theorem toNat_encodeHandle (i : Fin shardCount) {offset : UInt32}
    (hOffset : offset.toNat < 2 ^ 28) :
    (encodeHandle i offset).val.toNat = 2 ^ 28 * i.val + offset.toNat := by
  have hIndex : i.val < 16 := i.isLt
  have hBits : offsetBits.toNat % 32 = 28 := by decide
  calc (encodeHandle i offset).val.toNat
    _ = i.val <<< 28 % 2 ^ 32 ||| offset.toNat := by
      rw [encodeHandle, UInt32.toNat_or, UInt32.toNat_shiftLeft, hBits, toNat_ofNat_u32 (by omega)]
    _ = 2 ^ 28 * i.val ||| offset.toNat := by
      rw [Nat.shiftLeft_eq, Nat.mod_eq_of_lt (by omega), Nat.mul_comm]
    -- the offset takes the low bits only
    _ = 2 ^ 28 * i.val + offset.toNat := (Nat.two_pow_add_eq_or_of_lt hOffset _).symm

theorem encodeHandle_unpack (i : Fin shardCount) {offset : UInt32}
    (hOffset : offset.toNat < 2 ^ 28) :
    ((encodeHandle i offset).val >>> offsetBits).toNat = i.val ∧
      ((encodeHandle i offset).val &&& offsetMask).toNat = offset.toNat := by
  have hBits : offsetBits.toNat % 32 = 28 := by decide
  have hMask : offsetMask.toNat = 2 ^ 28 - 1 := by decide
  constructor
  · calc ((encodeHandle i offset).val >>> offsetBits).toNat
      _ = (encodeHandle i offset).val.toNat / 2 ^ 28 := by
        rw [UInt32.toNat_shiftRight, hBits, Nat.shiftRight_eq_div_pow]
      _ = i.val := by
        rw [toNat_encodeHandle i hOffset]
        omega
  · calc ((encodeHandle i offset).val &&& offsetMask).toNat
      _ = (encodeHandle i offset).val.toNat % 2 ^ 28 := by
        rw [UInt32.toNat_and, hMask, Nat.and_two_pow_sub_one_eq_mod]
      _ = offset.toNat := by
        rw [toNat_encodeHandle i hOffset]
        omega

theorem encodeHandle_inj {i i' : Fin shardCount} {offset offset' : UInt32}
    (hOffset : offset.toNat < 2 ^ 28) (hOffset' : offset'.toNat < 2 ^ 28)
    (h : encodeHandle i offset = encodeHandle i' offset') : i = i' ∧ offset = offset' := by
  obtain ⟨hShard, hLocal⟩ := encodeHandle_unpack i hOffset
  obtain ⟨hShard', hLocal'⟩ := encodeHandle_unpack i' hOffset'
  rw [← h] at hShard' hLocal'
  exact ⟨Fin.ext (hShard.symm.trans hShard'), UInt32.toNat_inj.mp (hLocal.symm.trans hLocal')⟩

theorem InternerHolds.handle_eq_iff {shardIndex : String → Fin shardCount}
    {interner : StringInterner} {tables : Fin shardCount → List String} {s s' : String}
    {handle handle' : InternedStr} (h : InternerHolds shardIndex interner tables)
    (hHandle : HandleOf shardIndex tables s handle)
    (hHandle' : HandleOf shardIndex tables s' handle') : handle = handle' ↔ s = s' := by
  obtain ⟨offset, hRecord, rfl⟩ := hHandle
  obtain ⟨offset', hRecord', rfl⟩ := hHandle'
  constructor
  · intro hEq
    -- equal handles name one shard and one position in it
    obtain ⟨hShard, rfl⟩ := encodeHandle_inj ((h.shard _).position_lt hRecord)
      ((h.shard _).position_lt hRecord') hEq
    rw [← hShard] at hRecord'
    exact hRecord.item_unique hRecord'
  · rintro rfl
    have hOffset := hRecord.position_unique (h.shard _).nodup hRecord'
    rw [UInt32.toNat_inj.mp hOffset]

/-!
## The merged buffer
-/

/-- The strings of all shards, shard by shard. -/
def allStrings (tables : Fin shardCount → List String) : List String :=
  (List.finRange shardCount).flatMap tables

/-- `frozen` stores exactly the distinct strings `items`, in this order, and is shorter
than the range of 32-bit handles. -/
structure FrozenHolds (frozen : FrozenInterner) (items : List String) : Prop where
  buf : frozen.buf = records utf8 items
  nodup : items.Nodup
  size : frozen.buf.length < 2 ^ 32

theorem InternerHolds.shardBufs_flatten {shardIndex : String → Fin shardCount}
    {interner : StringInterner} {tables : Fin shardCount → List String}
    (h : InternerHolds shardIndex interner tables) :
    interner.shardBufs.flatten = records utf8 (allStrings tables) := by
  have hBufs : interner.shardBufs = (List.finRange shardCount).map fun i =>
      records utf8 (tables i) :=
    List.map_congr_left fun i _ => (h.shard i).buf
  rw [hBufs, allStrings, records, List.flatMap_assoc, List.flatMap_def]
  rfl

/-- The strings are distinct across shards, because a string determines its
shard. -/
theorem InternerHolds.nodup_allStrings {shardIndex : String → Fin shardCount}
    {interner : StringInterner} {tables : Fin shardCount → List String}
    (h : InternerHolds shardIndex interner tables) : (allStrings tables).Nodup := by
  rw [allStrings, List.nodup_flatMap]
  refine ⟨fun i _ => (h.shard i).nodup, (List.nodup_finRange shardCount).imp ?_⟩
  intro i j hij s hi hj
  exact hij ((h.hash i s hi).symm.trans (h.hash j s hj))

/-- A record of shard `i` sits in the merged buffer behind the buffers of the
shards before `i`. -/
theorem InternerHolds.recordAt_allStrings {shardIndex : String → Fin shardCount}
    {interner : StringInterner} {tables : Fin shardCount → List String}
    (h : InternerHolds shardIndex interner tables) (i : Fin shardCount) {position : Nat}
    {s : String} (hRecord : RecordAt utf8 (tables i) position s) :
    RecordAt utf8 (allStrings tables)
      ((interner.shardBufs.take i.val).flatten.length + position) s := by
  -- the strings before shard `i`, those of shard `i` and those after it
  have hSplit : allStrings tables =
      ((List.finRange shardCount).take i.val).flatMap tables ++ tables i ++
        ((List.finRange shardCount).drop (i.val + 1)).flatMap tables := by
    have hRange : List.finRange shardCount = (List.finRange shardCount).take i.val ++
        i :: (List.finRange shardCount).drop (i.val + 1) := by
      have hDrop := List.drop_eq_getElem_cons (l := List.finRange shardCount) (i := i.val)
        (by simp)
      rw [List.getElem_finRange, Fin.cast_mk] at hDrop
      rw [← hDrop, List.take_append_drop]
    conv_lhs => rw [allStrings, hRange]
    simp [List.flatMap_append]
  have hBefore : (interner.shardBufs.take i.val).flatten =
      records utf8 (((List.finRange shardCount).take i.val).flatMap tables) := by
    rw [StringInterner.shardBufs, ← List.map_take, records, List.flatMap_assoc,
      List.flatMap_def]
    congr 1
    exact List.map_congr_left fun j _ => (h.shard j).buf
  rw [hBefore, hSplit]
  exact (hRecord.append_left _).append _

/-- `compact` succeeds while the buffers fit into 32 bits together.  The frozen
interner stores the interned strings, and every handle is relocated to the
record of its string. -/
theorem InternerHolds.compact {shardIndex : String → Fin shardCount}
    {interner : StringInterner} {tables : Fin shardCount → List String}
    (profile : Profile) (h : InternerHolds shardIndex interner tables)
    (hTotal : interner.totalBytes < 2 ^ 32) :
    ∃ frozen remap, interner.compact profile = .ok (frozen, remap) ∧
      FrozenHolds frozen (allStrings tables) ∧
      ∀ s handle, HandleOf shardIndex tables s handle →
        ∃ stable, remap handle = .ok stable ∧
          RecordAt utf8 (allStrings tables) stable.val.toNat s := by
  rw [StringInterner.totalBytes_eq] at hTotal
  obtain ⟨starts, hStarts, hExact⟩ := StringInterner.shardStarts_ok profile interner.shardBufs 0
    (by simpa using hTotal)
  refine ⟨_, _, by rw [StringInterner.compact, hStarts]; rfl, ?_, ?_⟩
  · exact ⟨h.shardBufs_flatten, h.nodup_allStrings, hTotal⟩
  · rintro s handle ⟨offset, hRecord, rfl⟩
    have hOffset := (h.shard _).position_lt hRecord
    obtain ⟨hShard, hLocal⟩ := encodeHandle_unpack (shardIndex s) hOffset
    obtain ⟨x, hx, hxNat⟩ := hExact (shardIndex s).val
      (by simp [StringInterner.shardBufs])
    have hMerged := h.recordAt_allStrings (shardIndex s) hRecord
    have hSum : x.toNat + ((encodeHandle (shardIndex s) offset).val &&& offsetMask).toNat =
        (interner.shardBufs.take (shardIndex s).val).flatten.length + offset.toNat := by
      rw [hxNat, hLocal]
      simp
    -- the sum is a position in the merged buffer, so it does not overflow
    have hInside := hMerged.add_length_le
    rw [← h.shardBufs_flatten] at hInside
    refine ⟨⟨x + ((encodeHandle (shardIndex s) offset).val &&& offsetMask)⟩, ?_, ?_⟩
    · rw [StringInterner.remap, hShard, index_eq_ok_iff.mpr hx, Exec.ok_bind,
        addU32_ok profile (by omega), Exec.ok_bind]
    · rw [UInt32.toNat_add, hSum, Nat.mod_eq_of_lt (by omega)]
      exact hMerged

theorem FrozenHolds.resolve {frozen : FrozenInterner} {items : List String}
    {handle : InternedStr} {s : String} (h : FrozenHolds frozen items)
    (hRecord : RecordAt utf8 items handle.val.toNat s) : frozen.resolve handle = .ok s := by
  have hEnd := hRecord.add_length_le
  have hSize := h.size
  rw [h.buf] at hSize
  have hFits : (utf8 s).length < 2 ^ 32 := by omega
  rw [FrozenInterner.resolve, h.buf]
  simp only [slice_length_of_recordAt hRecord hFits, Exec.ok_bind, u32FromLeBytes_u32ToLeBytes]
  rw [toNat_ofNat_u32 hFits, slice_bytes_of_recordAt hRecord, Exec.ok_bind,
    fromUtf8Unchecked_utf8]

theorem FrozenHolds.handle_eq_iff {frozen : FrozenInterner} {items : List String}
    {handle handle' : InternedStr} {s s' : String} (h : FrozenHolds frozen items)
    (hRecord : RecordAt utf8 items handle.val.toNat s)
    (hRecord' : RecordAt utf8 items handle'.val.toNat s') : handle = handle' ↔ s = s' := by
  constructor
  · rintro rfl
    exact hRecord.item_unique hRecord'
  · rintro rfl
    exact InternedStr.toNat_inj.mp (hRecord.position_unique h.nodup hRecord')

/-!
## The round trip
-/

/-- Interning, compacting, relocating and resolving returns the string, and
handles are equal exactly when their strings are, before and after compaction. -/
theorem resolve_remap_intern (profile : Profile) (shardIndex : String → Fin shardCount)
    (calls : List String) {interner : StringInterner} {handles : List InternedStr}
    (hRun : StringInterner.internAll shardIndex StringInterner.new calls =
      .ok (interner, handles))
    (hTotal : interner.totalBytes < 2 ^ 32) :
    ∃ frozen remap, interner.compact profile = .ok (frozen, remap) ∧
      handles.length = calls.length ∧
      (∀ s h, (s, h) ∈ calls.zip handles →
        ∃ stable, remap h = .ok stable ∧ frozen.resolve stable = .ok s) ∧
      ∀ s₁ h₁ s₂ h₂, (s₁, h₁) ∈ calls.zip handles → (s₂, h₂) ∈ calls.zip handles →
        (h₁ = h₂ ↔ s₁ = s₂) ∧ (remap h₁ = remap h₂ ↔ s₁ = s₂) := by
  obtain ⟨tables, hHolds, -, -, hHandles⟩ := (internerHolds_new shardIndex).internAll hRun
  obtain ⟨frozen, remap, hCompact, hFrozen, hRemap⟩ := hHolds.compact profile hTotal
  have hHandleOf : ∀ s h, (s, h) ∈ calls.zip handles → HandleOf shardIndex tables s h :=
    fun _ _ hMem => (List.forall₂_iff_zip.mp hHandles).2 hMem
  refine ⟨frozen, remap, hCompact, hHandles.length_eq.symm, ?_, ?_⟩
  · intro s h hCall
    obtain ⟨stable, hStable, hRecord⟩ := hRemap s h (hHandleOf s h hCall)
    exact ⟨stable, hStable, hFrozen.resolve hRecord⟩
  · intro s₁ h₁ s₂ h₂ hCall₁ hCall₂
    refine ⟨hHolds.handle_eq_iff (hHandleOf _ _ hCall₁) (hHandleOf _ _ hCall₂), ?_⟩
    obtain ⟨stable₁, hStable₁, hRecord₁⟩ := hRemap s₁ h₁ (hHandleOf _ _ hCall₁)
    obtain ⟨stable₂, hStable₂, hRecord₂⟩ := hRemap s₂ h₂ (hHandleOf _ _ hCall₂)
    rw [hStable₁, hStable₂, Except.ok.injEq]
    exact hFrozen.handle_eq_iff hRecord₁ hRecord₂

/-- A run that interns a string twice, over two shards. -/
theorem resolve_remap_intern_repeated :
    ∃ interner handles,
      StringInterner.internAll (fun s => if s = "b" then 3 else 15) StringInterner.new
        ["ab", "b", "ab"] = .ok (interner, handles) ∧
      ∃ frozen remap, interner.compact .dev = .ok (frozen, remap) ∧
        ∀ s h, (s, h) ∈ ["ab", "b", "ab"].zip handles →
          ∃ stable, remap h = .ok stable ∧ frozen.resolve stable = .ok s := by
  refine ⟨_, _, rfl, ?_⟩
  obtain ⟨frozen, remap, hCompact, -, hResolve, -⟩ :=
    resolve_remap_intern .dev (fun s => if s = "b" then 3 else 15) ["ab", "b", "ab"] rfl
      (by decide)
  exact ⟨frozen, remap, hCompact, hResolve⟩

end Core
end CodebaseMem
