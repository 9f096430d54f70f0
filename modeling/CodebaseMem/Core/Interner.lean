import CodebaseMem.Core.Bytes
import CodebaseMem.Core.Types
import CodebaseMem.Library.RecordBuffer
import Mathlib.Data.List.FinRange

/-!
# The string interner

Sixteen shards each keep a buffer of length-prefixed strings and a map from
every string in the buffer to the position of its record.  A handle packs the
index of the shard and the position in its buffer.

* `ShardInner.intern`, `StringInterner.intern`: the code, with the panic of a full shard.
* `ShardHolds`, `InternerHolds`: the invariant.  A shard stores the strings of a table,
  record behind record, and the map knows the position of each.
* `InternerHolds.intern`: one call keeps the invariant and every handle given so far;
  `InternerHolds.internAll` is the same for a run of calls.

The shard of a string is the low four bits of a hash.  No result depends on the hash, so
it is an arbitrary function `shardIndex` here.
-/

namespace CodebaseMem
namespace Core

open Library

abbrev shardCount : Nat := 16

/-- Number of bits of a handle that hold the position in the shard. -/
def offsetBits : UInt32 := 28

/-- Mask for the position in the shard. -/
def offsetMask : UInt32 := (1 <<< offsetBits) - 1

/-- Maximum number of bytes of a shard buffer, 256 MiB. -/
def maxShardBytes : UInt32 := 1 <<< offsetBits

structure ShardInner where
  buf : List UInt8
  dedup : HashMap String UInt32

namespace ShardInner

def new : ShardInner where
  buf := []
  dedup := HashMap.empty

/-- Position of `s` in the buffer, which is extended when `s` is new.  The two `expect`
calls and the assertion come before any change, so a panic leaves the shard as it was.
-/
def intern (shard : ShardInner) (s : String) : Exec (ShardInner × UInt32) :=
  match shard.dedup s with
  | some offset => .ok (shard, offset)
  | none => do
      let sLen ← expect (u32TryFrom (utf8 s).length)
      let offset ← expect (u32TryFrom shard.buf.length)
      assert (decide
        (saturatingAddU32 (saturatingAddU32 offset 4) sLen ≤ maxShardBytes))
      .ok ({ buf := shard.buf ++ u32ToLeBytes sLen ++ utf8 s
             dedup := shard.dedup.insert s offset }, offset)

end ShardInner

/-- Pack a shard index and a position in the shard into a handle. -/
def encodeHandle (shardIdx : Fin shardCount) (localOffset : UInt32) : InternedStr :=
  ⟨UInt32.ofNat shardIdx.val <<< offsetBits ||| localOffset⟩

structure StringInterner where
  shards : Fin shardCount → ShardInner

namespace StringInterner

def new : StringInterner where
  shards := fun _ => ShardInner.new

def intern (shardIndex : String → Fin shardCount) (interner : StringInterner) (s : String) :
    Exec (StringInterner × InternedStr) := do
  let shardIdx := shardIndex s
  let (shard, localOffset) ← (interner.shards shardIdx).intern s
  .ok ({ shards := Function.update interner.shards shardIdx shard },
    encodeHandle shardIdx localOffset)

/-- A run of `intern` calls, with the handles they return. -/
def internAll (shardIndex : String → Fin shardCount) :
    StringInterner → List String → Exec (StringInterner × List InternedStr)
  | interner, [] => .ok (interner, [])
  | interner, s :: calls => do
      let (interner, handle) ← interner.intern shardIndex s
      let (interner, handles) ← internAll shardIndex interner calls
      .ok (interner, handle :: handles)

def totalBytes (interner : StringInterner) : Nat :=
  ((List.finRange shardCount).map fun i => (interner.shards i).buf.length).sum

end StringInterner

/-!
## The shard invariant

A shard stores a list of distinct strings.  Its map knows the position of each
of them, and nothing else.
-/

/-- `shard` stores exactly the strings of `table`, in the order in which they
were interned first. -/
structure ShardHolds (shard : ShardInner) (table : List String) : Prop where
  buf : shard.buf = records utf8 table
  nodup : table.Nodup
  dedup : ∀ s offset, shard.dedup s = some offset ↔ RecordAt utf8 table offset.toNat s
  size : shard.buf.length ≤ 2 ^ 28

theorem shardHolds_new : ShardHolds ShardInner.new [] where
  buf := rfl
  nodup := List.nodup_nil
  dedup := by
    intro s offset
    constructor
    · intro h
      simp [ShardInner.new] at h
    · rintro ⟨before, rest, hNil, -⟩
      simp at hNil
  size := by simp [ShardInner.new]

theorem ShardHolds.not_mem {shard : ShardInner} {table : List String}
    (h : ShardHolds shard table) {s : String} (hNew : shard.dedup s = none) :
    s ∉ table := by
  intro hMem
  obtain ⟨position, hRecord⟩ := exists_recordAt_of_mem utf8 hMem
  have hSize := h.size
  rw [h.buf] at hSize
  -- the record would lie within the buffer, so the map would know its position
  have hPosition : position < 2 ^ 32 := by
    have := hRecord.add_length_le
    omega
  have hLookup := (h.dedup s (UInt32.ofNat position)).mpr
    (by rwa [toNat_ofNat_u32 hPosition])
  rw [hNew] at hLookup
  cases hLookup

/-- What an `intern` call does to a shard: it finds the string, or it appends
its record when there is room. -/
theorem ShardInner.intern_cases {shard shard' : ShardInner} {s : String} {offset : UInt32}
    (hIntern : shard.intern s = .ok (shard', offset)) :
    (shard.dedup s = some offset ∧ shard' = shard) ∨
      (shard.dedup s = none ∧ offset.toNat = shard.buf.length ∧
        shard.buf.length + 4 + (utf8 s).length ≤ 2 ^ 28 ∧
        shard'.buf = shard.buf ++ record utf8 s ∧
        shard'.dedup = shard.dedup.insert s offset) := by
  unfold ShardInner.intern at hIntern
  split at hIntern
  · next found hFound =>
      obtain ⟨rfl, rfl⟩ := Prod.mk.inj (Except.ok.inj hIntern)
      exact Or.inl ⟨hFound, rfl⟩
  · next hNew =>
      obtain ⟨sLen, hLen, hIntern⟩ := Exec.of_bind_eq_ok hIntern
      obtain ⟨start, hStart, hIntern⟩ := Exec.of_bind_eq_ok hIntern
      obtain ⟨_, hRoom, hIntern⟩ := Exec.of_bind_eq_ok hIntern
      obtain ⟨rfl, rfl⟩ := Prod.mk.inj (Except.ok.inj hIntern)
      have hLenNat := toNat_of_u32TryFrom (expect_eq_ok_iff.mp hLen)
      have hStartNat := toNat_of_u32TryFrom (expect_eq_ok_iff.mp hStart)
      -- the additions saturate far above the limit of `2 ^ 28`, so below it
      -- they are exact
      rw [assert_eq_ok_iff, decide_eq_true_eq, UInt32.le_iff_toNat_le,
        toNat_saturatingAddU32, toNat_saturatingAddU32] at hRoom
      have hMax : maxShardBytes.toNat = 2 ^ 28 := by decide
      have hFour : (4 : UInt32).toNat = 4 := rfl
      refine Or.inr ⟨hNew, hStartNat, by omega, ?_, rfl⟩
      rw [record, ← hLenNat, List.append_assoc]
      rfl

theorem ShardHolds.concat {shard shard' : ShardInner} {table : List String} {s : String}
    {offset : UInt32} (h : ShardHolds shard table) (hNew : s ∉ table)
    (hOffset : offset.toNat = shard.buf.length)
    (hRoom : shard.buf.length + 4 + (utf8 s).length ≤ 2 ^ 28)
    (hBuf : shard'.buf = shard.buf ++ record utf8 s)
    (hDedup : shard'.dedup = shard.dedup.insert s offset) :
    ShardHolds shard' (table ++ [s]) := by
  have hNodup : (table ++ [s]).Nodup := by
    rw [← List.concat_eq_append]
    exact h.nodup.concat hNew
  have hNewest : RecordAt utf8 (table ++ [s]) offset.toNat s := by
    rw [hOffset, h.buf]
    exact recordAt_concat utf8 table s
  refine ⟨?_, hNodup, ?_, ?_⟩
  · rw [hBuf, h.buf, records_append, records_cons, records_nil, List.append_nil]
  · intro s' offset'
    rw [hDedup]
    by_cases hs : s' = s
    · subst hs
      rw [HashMap.insert_self, Option.some_inj]
      constructor
      · rintro rfl
        exact hNewest
      · -- the table has no duplicates, so a string has one position
        intro hRecord
        exact UInt32.toNat_inj.mp (hNewest.position_unique hNodup hRecord)
    · rw [HashMap.insert_of_ne _ hs, h.dedup]
      constructor
      · intro hRecord
        exact hRecord.append [s]
      · -- the record of another string was there before the append
        intro hRecord
        have hOldMem : s' ∈ table :=
          (List.mem_append.mp hRecord.mem).resolve_right (by simpa using hs)
        obtain ⟨position, hOld⟩ := exists_recordAt_of_mem utf8 hOldMem
        rwa [← (hOld.append [s]).position_unique hNodup hRecord]
  · rw [hBuf, List.length_append, length_record]
    omega

/-- An `intern` call keeps the invariant and every record, stores at most its
own string, and returns the position of that string. -/
theorem ShardHolds.intern {shard shard' : ShardInner} {table : List String} {s : String}
    {offset : UInt32} (h : ShardHolds shard table)
    (hIntern : shard.intern s = .ok (shard', offset)) :
    ∃ added, ShardHolds shard' (table ++ added) ∧ (∀ s' ∈ added, s' = s) ∧
      RecordAt utf8 (table ++ added) offset.toNat s := by
  rcases ShardInner.intern_cases hIntern with
    ⟨hFound, rfl⟩ | ⟨hNone, hOffset, hRoom, hBuf, hDedup⟩
  · exact ⟨[], by simpa using h, by simp, by simpa using (h.dedup s offset).mp hFound⟩
  · refine ⟨[s], h.concat (h.not_mem hNone) hOffset hRoom hBuf hDedup, by simp, ?_⟩
    rw [hOffset, h.buf]
    exact recordAt_concat utf8 table s

/-- A handle into a shard that is not full leaves room for the shard index. -/
theorem ShardHolds.position_lt {shard : ShardInner} {table : List String} {position : Nat}
    {s : String} (h : ShardHolds shard table) (hRecord : RecordAt utf8 table position s) :
    position < 2 ^ 28 := by
  have hEnd := hRecord.add_length_le
  have hSize := h.size
  rw [h.buf] at hSize
  omega

/-!
## The invariant of the interner
-/

/-- Shard `i` stores the strings of `tables i`, all of which hash to `i`. So a string is
stored in one shard at most. -/
structure InternerHolds (shardIndex : String → Fin shardCount) (interner : StringInterner)
    (tables : Fin shardCount → List String) : Prop where
  shard : ∀ i, ShardHolds (interner.shards i) (tables i)
  hash : ∀ i, ∀ s ∈ tables i, shardIndex s = i

/-- `handle` packs the shard of `s` and the position of `s` in that shard. -/
def HandleOf (shardIndex : String → Fin shardCount) (tables : Fin shardCount → List String)
    (s : String) (handle : InternedStr) : Prop :=
  ∃ offset : UInt32, RecordAt utf8 (tables (shardIndex s)) offset.toNat s ∧
    handle = encodeHandle (shardIndex s) offset

/-- Every table of `tables'` extends the table of `tables`. -/
def TablesExtend (tables tables' : Fin shardCount → List String) : Prop :=
  ∀ i, ∃ added, tables' i = tables i ++ added

theorem TablesExtend.refl (tables : Fin shardCount → List String) :
    TablesExtend tables tables :=
  fun _ => ⟨[], (List.append_nil _).symm⟩

theorem TablesExtend.trans {tables tables' tables'' : Fin shardCount → List String}
    (h : TablesExtend tables tables') (h' : TablesExtend tables' tables'') :
    TablesExtend tables tables'' := by
  intro i
  obtain ⟨added, hAdded⟩ := h i
  obtain ⟨added', hAdded'⟩ := h' i
  exact ⟨added ++ added', by rw [hAdded', hAdded, List.append_assoc]⟩

theorem HandleOf.extend {shardIndex : String → Fin shardCount}
    {tables tables' : Fin shardCount → List String} {s : String} {handle : InternedStr}
    (h : HandleOf shardIndex tables s handle) (hExtend : TablesExtend tables tables') :
    HandleOf shardIndex tables' s handle := by
  obtain ⟨offset, hRecord, hHandle⟩ := h
  obtain ⟨added, hAdded⟩ := hExtend (shardIndex s)
  exact ⟨offset, hAdded ▸ hRecord.append added, hHandle⟩

theorem internerHolds_new (shardIndex : String → Fin shardCount) :
    InternerHolds shardIndex StringInterner.new fun _ => [] where
  shard := fun _ => shardHolds_new
  hash := by simp

theorem InternerHolds.intern {shardIndex : String → Fin shardCount}
    {interner interner' : StringInterner} {tables : Fin shardCount → List String}
    {s : String} {handle : InternedStr} (h : InternerHolds shardIndex interner tables)
    (hIntern : interner.intern shardIndex s = .ok (interner', handle)) :
    ∃ tables', InternerHolds shardIndex interner' tables' ∧ TablesExtend tables tables' ∧
      (∀ i, ∀ s' ∈ tables' i, s' ∈ tables i ∨ s' = s) ∧
      HandleOf shardIndex tables' s handle := by
  obtain ⟨⟨shard', offset⟩, hShard, hIntern⟩ := Exec.of_bind_eq_ok hIntern
  obtain ⟨rfl, rfl⟩ := Prod.mk.inj (Except.ok.inj hIntern)
  -- the shard of `s` gains at most `s`; no other shard is touched
  obtain ⟨added, hHolds, hOnly, hRecord⟩ := (h.shard (shardIndex s)).intern hShard
  refine ⟨Function.update tables (shardIndex s) (tables (shardIndex s) ++ added),
    ⟨?_, ?_⟩, ?_, ?_, offset, ?_, rfl⟩
  · intro i
    by_cases hi : i = shardIndex s
    · subst hi
      simpa using hHolds
    · simpa [hi] using h.shard i
  · intro i s' hMem
    by_cases hi : i = shardIndex s
    · subst hi
      rw [Function.update_self, List.mem_append] at hMem
      rcases hMem with hOld | hAdded
      · exact h.hash _ s' hOld
      · rw [hOnly s' hAdded]
    · rw [Function.update_of_ne hi] at hMem
      exact h.hash i s' hMem
  · intro i
    by_cases hi : i = shardIndex s
    · subst hi
      exact ⟨added, by rw [Function.update_self]⟩
    · exact ⟨[], by rw [Function.update_of_ne hi, List.append_nil]⟩
  · intro i s' hMem
    by_cases hi : i = shardIndex s
    · subst hi
      rw [Function.update_self, List.mem_append] at hMem
      exact hMem.imp_right (hOnly s')
    · rw [Function.update_of_ne hi] at hMem
      exact Or.inl hMem
  · rwa [Function.update_self]

theorem InternerHolds.internAll {shardIndex : String → Fin shardCount}
    {interner interner' : StringInterner} {tables : Fin shardCount → List String}
    {calls : List String} {handles : List InternedStr}
    (h : InternerHolds shardIndex interner tables)
    (hRun : StringInterner.internAll shardIndex interner calls = .ok (interner', handles)) :
    ∃ tables', InternerHolds shardIndex interner' tables' ∧ TablesExtend tables tables' ∧
      (∀ i, ∀ s ∈ tables' i, s ∈ tables i ∨ s ∈ calls) ∧
      List.Forall₂ (HandleOf shardIndex tables') calls handles := by
  induction calls generalizing interner tables handles with
  | nil =>
      obtain ⟨rfl, rfl⟩ := Prod.mk.inj (Except.ok.inj hRun)
      exact ⟨tables, h, .refl tables, fun _ _ => Or.inl, .nil⟩
  | cons s calls ih =>
      obtain ⟨⟨next, handle⟩, hFirst, hRun⟩ := Exec.of_bind_eq_ok hRun
      obtain ⟨⟨last, rest⟩, hRest, hRun⟩ := Exec.of_bind_eq_ok hRun
      obtain ⟨rfl, rfl⟩ := Prod.mk.inj (Except.ok.inj hRun)
      obtain ⟨middle, hMiddle, hExtend, hOnly, hHandle⟩ := h.intern hFirst
      obtain ⟨tables', hLast, hExtend', hOnly', hHandles⟩ := ih hMiddle hRest
      refine ⟨tables', hLast, hExtend.trans hExtend', ?_, .cons (hHandle.extend hExtend') hHandles⟩
      intro i s' hMem
      rcases hOnly' i s' hMem with hOld | hCall
      · rcases hOnly i s' hOld with hOlder | rfl
        · exact Or.inl hOlder
        · exact Or.inr List.mem_cons_self
      · exact Or.inr (List.mem_cons_of_mem _ hCall)

end Core
end CodebaseMem
