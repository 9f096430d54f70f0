import CodebaseMem.Core.Compaction
import Mathlib.Algebra.BigOperators.Fin
import Mathlib.Algebra.Order.BigOperators.Group.Finset
import Mathlib.Data.List.Induction

/-!
# What fits into the interner

A shard keeps one record for each distinct string that hashes to it.  So whether a
run of `intern` calls returns, and how long the buffers are when it does, depends
only on the set of strings, not on the order of the calls or on how often a string
is interned.

* `recordLen`, `shardDemand`: the bytes of one record, and of all records of a shard.
* `InternerHolds.exists_intern`: one more string can be interned exactly if its shard has
  room for it or has it already.
* `internAll_returns_iff`: a run returns exactly if every demand is at most `2 ^ 28`
  bytes, and then the demands are the lengths of the buffers.

The limit is the program's own.  That the machine runs out of memory before a shard is
full is not in the model.
-/

namespace CodebaseMem
namespace Core

open Library

/-- Number of bytes of the record of a string: four for the length, and the string. -/
def recordLen (s : String) : Nat := 4 + (utf8 s).length

/-- Number of bytes the strings of shard `i` take.  Each string counts once, however
often it is interned. -/
def shardDemand (shardIndex : String → Fin shardCount) (strings : Finset String)
    (i : Fin shardCount) : Nat :=
  ∑ s ∈ strings with shardIndex s = i, recordLen s

theorem shardDemand_mono (shardIndex : String → Fin shardCount) {strings strings' : Finset String}
    (hSub : strings ⊆ strings') (i : Fin shardCount) :
    shardDemand shardIndex strings i ≤ shardDemand shardIndex strings' i :=
  Finset.sum_le_sum_of_subset (Finset.filter_subset_filter _ hSub)

/-- One more string takes room in its own shard. -/
theorem shardDemand_insert (shardIndex : String → Fin shardCount) {strings : Finset String}
    {s : String} (hNew : s ∉ strings) :
    shardDemand shardIndex (insert s strings) (shardIndex s) =
      shardDemand shardIndex strings (shardIndex s) + recordLen s := by
  calc shardDemand shardIndex (insert s strings) (shardIndex s)
    _ = ∑ t ∈ insert s (strings.filter fun t => shardIndex t = shardIndex s), recordLen t := by
      rw [shardDemand, Finset.filter_insert, if_pos rfl]
    _ = recordLen s + shardDemand shardIndex strings (shardIndex s) :=
      Finset.sum_insert (by simp [hNew])
    _ = shardDemand shardIndex strings (shardIndex s) + recordLen s := Nat.add_comm _ _

/-- The shards share the strings out among them. -/
theorem sum_shardDemand (shardIndex : String → Fin shardCount) (strings : Finset String) :
    ∑ i, shardDemand shardIndex strings i = ∑ s ∈ strings, recordLen s :=
  Finset.sum_fiberwise strings shardIndex recordLen

theorem length_records_utf8 {table : List String} (hNodup : table.Nodup) :
    (records utf8 table).length = ∑ s ∈ table.toFinset, recordLen s := by
  rw [List.sum_toFinset recordLen hNodup, records, List.length_flatMap]
  congr 1
  exact List.map_congr_left fun s _ => length_record utf8 s

/-- A string that is stored, or for which there is room, can be interned.  These are the
only two ways: the assertion compares the end of the new record with the limit. -/
theorem ShardHolds.exists_intern {shard : ShardInner} {table : List String} {s : String}
    (h : ShardHolds shard table)
    (hRoom : s ∈ table ∨ shard.buf.length + recordLen s ≤ 2 ^ 28) :
    ∃ shard' offset, shard.intern s = .ok (shard', offset) := by
  unfold ShardInner.intern
  cases hLookup : shard.dedup s with
  | some offset => exact ⟨shard, offset, rfl⟩
  | none =>
      replace hRoom := hRoom.resolve_left (h.not_mem hLookup)
      rw [recordLen] at hRoom
      have hFits : saturatingAddU32 (saturatingAddU32 (UInt32.ofNat shard.buf.length) 4)
          (UInt32.ofNat (utf8 s).length) ≤ maxShardBytes := by
        have hMax : maxShardBytes.toNat = 2 ^ 28 := by decide
        have hFour : (4 : UInt32).toNat = 4 := rfl
        rw [UInt32.le_iff_toNat_le, toNat_saturatingAddU32, toNat_saturatingAddU32,
          toNat_ofNat_u32 (by omega), toNat_ofNat_u32 (by omega)]
        omega
      dsimp only
      rw [u32TryFrom_of_lt (by omega), expect_some, Exec.ok_bind, u32TryFrom_of_lt (by omega),
        expect_some, Exec.ok_bind, decide_eq_true hFits, assert_true, Exec.ok_bind]
      exact ⟨_, _, rfl⟩

/-- The tables hold exactly the strings of `strings`. -/
structure TablesOf (shardIndex : String → Fin shardCount) (tables : Fin shardCount → List String)
    (strings : Finset String) : Prop where
  mem : ∀ i s, s ∈ tables i ↔ s ∈ strings ∧ shardIndex s = i

theorem TablesOf.toFinset {shardIndex : String → Fin shardCount}
    {tables : Fin shardCount → List String} {strings : Finset String}
    (h : TablesOf shardIndex tables strings) (i : Fin shardCount) :
    (tables i).toFinset = strings.filter fun s => shardIndex s = i := by
  ext s
  rw [List.mem_toFinset, h.mem, Finset.mem_filter]

theorem InternerHolds.length_buf {shardIndex : String → Fin shardCount}
    {interner : StringInterner} {tables : Fin shardCount → List String}
    {strings : Finset String} (h : InternerHolds shardIndex interner tables)
    (hTables : TablesOf shardIndex tables strings) (i : Fin shardCount) :
    (interner.shards i).buf.length = shardDemand shardIndex strings i := by
  rw [(h.shard i).buf, length_records_utf8 (h.shard i).nodup, hTables.toFinset, shardDemand]

/-- An interner has room for a string exactly when the demand with it does not
exceed the limit. -/
theorem InternerHolds.exists_intern {shardIndex : String → Fin shardCount}
    {interner : StringInterner} {tables : Fin shardCount → List String}
    {strings : Finset String} {s : String} (h : InternerHolds shardIndex interner tables)
    (hTables : TablesOf shardIndex tables strings)
    (hRoom : shardDemand shardIndex (insert s strings) (shardIndex s) ≤ 2 ^ 28) :
    ∃ shard offset, (interner.shards (shardIndex s)).intern s = .ok (shard, offset) := by
  apply (h.shard (shardIndex s)).exists_intern
  by_cases hStored : s ∈ strings
  · exact Or.inl ((hTables.mem _ s).mpr ⟨hStored, rfl⟩)
  · rw [shardDemand_insert shardIndex hStored, ← h.length_buf hTables] at hRoom
    exact Or.inr hRoom

namespace StringInterner

theorem tablesOf_internAll {shardIndex : String → Fin shardCount} {calls : List String}
    {interner : StringInterner} {handles : List InternedStr}
    (hRun : internAll shardIndex StringInterner.new calls = .ok (interner, handles)) :
    ∃ tables, InternerHolds shardIndex interner tables ∧
      TablesOf shardIndex tables calls.toFinset ∧
      List.Forall₂ (HandleOf shardIndex tables) calls handles := by
  obtain ⟨tables, hHolds, -, hOnly, hHandles⟩ := (internerHolds_new shardIndex).internAll hRun
  refine ⟨tables, hHolds, ⟨fun i s => ?_⟩, hHandles⟩
  rw [List.mem_toFinset]
  constructor
  · intro hMem
    exact ⟨(hOnly i s hMem).resolve_left List.not_mem_nil, hHolds.hash i s hMem⟩
  · rintro ⟨hCall, rfl⟩
    obtain ⟨n, hn⟩ := List.mem_iff_getElem?.mp hCall
    obtain ⟨hLt, hGet⟩ := List.getElem?_eq_some_iff.mp hn
    have hLt' : n < handles.length := by rwa [← hHandles.length_eq]
    -- the handle of the call points to a record of the string
    obtain ⟨offset, hRecord, -⟩ := hHandles.get hLt hLt'
    simpa [hGet] using hRecord.mem

theorem internAll_concat {shardIndex : String → Fin shardCount}
    {interner interner' interner'' : StringInterner} {calls : List String}
    {handles : List InternedStr} {s : String} {handle : InternedStr}
    (hRun : internAll shardIndex interner calls = .ok (interner', handles))
    (hLast : interner'.intern shardIndex s = .ok (interner'', handle)) :
    internAll shardIndex interner (calls ++ [s]) = .ok (interner'', handles ++ [handle]) := by
  induction calls generalizing interner handles with
  | nil =>
      obtain ⟨rfl, rfl⟩ := Prod.mk.inj (Except.ok.inj hRun)
      rw [List.nil_append, internAll, hLast]
      rfl
  | cons first calls ih =>
      obtain ⟨⟨next, handle'⟩, hFirst, hRun⟩ := Exec.of_bind_eq_ok hRun
      obtain ⟨⟨last, rest⟩, hRest, hRun⟩ := Exec.of_bind_eq_ok hRun
      obtain ⟨rfl, rfl⟩ := Prod.mk.inj (Except.ok.inj hRun)
      rw [List.cons_append, internAll, hFirst, Exec.ok_bind]
      dsimp only
      rw [ih hRest]
      rfl

theorem exists_internAll {shardIndex : String → Fin shardCount} {calls : List String}
    (hFits : ∀ i, shardDemand shardIndex calls.toFinset i ≤ 2 ^ 28) :
    ∃ interner handles, internAll shardIndex StringInterner.new calls =
      .ok (interner, handles) := by
  induction calls using List.reverseRecOn with
  | nil => exact ⟨_, _, rfl⟩
  | append_singleton calls s ih =>
      have hSplit : (calls ++ [s]).toFinset = insert s calls.toFinset := by
        ext s'
        simp
      rw [hSplit] at hFits
      obtain ⟨interner, handles, hRun⟩ := ih fun i =>
        (shardDemand_mono shardIndex (Finset.subset_insert s _) i).trans (hFits i)
      obtain ⟨tables, hHolds, hTables, -⟩ := tablesOf_internAll hRun
      obtain ⟨shard, offset, hIntern⟩ := hHolds.exists_intern hTables (hFits (shardIndex s))
      exact ⟨_, _, internAll_concat hRun (by rw [intern, hIntern, Exec.ok_bind])⟩

/-- A run of `intern` calls returns if and only if the records of the distinct
strings of every shard fit into its buffer.  The buffers then have exactly the
length of these records. -/
theorem internAll_returns_iff (shardIndex : String → Fin shardCount) (calls : List String) :
    ((∃ interner handles, internAll shardIndex StringInterner.new calls =
        .ok (interner, handles)) ↔
      ∀ i, shardDemand shardIndex calls.toFinset i ≤ 2 ^ 28) ∧
    ∀ interner handles, internAll shardIndex StringInterner.new calls =
        .ok (interner, handles) →
      (∀ i, (interner.shards i).buf.length = shardDemand shardIndex calls.toFinset i) ∧
        interner.totalBytes = ∑ s ∈ calls.toFinset, recordLen s := by
  refine ⟨⟨?_, exists_internAll⟩, ?_⟩
  · rintro ⟨interner, handles, hRun⟩ i
    obtain ⟨tables, hHolds, hTables, -⟩ := tablesOf_internAll hRun
    rw [← hHolds.length_buf hTables]
    exact (hHolds.shard i).size
  · intro interner handles hRun
    obtain ⟨tables, hHolds, hTables, -⟩ := tablesOf_internAll hRun
    have hLength := hHolds.length_buf hTables
    refine ⟨hLength, ?_⟩
    rw [totalBytes_eq_sum, ← sum_shardDemand shardIndex]
    exact Finset.sum_congr rfl fun i _ => hLength i

end StringInterner

end Core
end CodebaseMem
