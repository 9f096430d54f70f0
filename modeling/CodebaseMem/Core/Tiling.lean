import CodebaseMem.Core.FrozenInterner
import Mathlib.Data.List.Dedup

/-!
# The tiling of the compacted buffer

A dedup hit appends nothing and a miss appends one record, so every shard is a
whole number of records.  `compact` keeps the records of all shards, and nothing
else, so the merged buffer can be read from its first byte to its last.

* `FrozenHolds.parseRecords`: reading the records one after the other ends exactly at the
  end of the buffer.
* `FrozenHolds.items_unique`: so a frozen interner has one string table.
* `HandlesPlaced`: the handle of every call leads to the start of a record.
* `compact_tiled`: for every run of `intern` calls the records are the distinct strings,
  each once, and the starts are the relocated handles.
-/

namespace CodebaseMem
namespace Core

open Library

theorem mem_allStrings_iff {shardIndex : String → Fin shardCount} {calls : List String}
    {handles : List InternedStr} {tables : Fin shardCount → List String}
    (hOnly : ∀ i, ∀ s ∈ tables i, s ∈ calls)
    (hHandles : List.Forall₂ (HandleOf shardIndex tables) calls handles) (s : String) :
    s ∈ allStrings tables ↔ s ∈ calls := by
  rw [allStrings, List.mem_flatMap]
  constructor
  · rintro ⟨i, -, hMem⟩
    exact hOnly i s hMem
  · intro hCall
    rw [← List.map_fst_zip hHandles.length_eq.le] at hCall
    obtain ⟨⟨s, handle⟩, hZip, rfl⟩ := List.mem_map.mp hCall
    obtain ⟨offset, hRecord, -⟩ := (List.forall₂_iff_zip.mp hHandles).2 hZip
    exact ⟨shardIndex s, List.mem_finRange _, hRecord.mem⟩

/-- Reading the merged buffer gives the strings it was built from with their positions. -/
theorem FrozenHolds.parseRecords {frozen : FrozenInterner} {items : List String}
    (h : FrozenHolds frozen items) :
    Library.parseRecords 0 frozen.buf =
      some ((placeRecords utf8 0 items).map (Prod.map id utf8)) := by
  rw [h.buf]
  apply parseRecords_records
  intro item hMem
  obtain ⟨position, hRecord⟩ := exists_recordAt_of_mem utf8 hMem
  have hEnd := hRecord.add_length_le
  have hSize := h.size
  rw [h.buf] at hSize
  omega

theorem FrozenHolds.items_unique {frozen : FrozenInterner} {items items' : List String}
    (h : FrozenHolds frozen items) (h' : FrozenHolds frozen items') : items = items' := by
  have hPlaced := Option.some.inj (h.parseRecords.symm.trans h'.parseRecords)
  have hBytes := congrArg (List.map Prod.snd) hPlaced
  simp only [List.map_map, Prod.map_snd'] at hBytes
  rw [← List.map_map, ← List.map_map, map_snd_placeRecords, map_snd_placeRecords] at hBytes
  exact List.map_injective_iff.mpr utf8_injective hBytes

/-- The handle of every call leads to the record of its string. -/
def HandlesPlaced (remap : InternedStr → Exec InternedStr) (strings calls : List String)
    (handles : List InternedStr) : Prop :=
  ∀ s handle, (s, handle) ∈ calls.zip handles →
    ∃ stable, remap handle = .ok stable ∧
      (stable.val.toNat, s) ∈ placeRecords utf8 0 strings

theorem HandlesPlaced.mem_starts_iff {remap : InternedStr → Exec InternedStr}
    {strings calls : List String} {handles : List InternedStr}
    (h : HandlesPlaced remap strings calls handles) (hNodup : strings.Nodup)
    (hStrings : ∀ s, s ∈ strings ↔ s ∈ calls) (hLength : calls.length = handles.length)
    (position : Nat) :
    position ∈ (placeRecords utf8 0 strings).map Prod.fst ↔
      ∃ handle ∈ handles, ∃ stable, remap handle = .ok stable ∧
        stable.val.toNat = position := by
  constructor
  · intro hMem
    -- the string of the record was interned, and its handle leads to the record
    obtain ⟨⟨_, s⟩, hPlace, rfl⟩ := List.mem_map.mp hMem
    obtain ⟨offset, hRecord, rfl⟩ := (mem_placeRecords_iff 0).mp hPlace
    have hCall : s ∈ (calls.zip handles).map Prod.fst := by
      rw [List.map_fst_zip hLength.le]
      exact (hStrings s).mp hRecord.mem
    obtain ⟨⟨s, handle⟩, hZip, rfl⟩ := List.mem_map.mp hCall
    obtain ⟨stable, hStable, hOther⟩ := h s handle hZip
    obtain ⟨offset', hRecord', hPosition⟩ := (mem_placeRecords_iff 0).mp hOther
    rw [hRecord.position_unique hNodup hRecord']
    exact ⟨handle, (List.of_mem_zip hZip).2, stable, hStable, hPosition⟩
  · rintro ⟨handle, hMem, stable, hStable, rfl⟩
    rw [← List.map_snd_zip hLength.ge] at hMem
    obtain ⟨⟨s, handle⟩, hZip, rfl⟩ := List.mem_map.mp hMem
    obtain ⟨stable', hStable', hPlace⟩ := h s handle hZip
    obtain rfl := Except.ok.inj (hStable.symm.trans hStable')
    exact List.mem_map.mpr ⟨_, hPlace, rfl⟩

/-- For every run of `intern` calls, the records of the compacted buffer end where the
buffer does, hold every interned string once and nothing else, and start exactly at the
relocated handles. -/
theorem compact_tiled (profile : Profile) (shardIndex : String → Fin shardCount)
    (calls : List String) {interner : StringInterner} {handles : List InternedStr}
    (hRun : StringInterner.internAll shardIndex StringInterner.new calls =
      .ok (interner, handles))
    (hTotal : interner.totalBytes < 2 ^ 32) :
    ∃ frozen remap, interner.compact profile = .ok (frozen, remap) ∧
      ∃ (parsed : List (Nat × List UInt8)) (strings : List String),
        Library.parseRecords 0 frozen.buf = some parsed ∧
        parsed.map Prod.snd = strings.map utf8 ∧
        strings.Nodup ∧
        (∀ s, s ∈ strings ↔ s ∈ calls) ∧
        (∀ s handle, (s, handle) ∈ calls.zip handles →
          ∃ stable, remap handle = .ok stable ∧ (stable.val.toNat, utf8 s) ∈ parsed) ∧
        (∀ position, position ∈ parsed.map Prod.fst ↔
          ∃ handle ∈ handles, ∃ stable, remap handle = .ok stable ∧
            stable.val.toNat = position) ∧
        frozen.bufLen = (calls.dedup.map fun s => 4 + (utf8 s).length).sum := by
  -- the run leaves one table for each shard, and compacting puts them one after the other
  obtain ⟨tables, hHolds, -, hOnly, hHandles⟩ := (internerHolds_new shardIndex).internAll hRun
  obtain ⟨frozen, remap, hCompact, hFrozen, hRemap⟩ := hHolds.compact profile hTotal
  have hStrings : ∀ s, s ∈ allStrings tables ↔ s ∈ calls :=
    mem_allStrings_iff (fun i s hMem => (hOnly i s hMem).resolve_left (by simp)) hHandles
  have hPlaced : HandlesPlaced remap (allStrings tables) calls handles := by
    intro s handle hZip
    obtain ⟨stable, hStable, hRecord⟩ :=
      hRemap s handle ((List.forall₂_iff_zip.mp hHandles).2 hZip)
    exact ⟨stable, hStable, (mem_placeRecords_iff 0).mpr ⟨_, hRecord, (Nat.zero_add _).symm⟩⟩
  refine ⟨frozen, remap, hCompact, _, allStrings tables, hFrozen.parseRecords, ?_,
    hFrozen.nodup, hStrings, ?_, ?_, ?_⟩
  · rw [List.map_map, Prod.map_snd', ← List.map_map, map_snd_placeRecords]
  · intro s handle hZip
    obtain ⟨stable, hStable, hMem⟩ := hPlaced s handle hZip
    exact ⟨stable, hStable, List.mem_map_of_mem hMem⟩
  · intro position
    rw [List.map_map, Prod.map_fst', Function.id_comp]
    exact hPlaced.mem_starts_iff hFrozen.nodup hStrings hHandles.length_eq position
  · -- the table and the list without repetitions have the same strings
    have hPerm : (allStrings tables).Perm calls.dedup := by
      rw [List.perm_ext_iff_of_nodup hFrozen.nodup calls.nodup_dedup]
      intro s
      rw [hStrings, List.mem_dedup]
    rw [FrozenInterner.bufLen, hFrozen.buf, length_records, (hPerm.map _).sum_nat]

/-- A run that interns a string twice, over two shards. -/
theorem compact_tiled_repeated :
    ∃ interner handles,
      StringInterner.internAll (fun s => if s = "b" then 3 else 15) StringInterner.new
        ["ab", "b", "ab"] = .ok (interner, handles) ∧
      ∃ frozen remap, interner.compact .dev = .ok (frozen, remap) ∧
        ∃ (parsed : List (Nat × List UInt8)) (strings : List String),
          Library.parseRecords 0 frozen.buf = some parsed ∧
          parsed.map Prod.snd = strings.map utf8 ∧ strings.Nodup ∧
          (∀ s, s ∈ strings ↔ s ∈ ["ab", "b", "ab"]) ∧ frozen.bufLen = 11 := by
  refine ⟨_, _, rfl, ?_⟩
  obtain ⟨frozen, remap, hCompact, parsed, strings, hParsed, hSnd, hNodup, hStrings, -, -, hLen⟩ :=
    compact_tiled .dev (fun s => if s = "b" then 3 else 15) ["ab", "b", "ab"] rfl (by decide)
  have hSum : (["ab", "b", "ab"].dedup.map fun s => 4 + (utf8 s).length).sum = 11 := by decide
  exact ⟨frozen, remap, hCompact, parsed, strings, hParsed, hSnd, hNodup, hStrings,
    hLen.trans hSum⟩

end Core
end CodebaseMem
