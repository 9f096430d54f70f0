import CodebaseMem.Graph.Adjacency

/-!
# The label index

`freeze` writes one serialised bitmap for each label, in the order of the labels
and each behind its size.  `nodes_with_label` skips the bitmaps before the one it
wants by their sizes.  The bitmaps it returns partition the nodes by label.

* `RoaringLaw`: what is relied on in the bitmap library: membership after an insertion,
  and that a bitmap that was written reads back.
* `mem_labelBitmaps_iff`: the bitmap of a label holds exactly the nodes of the label.
* `skipBitmaps_records`, `nodesWithLabel_eq`: skipping goes from record to record, and
  finds the bitmap of the label.
* `nodesWithLabel_partition`: the sets of the labels partition the nodes, for every frozen
  graph of fewer than `2 ^ 32` nodes.
-/

namespace CodebaseMem
namespace Graph

open CodebaseMem.Core Library

/-- What the program relies on in the bitmap library, `mem` being membership.  A bitmap
that was serialised reads back as itself, and inserting adds one word. -/
structure RoaringLaw (roaring : Roaring) (mem : roaring.Bitmap → UInt32 → Prop) : Prop where
  mem_new : ∀ value, ¬mem roaring.new value
  mem_insert : ∀ bitmap value other,
    mem (roaring.insert bitmap value) other ↔ other = value ∨ mem bitmap other
  deserialize : ∀ bitmap bytes, roaring.serializeInto bitmap = some bytes →
    roaring.deserializeFrom bytes = some bitmap

theorem toIdx_injective : Function.Injective NodeLabel.toIdx := by
  intro a b h
  cases a <;> cases b <;> first | rfl | cases h

/-! ### Writing the index -/

section Writing

variable {roaring : Roaring} {nodeLabels : List NodeLabel}

/-- When the index is written, every bitmap was serialised and its size fitted
the prefix. -/
theorem exists_bufs_of_labelIndexBytes_eq_ok {bytes : List UInt8}
    (h : labelIndexBytes roaring nodeLabels = .ok bytes) :
    ∃ bufs : Fin NodeLabel.count → List UInt8,
      (∀ i, roaring.serializeInto (labelBitmaps roaring nodeLabels i) = some (bufs i)) ∧
      (∀ i, (bufs i).length < 2 ^ 32) ∧
      bytes = records bufs (List.finRange NodeLabel.count) := by
  have hEach : ∀ i, ∃ buf,
      roaring.serializeInto (labelBitmaps roaring nodeLabels i) = some buf ∧
        buf.length < 2 ^ 32 := by
    intro i
    have hMem := List.mem_finRange i
    rw [labelIndexBytes] at h
    -- induction on the labels that the loop still has to write
    generalize List.finRange NodeLabel.count = labels at h hMem
    generalize [] = start at h
    induction labels generalizing start with
    | nil => cases hMem
    | cons j rest ih =>
        rw [List.foldlM_cons] at h
        obtain ⟨next, hNext, hRest⟩ := Exec.of_bind_eq_ok h
        rcases List.mem_cons.mp hMem with rfl | hLater
        · obtain ⟨buf, hBuf, hNext⟩ := Exec.of_bind_eq_ok hNext
          obtain ⟨size, hSize, -⟩ := Exec.of_bind_eq_ok hNext
          have hTry := expect_eq_ok_iff.mp hSize
          unfold u32TryFrom at hTry
          split at hTry
          · next hFits => exact ⟨buf, expect_eq_ok_iff.mp hBuf, hFits⟩
          · cases hTry
        · exact ih hLater next hRest
  choose bufs hSerialize hSize using hEach
  refine ⟨bufs, hSerialize, hSize, ?_⟩
  rw [labelIndexBytes_ok hSerialize hSize] at h
  exact (Except.ok.inj h).symm

variable {mem : roaring.Bitmap → UInt32 → Prop}

theorem mem_foldl_insert (hRoaring : RoaringLaw roaring mem) (entries : List (NodeLabel × Nat))
    (bitmaps : Fin NodeLabel.count → roaring.Bitmap) (j : Fin NodeLabel.count) (id : UInt32) :
    mem (entries.foldl (fun bitmaps (label, idx) =>
      Function.update bitmaps label.toIdx
        (roaring.insert (bitmaps label.toIdx) (UInt32.ofNat idx))) bitmaps j) id ↔
      mem (bitmaps j) id ∨ ∃ entry ∈ entries, entry.1.toIdx = j ∧ id = UInt32.ofNat entry.2 := by
  induction entries generalizing bitmaps with
  | nil => simp
  | cons entry entries ih =>
      obtain ⟨label, idx⟩ := entry
      rw [List.foldl_cons, ih]
      show mem (Function.update bitmaps label.toIdx
        (roaring.insert (bitmaps label.toIdx) (UInt32.ofNat idx)) j) id ∨ _ ↔ _
      by_cases hj : label.toIdx = j
      · subst hj
        rw [Function.update_self, hRoaring.mem_insert]
        simp
        tauto
      · rw [Function.update_of_ne (Ne.symm hj)]
        simp [hj]

theorem mem_labelBitmaps_iff (hRoaring : RoaringLaw roaring mem)
    (hCount : nodeLabels.length < 2 ^ 32) (label : NodeLabel) (id : UInt32) :
    mem (labelBitmaps roaring nodeLabels label.toIdx) id ↔
      nodeLabels[id.toNat]? = some label := by
  rw [labelBitmaps, mem_foldl_insert hRoaring]
  constructor
  · rintro (hNew | ⟨⟨other, idx⟩, hEntry, hLabel, rfl⟩)
    · exact absurd hNew (hRoaring.mem_new id)
    · have hGet := List.mem_zipIdx_iff_getElem?.mp hEntry
      have hIdx := (List.getElem?_eq_some_iff.mp hGet).1
      obtain rfl := toIdx_injective hLabel
      rwa [toNat_ofNat_u32 (by omega)]
  · intro hGet
    exact .inr ⟨(label, id.toNat), List.mem_zipIdx_iff_getElem?.mpr hGet, rfl, by simp⟩

end Writing

/-! ### Reading the index -/

section Reading

variable {bufs : Fin NodeLabel.count → List UInt8}

theorem bitmapSize_of_recordAt {items : List (Fin NodeLabel.count)} {position : Nat}
    {i : Fin NodeLabel.count} (h : RecordAt bufs items position i)
    (hSize : (bufs i).length < 2 ^ 32) :
    FrozenGraph.bitmapSize (records bufs items) position = .ok (bufs i).length := by
  rw [FrozenGraph.bitmapSize, slice_length_of_recordAt h hSize, Exec.ok_bind,
    u32FromLeBytes_u32ToLeBytes, toNat_ofNat_u32 hSize]

theorem skipBitmaps_records (hSize : ∀ i, (bufs i).length < 2 ^ 32)
    (before skipped rest : List (Fin NodeLabel.count)) :
    FrozenGraph.skipBitmaps (records bufs (before ++ skipped ++ rest)) skipped.length
        (records bufs before).length =
      .ok (records bufs (before ++ skipped)).length := by
  induction skipped generalizing before with
  | nil => simp [FrozenGraph.skipBitmaps]
  | cons i skipped ih =>
      have hAt : RecordAt bufs (before ++ i :: skipped ++ rest) (records bufs before).length i :=
        ⟨before, skipped ++ rest, by simp, rfl⟩
      have hNext : (records bufs before).length + (4 + (bufs i).length) =
          (records bufs (before ++ [i])).length := by
        simp [records_append, records_cons]
      have hSplit : before ++ i :: skipped = before ++ [i] ++ skipped := by simp
      rw [List.length_cons, FrozenGraph.skipBitmaps, bitmapSize_of_recordAt hAt (hSize i),
        Exec.ok_bind, hNext, hSplit]
      exact ih (before ++ [i])

theorem nodesWithLabel_eq {roaring : Roaring} {graph : FrozenGraph}
    {bitmaps : Fin NodeLabel.count → roaring.Bitmap}
    (hBytes : graph.labelIndexBytes = records bufs (List.finRange NodeLabel.count))
    (hSize : ∀ i, (bufs i).length < 2 ^ 32)
    (hRead : ∀ i, roaring.deserializeFrom (bufs i) = some (bitmaps i)) (label : NodeLabel) :
    graph.nodesWithLabel roaring label = .ok (bitmaps label.toIdx) := by
  have hSplit : List.finRange NodeLabel.count =
      (List.finRange NodeLabel.count).take label.toIdx ++
        label.toIdx :: (List.finRange NodeLabel.count).drop (label.toIdx + 1) := by
    cases label <;> rfl
  have hLength : ((List.finRange NodeLabel.count).take label.toIdx).length = label.toIdx := by
    rw [List.length_take, List.length_finRange]
    exact Nat.min_eq_left label.toIdx.isLt.le
  have hAt : RecordAt bufs (List.finRange NodeLabel.count)
      (records bufs ((List.finRange NodeLabel.count).take label.toIdx)).length label.toIdx :=
    ⟨_, _, hSplit, rfl⟩
  have hSkip := skipBitmaps_records hSize [] ((List.finRange NodeLabel.count).take label.toIdx)
    (label.toIdx :: (List.finRange NodeLabel.count).drop (label.toIdx + 1))
  rw [List.nil_append, ← hSplit, hLength, records_nil, List.length_nil] at hSkip
  rw [FrozenGraph.nodesWithLabel, hBytes, hSkip, Exec.ok_bind,
    bitmapSize_of_recordAt hAt (hSize _), Exec.ok_bind, slice_bytes_of_recordAt hAt, Exec.ok_bind,
    hRead, expect_some]

end Reading

/-! ### The round trip -/

theorem labelIndexBytes_of_freeze {profile : Profile} {roaring : Roaring} {fst : Fst}
    {graph : MutableGraph} {interner : FrozenInterner} {frozen : FrozenGraph}
    (hFreeze : graph.freeze profile roaring fst interner = .ok frozen) :
    frozen.nodeLabels = graph.nodeLabels ∧
      labelIndexBytes roaring graph.nodeLabels = .ok frozen.labelIndexBytes := by
  obtain ⟨reverse, bytes, index, -, hBytes, -, rfl⟩ := exists_of_freeze_eq_ok hFreeze
  exact ⟨rfl, hBytes⟩

/-- For every frozen graph, `nodes_with_label` returns exactly the nodes of the
label.  The sets of the labels are disjoint and cover the nodes. -/
theorem nodesWithLabel_partition {profile : Profile} {roaring : Roaring} {fst : Fst}
    {mem : roaring.Bitmap → UInt32 → Prop} (hRoaring : RoaringLaw roaring mem)
    {graph : MutableGraph} {interner : FrozenInterner} {frozen : FrozenGraph}
    (hFreeze : graph.freeze profile roaring fst interner = .ok frozen)
    (hCount : frozen.nodeCount < 2 ^ 32) :
    ∃ bitmaps : NodeLabel → roaring.Bitmap,
      (∀ label, frozen.nodesWithLabel roaring label = .ok (bitmaps label)) ∧
      (∀ label id, mem (bitmaps label) id ↔ frozen.nodeLabels[id.toNat]? = some label) ∧
      (∀ label label', label ≠ label' → ∀ id, ¬(mem (bitmaps label) id ∧ mem (bitmaps label') id)) ∧
      ∀ id : UInt32, id.toNat < frozen.nodeCount ↔ ∃ label, mem (bitmaps label) id := by
  obtain ⟨hLabels, hIndex⟩ := labelIndexBytes_of_freeze hFreeze
  rw [← hLabels] at hIndex
  obtain ⟨bufs, hSerialize, hSize, hBytes⟩ := exists_bufs_of_labelIndexBytes_eq_ok hIndex
  have hRead := fun i => hRoaring.deserialize _ _ (hSerialize i)
  have hMem := mem_labelBitmaps_iff hRoaring hCount
  refine ⟨fun label => labelBitmaps roaring frozen.nodeLabels label.toIdx,
    nodesWithLabel_eq hBytes hSize hRead, hMem, ?_, ?_⟩
  · -- a node has one label
    rintro label label' hne id ⟨hIn, hIn'⟩
    rw [hMem] at hIn hIn'
    exact hne (Option.some.inj (hIn.symm.trans hIn'))
  · intro id
    simp only [hMem]
    constructor
    · intro hId
      exact ⟨_, List.getElem?_eq_getElem hId⟩
    · rintro ⟨label, hGet⟩
      exact (List.getElem?_eq_some_iff.mp hGet).1

theorem deserialize_plainRoaring (bitmap : List UInt32) :
    (List.range ((bitmap.flatMap u32ToLeBytes).length / 4)).map (fun i =>
      u32FromLeBytes (((bitmap.flatMap u32ToLeBytes).drop (4 * i)).take 4)) = bitmap := by
  induction bitmap with
  | nil => rfl
  | cons word bitmap ih =>
      have hLength : (u32ToLeBytes word ++ bitmap.flatMap u32ToLeBytes).length / 4 =
          (bitmap.flatMap u32ToLeBytes).length / 4 + 1 := by
        rw [List.length_append, length_u32ToLeBytes]
        omega
      have hShift : ∀ i, 4 * (i + 1) = (u32ToLeBytes word).length + 4 * i := by
        intro i
        rw [length_u32ToLeBytes]
        omega
      rw [List.flatMap_cons, hLength, List.range_succ_eq_map, List.map_cons, List.map_map]
      refine congrArg₂ _ (u32FromLeBytes_u32ToLeBytes word)
        (Eq.trans (List.map_congr_left fun i _ => ?_) ih)
      rw [Function.comp_apply, Nat.succ_eq_add_one, hShift, List.drop_length_add_append]

def plainMem (bitmap : List UInt32) (value : UInt32) : Prop := value ∈ bitmap

theorem roaringLaw_plainRoaring : RoaringLaw plainRoaring plainMem where
  mem_new := fun _ => List.not_mem_nil
  mem_insert := by
    intro (bitmap : List UInt32) value other
    show other ∈ (if value ∈ bitmap then bitmap else bitmap ++ [value]) ↔ _
    split
    · next hOld =>
        constructor
        · exact .inr
        · rintro (rfl | hMem)
          · exact hOld
          · exact hMem
    · rw [List.mem_append, List.mem_singleton, or_comm]
      rfl
  deserialize := by
    intro bitmap bytes hSerialize
    obtain rfl := Option.some.inj hSerialize
    exact congrArg some (deserialize_plainRoaring bitmap)

theorem nodesWithLabel_partition_sampleCalls :
    ∃ (frozen : FrozenGraph) (bitmaps : NodeLabel → List UInt32),
      (build sampleCalls).freeze .dev plainRoaring plainFst sampleInterner = .ok frozen ∧
      (∀ label, frozen.nodesWithLabel plainRoaring label = .ok (bitmaps label)) ∧
      ∀ id, id ∈ bitmaps .function ↔ frozen.nodeLabels[id.toNat]? = some .function := by
  obtain ⟨frozen, hFreeze⟩ := freeze_sampleCalls
  have hCount : frozen.nodeCount < 2 ^ 32 := by
    rw [FrozenGraph.nodeCount, (labelIndexBytes_of_freeze hFreeze).1]
    decide
  obtain ⟨bitmaps, hRead, hMem, -, -⟩ :=
    nodesWithLabel_partition roaringLaw_plainRoaring hFreeze hCount
  exact ⟨frozen, bitmaps, hFreeze, hRead, hMem .function⟩

end Graph
end CodebaseMem
