import CodebaseMem.Graph.FrozenGraph
import CodebaseMem.Library.BucketLayout
import CodebaseMem.Library.Loops

/-!
# The adjacency arrays

Both directions are bucket layouts of the sorted edges: the forward arrays by
source, which is how the edges are sorted already, and the reverse arrays by
target, which the second pass establishes by counting.

* `ForwardHolds`: the invariant of the forward builder; `ForwardHolds.pushEdge` is one
  round of its loop.
* `buildForwardCsr_eq`: the forward arrays.  `exists_buildForwardCsr_eq` does not ask
  that every source is a node: the offsets then go on behind the last one.
* `countIncoming_eq`, `prefixSums_eq`, `placeEdge_reverseState`: the two passes of the
  reverse builder and the sums between them.
* `buildReverseCsr_eq`: every count, sum and write stays in range, every slot is written
  before the arrays are read, and the result lists the edges by target.
* `edgesIn_layout`: cutting an array at the offsets of a node gives its bucket.
-/

namespace CodebaseMem
namespace Graph

open CodebaseMem.Core Library

abbrev EdgeRow.sourceIdx (edge : EdgeRow) : Nat := edge.source.val.toNat

abbrev EdgeRow.targetIdx (edge : EdgeRow) : Nat := edge.target.val.toNat

/-- The start of each bucket and the end of the last one, as the source stores them.  The
positions are cast to 32 bits, which changes nothing below `2 ^ 32` edges. -/
def csrOffsets (key : EdgeRow → Nat) (edges : List EdgeRow) (nodeCount : Nat) : List UInt32 :=
  (List.range (nodeCount + 1)).map fun t => UInt32.ofNat (bucketStart key edges t)

theorem getElem?_csrOffsets {key : EdgeRow → Nat} {edges : List EdgeRow} {nodeCount t : Nat}
    (ht : t ≤ nodeCount) :
    (csrOffsets key edges nodeCount)[t]? = some (UInt32.ofNat (bucketStart key edges t)) := by
  simp [csrOffsets, List.getElem?_range (Nat.lt_succ_of_le ht)]

/-!
## The forward builder
-/

/-- The state of the forward builder after the edges `done`: the offsets up to
the current node are known, and no edge of a later node has been seen. -/
structure ForwardHolds (done : List EdgeRow) (s : ForwardState) : Prop where
  offsets : s.offsets = csrOffsets EdgeRow.sourceIdx done s.currentNode
  targets : s.targets = done.map EdgeRow.target
  types : s.types = done.map EdgeRow.edgeType
  bounded : ∀ edge ∈ done, edge.sourceIdx ≤ s.currentNode

theorem forwardHolds_start : ForwardHolds [] ForwardState.start where
  offsets := rfl
  targets := rfl
  types := rfl
  bounded := by simp

theorem csrOffsets_succ (key : EdgeRow → Nat) (edges : List EdgeRow) (n : Nat) :
    csrOffsets key edges (n + 1) =
      csrOffsets key edges n ++ [UInt32.ofNat (bucketStart key edges (n + 1))] := by
  simp [csrOffsets, List.range_succ]

theorem ForwardHolds.closeNode {done : List EdgeRow} {s : ForwardState}
    (h : ForwardHolds done s) : ForwardHolds done s.closeNode where
  offsets := by
    have hAll : bucketStart EdgeRow.sourceIdx done (s.currentNode + 1) = done.length :=
      bucketStart_eq_length fun edge hEdge => Nat.lt_succ_of_le (h.bounded edge hEdge)
    calc s.closeNode.offsets
      _ = csrOffsets EdgeRow.sourceIdx done s.currentNode ++ [UInt32.ofNat done.length] := by
        rw [ForwardState.closeNode, h.offsets, h.targets, List.length_map]
      _ = csrOffsets EdgeRow.sourceIdx done (s.currentNode + 1) := by
        rw [csrOffsets_succ, hAll]
  targets := h.targets
  types := h.types
  bounded := fun edge hEdge => Nat.le_succ_of_le (h.bounded edge hEdge)

theorem ForwardHolds.fillTo {done : List EdgeRow} {s : ForwardState} {bound : Nat}
    (h : ForwardHolds done s) (hBound : s.currentNode ≤ bound) :
    ForwardHolds done (s.fillTo bound) ∧ (s.fillTo bound).currentNode = bound := by
  -- induction on the rounds of the loop: each of them closes one node
  have hRounds : ∀ k, ForwardHolds done (ForwardState.closeNode^[k] s) ∧
      (ForwardState.closeNode^[k] s).currentNode = s.currentNode + k := by
    intro k
    induction k with
    | zero => exact ⟨h, rfl⟩
    | succ k ih =>
        rw [Function.iterate_succ_apply']
        exact ⟨ih.1.closeNode, by rw [ForwardState.closeNode, ih.2, Nat.add_assoc]⟩
  obtain ⟨hHolds, hNode⟩ := hRounds (bound - s.currentNode)
  exact ⟨hHolds, by rw [ForwardState.fillTo, hNode]; omega⟩

theorem ForwardHolds.pushEdge {done : List EdgeRow} {s : ForwardState} {edge : EdgeRow}
    (h : ForwardHolds done s) (hSource : s.currentNode ≤ edge.sourceIdx) :
    ForwardHolds (done ++ [edge]) (s.pushEdge edge) ∧
      (s.pushEdge edge).currentNode = edge.sourceIdx := by
  obtain ⟨hFilled, hNode⟩ := h.fillTo hSource
  refine ⟨⟨?_, ?_, ?_, ?_⟩, hNode⟩
  · show (s.fillTo edge.sourceIdx).offsets = csrOffsets _ _ (s.fillTo edge.sourceIdx).currentNode
    rw [hFilled.offsets, hNode, csrOffsets, csrOffsets]
    refine List.map_congr_left fun t ht => ?_
    -- the new edge lies in the current bucket and moves no start before it
    have hNotBelow : bucketStart EdgeRow.sourceIdx [edge] t = 0 := by
      have := List.mem_range.mp ht
      simp only [bucketStart, List.countP_singleton, decide_eq_true_eq, ite_eq_right_iff]
      omega
    rw [bucketStart_append, hNotBelow, Nat.add_zero]
  · simp [ForwardState.pushEdge, hFilled.targets]
  · simp [ForwardState.pushEdge, hFilled.types]
  · intro other hOther
    show other.sourceIdx ≤ (s.fillTo edge.sourceIdx).currentNode
    rw [hNode]
    rcases List.mem_append.mp hOther with hDone | hNew
    · exact (h.bounded other hDone).trans hSource
    · rw [List.mem_singleton.mp hNew]

/-- The forward arrays of edges that are sorted by source.  The offsets go on to
the last source when that lies behind the last node. -/
theorem exists_buildForwardCsr_eq {edges : List EdgeRow} (nodeCount : Nat)
    (hSorted : edges.Pairwise fun a b => a.sourceIdx ≤ b.sourceIdx) :
    ∃ last, nodeCount ≤ last ∧ (∀ edge ∈ edges, edge.sourceIdx ≤ last) ∧
      (last = nodeCount ∨ ∃ edge ∈ edges, edge.sourceIdx = last) ∧
      buildForwardCsr edges nodeCount =
        (csrOffsets EdgeRow.sourceIdx edges last, edges.map EdgeRow.target,
          edges.map EdgeRow.edgeType) := by
  -- the loop never has to go back: no edge ahead has a source behind the
  -- current node
  have hLoop := foldl_invariant ForwardState.pushEdge
    (fun done rest s => ForwardHolds done s ∧
      (s.currentNode = 0 ∨ ∃ edge ∈ done, edge.sourceIdx = s.currentNode) ∧
      ∀ edge ∈ rest, s.currentNode ≤ edge.sourceIdx) edges ForwardState.start
    ⟨forwardHolds_start, .inl rfl, fun _ _ => Nat.zero_le _⟩ ?_
  · obtain ⟨hHolds, hReached, -⟩ := hLoop
    rcases le_total (edges.foldl ForwardState.pushEdge ForwardState.start).currentNode nodeCount
      with hNode | hNode
    · obtain ⟨hFilled, hLast⟩ := hHolds.fillTo hNode
      refine ⟨nodeCount, le_rfl, fun edge hEdge => ?_, .inl rfl, ?_⟩
      · exact (hHolds.bounded edge hEdge).trans hNode
      · rw [buildForwardCsr, hFilled.offsets, hFilled.targets, hFilled.types, hLast]
    · -- the loop has passed the last node, so nothing is left to fill
      have hNothing : (edges.foldl ForwardState.pushEdge ForwardState.start).fillTo nodeCount =
          edges.foldl ForwardState.pushEdge ForwardState.start := by
        rw [ForwardState.fillTo, Nat.sub_eq_zero_of_le hNode, Function.iterate_zero_apply]
      refine ⟨_, hNode, hHolds.bounded, hReached.imp_left fun hZero => ?_, ?_⟩
      · omega
      · rw [buildForwardCsr, hNothing, hHolds.offsets, hHolds.targets, hHolds.types]
  · rintro done edge rest s rfl ⟨hHolds, -, hAhead⟩
    obtain ⟨hPushed, hCurrent⟩ := hHolds.pushEdge (hAhead edge List.mem_cons_self)
    refine ⟨hPushed, .inr ⟨edge, by simp, hCurrent.symm⟩, ?_⟩
    rw [hCurrent]
    exact (List.pairwise_cons.mp (List.pairwise_append.mp hSorted).2.1).1

theorem buildForwardCsr_eq {edges : List EdgeRow} {nodeCount : Nat}
    (hSorted : edges.Pairwise fun a b => a.sourceIdx ≤ b.sourceIdx)
    (hSource : ∀ edge ∈ edges, edge.sourceIdx < nodeCount) :
    buildForwardCsr edges nodeCount =
      (csrOffsets EdgeRow.sourceIdx edges nodeCount, edges.map EdgeRow.target,
        edges.map EdgeRow.edgeType) := by
  obtain ⟨last, hLast, -, rfl | ⟨edge, hEdge, rfl⟩, hEq⟩ :=
    exists_buildForwardCsr_eq nodeCount hSorted
  · exact hEq
  · exact absurd (hSource edge hEdge) hLast.not_gt

/-!
## The reverse builder
-/

theorem index_map_range {α : Type} (f : Nat → α) {n t : Nat} (ht : t < n) :
    index ((List.range n).map f) t = .ok (f t) := by
  rw [index_eq_ok_iff]
  simp [List.getElem?_range ht]

theorem increment_map_range {count count' : Nat → Nat} {n t : Nat}
    (hSelf : count' t = count t + 1) (hOther : ∀ s, t ≠ s → count' s = count s) :
    ((List.range n).map fun s => UInt32.ofNat (count s)).set t (UInt32.ofNat (count t + 1)) =
      (List.range n).map fun s => UInt32.ofNat (count' s) := by
  refine List.ext_getElem? fun s => ?_
  rw [List.getElem?_set]
  by_cases hs : t = s
  · subst hs
    by_cases ht : t < n
    · simp [ht, hSelf]
    · simp [ht]
  · rw [if_neg hs, List.getElem?_map, List.getElem?_map]
    by_cases hn : s < n
    · simp [hn, hOther s hs]
    · simp [hn]

theorem addU32_ofNat_one (profile : Profile) {k : Nat} (hk : k + 1 < 2 ^ 32) :
    addU32 profile (UInt32.ofNat k) 1 = .ok (UInt32.ofNat (k + 1)) := by
  have hOne : (1 : UInt32).toNat = 1 := rfl
  rw [addU32_ok profile (by rw [toNat_ofNat_u32 (by omega), hOne]; exact hk), UInt32.ofNat_add]
  rfl

theorem countP_targetIdx_append (done : List EdgeRow) (edge : EdgeRow) (t : Nat) :
    (done ++ [edge]).countP (fun other => other.targetIdx = t) =
      done.countP (fun other => other.targetIdx = t) +
        if edge.targetIdx = t then 1 else 0 := by
  rw [List.countP_append, List.countP_singleton]
  simp

/-- The first pass counts the edges of each target.  No counter overflows, because there
are fewer than `2 ^ 32` edges. -/
theorem countIncoming_eq (profile : Profile) {edges : List EdgeRow} {nodeCount : Nat}
    (hTarget : ∀ edge ∈ edges, edge.targetIdx < nodeCount)
    (hEdges : edges.length < 2 ^ 32) :
    countIncoming profile edges nodeCount =
      .ok ((List.range nodeCount).map fun t =>
        UInt32.ofNat (edges.countP fun edge => edge.targetIdx = t)) := by
  have hStart : List.replicate nodeCount 0 = (List.range nodeCount).map fun t =>
      UInt32.ofNat (([] : List EdgeRow).countP fun edge => edge.targetIdx = t) := by
    simp
  rw [countIncoming, hStart]
  refine foldlM_closedForm _ (fun done _ => (List.range nodeCount).map fun t =>
    UInt32.ofNat (done.countP fun edge => edge.targetIdx = t)) edges ?_
  rintro done edge rest rfl
  -- no counter reaches the number of edges, so no increment overflows
  have hRoom : done.countP (fun other => other.targetIdx = edge.targetIdx) + 1 < 2 ^ 32 := by
    have hCount := List.countP_le_length (p := fun other : EdgeRow =>
      decide (other.targetIdx = edge.targetIdx)) (l := done)
    rw [List.length_append, List.length_cons] at hEdges
    omega
  dsimp only
  rw [index_map_range _ (hTarget edge (by simp)), Exec.ok_bind, addU32_ofNat_one profile hRoom,
    Exec.ok_bind]
  congr 1
  refine increment_map_range ?_ fun t ht => ?_
  · rw [countP_targetIdx_append, if_pos rfl]
  · rw [countP_targetIdx_append, if_neg ht, Nat.add_zero]

/-- The prefix sums of the counts are the starts of the buckets.  Induction on the number
of nodes, from the front as the loop goes. -/
theorem prefixSums_eq (profile : Profile) {edges : List EdgeRow} (nodeCount : Nat)
    (hEdges : edges.length < 2 ^ 32) :
    prefixSums profile ((List.range nodeCount).map fun t =>
        UInt32.ofNat (edges.countP fun edge => edge.targetIdx = t)) =
      .ok (csrOffsets EdgeRow.targetIdx edges nodeCount,
        UInt32.ofNat (bucketStart EdgeRow.targetIdx edges nodeCount)) := by
  induction nodeCount with
  | zero => simp [prefixSums, csrOffsets]
  | succ n ih =>
      have hStart := bucketStart_succ EdgeRow.targetIdx edges n
      have hBound := bucketStart_le_length EdgeRow.targetIdx edges (n + 1)
      rw [prefixSums] at ih ⊢
      rw [List.range_succ, List.map_append, List.foldlM_append, ih, Exec.ok_bind,
        List.map_singleton, List.foldlM_cons]
      simp only [List.foldlM_nil]
      rw [addU32_ok profile (by
        rw [toNat_ofNat_u32 (by omega), toNat_ofNat_u32 (by omega)]
        omega), Exec.ok_bind, Exec.ok_bind, Exec.pure_eq_ok, ← UInt32.ofNat_add, ← hStart,
        csrOffsets_succ]

/-- The state of the second pass after the edges `done`: each bucket has its first slots
filled and the rest empty, and the cursor of a bucket is its next free slot. -/
def reverseState (nodeCount : Nat) (done rest : List EdgeRow) : ReverseState where
  writePos := (List.range (nodeCount + 1)).map fun t =>
    UInt32.ofNat (nextFree EdgeRow.targetIdx done rest t)
  sources := layout (slotsOf EdgeRow.targetIdx EdgeRow.source done rest) nodeCount
  types := layout (slotsOf EdgeRow.targetIdx EdgeRow.edgeType done rest) nodeCount

theorem writeSlot_ok {α : Type} {slots : List (Option α)} {pos : Nat} (value : α)
    (hPos : pos < slots.length) : writeSlot slots pos value = .ok (slots.set pos (some value)) := by
  rw [writeSlot, if_pos hPos]

/-- Placing one edge writes the next free slot of its bucket in both arrays.  The slot
exists, since the edge was counted, and it was not written before. -/
theorem placeEdge_reverseState (profile : Profile) {nodeCount : Nat}
    {done rest : List EdgeRow} {edge : EdgeRow}
    (hTarget : edge.targetIdx < nodeCount) (hEdges : (done ++ edge :: rest).length < 2 ^ 32) :
    (reverseState nodeCount done (edge :: rest)).placeEdge profile edge =
      .ok (reverseState nodeCount (done ++ [edge]) rest) := by
  have hFree : nextFree EdgeRow.targetIdx done (edge :: rest) edge.targetIdx <
      bucketStart EdgeRow.targetIdx (done ++ edge :: rest) nodeCount := nextFree_lt hTarget
  have hLength := bucketStart_le_length EdgeRow.targetIdx (done ++ edge :: rest) nodeCount
  -- the free slot lies before the end of the arrays, hence in range of `u32`
  have hPos : (UInt32.ofNat (nextFree EdgeRow.targetIdx done (edge :: rest)
      edge.targetIdx)).toNat = nextFree EdgeRow.targetIdx done (edge :: rest) edge.targetIdx :=
    toNat_ofNat_u32 (by omega)
  have hSlot : ∀ {β : Type} (val : EdgeRow → β),
      nextFree EdgeRow.targetIdx done (edge :: rest) edge.targetIdx <
        (layout (slotsOf EdgeRow.targetIdx val done (edge :: rest)) nodeCount).length := by
    intro β val
    rw [length_layout_slotsOf]
    exact hFree
  rw [ReverseState.placeEdge, reverseState]
  dsimp only
  rw [index_map_range _ (Nat.lt_succ_of_lt hTarget), Exec.ok_bind, hPos,
    writeSlot_ok _ (hSlot EdgeRow.source), Exec.ok_bind,
    writeSlot_ok _ (hSlot EdgeRow.edgeType), Exec.ok_bind,
    addU32_ofNat_one profile (by omega), Exec.ok_bind,
    layout_slotsOf_set EdgeRow.source hTarget, layout_slotsOf_set EdgeRow.edgeType hTarget,
    reverseState]
  congr 2
  refine increment_map_range ?_ fun t ht => ?_
  · rw [nextFree_step, if_pos rfl]
  · rw [nextFree_step, if_neg ht, Nat.add_zero]

theorem assumeInit_map_some {α β : Type} (f : α → β) (l : List α) :
    assumeInit (l.map fun a => some (f a)) = .ok (l.map f) := by
  induction l with
  | nil => rfl
  | cons a l ih => rw [List.map_cons, assumeInit, ih, Exec.ok_bind, List.map_cons]

/-- The reverse arrays: every count, sum and write stays in range, every slot is
written before the arrays are read, and the result lists the edges by target. -/
theorem buildReverseCsr_eq (profile : Profile) {edges : List EdgeRow} {nodeCount : Nat}
    (hTarget : ∀ edge ∈ edges, edge.targetIdx < nodeCount)
    (hEdges : edges.length < 2 ^ 32) :
    buildReverseCsr profile edges nodeCount =
      .ok (csrOffsets EdgeRow.targetIdx edges nodeCount,
        (layout (bucketOf EdgeRow.targetIdx edges) nodeCount).map EdgeRow.source,
        (layout (bucketOf EdgeRow.targetIdx edges) nodeCount).map EdgeRow.edgeType) := by
  have hSlots : ∀ {β : Type} (val : EdgeRow → β),
      layout (slotsOf EdgeRow.targetIdx val [] edges) nodeCount =
        List.replicate edges.length none := by
    intro β val
    rw [layout_slotsOf_nil_left, bucketStart_eq_length hTarget]
  have hStart : reverseState nodeCount [] edges =
      { writePos := csrOffsets EdgeRow.targetIdx edges nodeCount
        sources := List.replicate edges.length none
        types := List.replicate edges.length none } := by
    rw [reverseState, hSlots, hSlots]
    simp [nextFree, csrOffsets]
  have hLoop := foldlM_closedForm (ReverseState.placeEdge profile) (reverseState nodeCount) edges
    fun done edge rest hSplit =>
      placeEdge_reverseState profile (hTarget edge (by simp [hSplit])) (hSplit ▸ hEdges)
  rw [buildReverseCsr, countIncoming_eq profile hTarget hEdges, Exec.ok_bind,
    prefixSums_eq profile nodeCount hEdges, Exec.ok_bind]
  dsimp only
  rw [← hStart, hLoop, Exec.ok_bind, reverseState]
  dsimp only
  -- nothing is left to place, so no slot is left unwritten
  rw [layout_slotsOf_nil_right, layout_slotsOf_nil_right, assumeInit_map_some, Exec.ok_bind,
    assumeInit_map_some, Exec.ok_bind]

/-!
## The slices of one node
-/

theorem edgesIn_layout (key : EdgeRow → Nat) (source : EdgeRow → NodeId)
    {edges : List EdgeRow} {nodeCount : Nat} {node : NodeId} (hNode : node.val.toNat < nodeCount)
    (hEdges : edges.length < 2 ^ 32) :
    (do
      let range ← FrozenGraph.edgeRange (csrOffsets key edges nodeCount) node
      FrozenGraph.edgesIn ((layout (bucketOf key edges) nodeCount).map source)
        ((layout (bucketOf key edges) nodeCount).map EdgeRow.edgeType) range) =
      .ok ((bucketOf key edges node.val.toNat).map fun edge => (source edge, edge.edgeType)) := by
  obtain ⟨before, rest, hLayout, hBefore, hStop⟩ :=
    exists_layout_bucketOf_eq_append key edges hNode
  have hNext : node.val.toNat + 1 ≤ nodeCount := hNode
  have hStart := bucketStart_le_length key edges node.val.toNat
  have hEnd := bucketStart_le_length key edges (node.val.toNat + 1)
  -- one slice for the two parallel arrays
  have hSlice : ∀ {β : Type} (f : EdgeRow → β),
      slice ((layout (bucketOf key edges) nodeCount).map f)
        (bucketStart key edges node.val.toNat) (bucketStart key edges (node.val.toNat + 1)) =
      .ok ((bucketOf key edges node.val.toNat).map f) := by
    intro β f
    rw [hLayout, List.map_append, List.map_append, ← hBefore, ← List.length_map f]
    exact slice_append_append _ _ _ (by simpa using hStop)
  rw [FrozenGraph.edgeRange, index_eq_ok_iff.mpr (getElem?_csrOffsets hNode.le), Exec.ok_bind,
    index_eq_ok_iff.mpr (getElem?_csrOffsets hNext), Exec.ok_bind, Exec.ok_bind,
    FrozenGraph.edgesIn, toNat_ofNat_u32 (by omega), toNat_ofNat_u32 (by omega)]
  dsimp only
  rw [hSlice, Exec.ok_bind, hSlice, Exec.ok_bind, List.zip_map']

end Graph
end CodebaseMem
