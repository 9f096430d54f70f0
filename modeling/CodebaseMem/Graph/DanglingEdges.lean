import CodebaseMem.Graph.Adjacency

/-!
# Edges whose endpoints are not nodes

`add_edge` checks nothing.  A target that is not a node makes the reverse builder
panic.  A source that is not a node makes the forward builder extend its offsets
past the last node, and nothing panics: the frozen graph then breaks the shape
that its documentation promises.

* `EndpointsSound`: the promised shape, and that an edge of a node leads to a node.
* `countIncoming_panic`, `buildReverseCsr_panic`: the panic of the reverse builder.
* `buildReverseCsr_dev_panic`, `buildReverseCsr_release_ne_panic`: what happens to edges
  that `u32` cannot count, in the two profiles.
* `panicsOrSound_freeze_iff`: for every run, freezing panics or keeps the promise exactly
  if a target is not a node, or every source is a node and the edges can be counted as
  the profile demands.

The two indexes are asked to be built: their own panics are about names and bitmaps, not
about edges.
-/

namespace CodebaseMem
namespace Graph

open CodebaseMem.Core Library

/-- What the frozen graph promises about its adjacency: the shape of the two offset
arrays, and that an edge of a node leads to a node. -/
structure EndpointsSound (graph : FrozenGraph) (edgeCount : Nat) : Prop where
  forwardLength : graph.forwardOffsets.length = graph.nodeCount + 1
  revLength : graph.revOffsets.length = graph.nodeCount + 1
  forwardLast : ∃ stop, graph.forwardOffsets.getLast? = some stop ∧ stop.toNat = edgeCount
  revLast : ∃ stop, graph.revOffsets.getLast? = some stop ∧ stop.toNat = edgeCount
  forward : ∀ node entries, node.val.toNat < graph.nodeCount →
    graph.forwardEdges node = .ok entries →
    ∀ entry ∈ entries, entry.1.val.toNat < graph.nodeCount
  reverse : ∀ node entries, node.val.toNat < graph.nodeCount →
    graph.reverseEdges node = .ok entries →
    ∀ entry ∈ entries, entry.1.val.toNat < graph.nodeCount

/-! ### How the reverse builder fails -/

theorem index_eq_error {α : Type} {xs : List α} {i : Nat} {fault : Fault}
    (h : index xs i = .error fault) : fault = .panic := by
  unfold index at h
  cases hGet : xs[i]? with
  | none =>
      rw [hGet] at h
      exact (Except.error.inj h).symm
  | some a =>
      rw [hGet] at h
      cases h

theorem addU32_eq_error {profile : Profile} {a b : UInt32} {fault : Fault}
    (h : addU32 profile a b = .error fault) : fault = .panic := by
  rw [addU32_eq_ite] at h
  split at h
  · cases h
  · exact (Except.error.inj h).symm

/-- With overflow checks a sum that is returned is exact. -/
theorem toNat_of_addU32_dev {a b c : UInt32} (h : addU32 .dev a b = .ok c) :
    c.toNat = a.toNat + b.toNat := by
  rw [addU32_eq_ite] at h
  split at h
  · next hFits =>
      obtain rfl := Except.ok.inj h
      rw [UInt32.toNat_add, Nat.mod_eq_of_lt (hFits.resolve_left (by simp))]
  · cases h

/-- The body of the first pass. -/
def countEdge (profile : Profile) (inCounts : List UInt32) (edge : EdgeRow) :
    Exec (List UInt32) := do
  let count ← index inCounts edge.targetIdx
  let count ← addU32 profile count 1
  .ok (inCounts.set edge.targetIdx count)

theorem countIncoming_eq_foldlM (profile : Profile) (edges : List EdgeRow) (nodeCount : Nat) :
    countIncoming profile edges nodeCount =
      edges.foldlM (countEdge profile) (List.replicate nodeCount 0) := rfl

theorem countEdge_eq_error {profile : Profile} {inCounts : List UInt32} {edge : EdgeRow}
    {fault : Fault} (h : countEdge profile inCounts edge = .error fault) : fault = .panic := by
  unfold countEdge at h
  cases hIndex : index inCounts edge.targetIdx with
  | error fault' =>
      rw [hIndex] at h
      obtain rfl : fault' = fault := Except.error.inj h
      exact index_eq_error hIndex
  | ok count =>
      rw [hIndex, Exec.ok_bind] at h
      cases hAdd : addU32 profile count 1 with
      | error fault' =>
          rw [hAdd] at h
          obtain rfl : fault' = fault := Except.error.inj h
          exact addU32_eq_error hAdd
      | ok next =>
          rw [hAdd] at h
          cases h

theorem countEdge_eq_ok {profile : Profile} {inCounts inCounts' : List UInt32} {edge : EdgeRow}
    (h : countEdge profile inCounts edge = .ok inCounts') :
    ∃ count next, inCounts[edge.targetIdx]? = some count ∧ addU32 profile count 1 = .ok next ∧
      inCounts' = inCounts.set edge.targetIdx next := by
  obtain ⟨count, hIndex, h⟩ := Exec.of_bind_eq_ok h
  obtain ⟨next, hAdd, h⟩ := Exec.of_bind_eq_ok h
  exact ⟨count, next, index_eq_ok_iff.mp hIndex, hAdd, (Except.ok.inj h).symm⟩

theorem countIncoming_eq_error {profile : Profile} {edges : List EdgeRow} {nodeCount : Nat}
    {fault : Fault} (h : countIncoming profile edges nodeCount = .error fault) :
    fault = .panic := by
  rw [countIncoming_eq_foldlM] at h
  obtain ⟨inCounts, edge, hRound⟩ := foldlM_error _ h
  exact countEdge_eq_error hRound

/-- The first pass succeeds only when every target has a counter. -/
theorem target_lt_of_countIncoming {profile : Profile} {edges : List EdgeRow} {nodeCount : Nat}
    {inCounts : List UInt32} (h : countIncoming profile edges nodeCount = .ok inCounts) :
    ∀ edge ∈ edges, edge.targetIdx < nodeCount := by
  rw [countIncoming_eq_foldlM] at h
  refine (foldlM_invariant (countEdge profile)
    (fun done inCounts => inCounts.length = nodeCount ∧ ∀ edge ∈ done, edge.targetIdx < nodeCount)
    ⟨List.length_replicate .., by simp⟩ ?_ h).2
  rintro done edge inCounts next ⟨hLength, hDone⟩ hRound
  obtain ⟨count, count', hGet, -, rfl⟩ := countEdge_eq_ok hRound
  refine ⟨by rw [List.length_set, hLength], fun other hOther => ?_⟩
  rcases List.mem_append.mp hOther with hOld | hNew
  · exact hDone other hOld
  · rw [List.mem_singleton.mp hNew, ← hLength]
    exact (List.getElem?_eq_some_iff.mp hGet).1

theorem countIncoming_panic (profile : Profile) {edges : List EdgeRow} {nodeCount : Nat}
    (hTarget : ∃ edge ∈ edges, nodeCount ≤ edge.targetIdx) :
    countIncoming profile edges nodeCount = .error .panic := by
  cases hCount : countIncoming profile edges nodeCount with
  | error fault => rw [countIncoming_eq_error hCount]
  | ok inCounts =>
      obtain ⟨edge, hEdge, hOut⟩ := hTarget
      exact absurd (target_lt_of_countIncoming hCount edge hEdge) hOut.not_gt

theorem buildReverseCsr_panic (profile : Profile) {edges : List EdgeRow} {nodeCount : Nat}
    (hTarget : ∃ edge ∈ edges, nodeCount ≤ edge.targetIdx) :
    buildReverseCsr profile edges nodeCount = .error .panic := by
  rw [buildReverseCsr, countIncoming_panic profile hTarget, Exec.error_bind]

/-- Sum of a list of counters. -/
def total (inCounts : List UInt32) : Nat := (inCounts.map UInt32.toNat).sum

theorem total_set {inCounts : List UInt32} {i : Nat} {count next : UInt32}
    (hGet : inCounts[i]? = some count) (hNext : next.toNat = count.toNat + 1) :
    total (inCounts.set i next) = total inCounts + 1 := by
  induction inCounts generalizing i with
  | nil => cases hGet
  | cons first inCounts ih =>
      cases i with
      | zero =>
          obtain rfl : first = count := Option.some.inj hGet
          simp only [total, List.set_cons_zero, List.map_cons, List.sum_cons, hNext]
          omega
      | succ i =>
          have hRest := ih hGet
          simp only [total, List.set_cons_succ, List.map_cons, List.sum_cons] at hRest ⊢
          omega

/-- With overflow checks the counters add up to the number of edges. -/
theorem total_of_countIncoming_dev {edges : List EdgeRow} {nodeCount : Nat}
    {inCounts : List UInt32} (h : countIncoming .dev edges nodeCount = .ok inCounts) :
    total inCounts = edges.length := by
  rw [countIncoming_eq_foldlM] at h
  refine foldlM_invariant (countEdge .dev) (fun done inCounts => total inCounts = done.length)
    (by simp [total]) ?_ h
  intro done edge inCounts next hTotal hRound
  obtain ⟨count, count', hGet, hAdd, rfl⟩ := countEdge_eq_ok hRound
  have hOne : (1 : UInt32).toNat = 1 := rfl
  have hNext := toNat_of_addU32_dev hAdd
  rw [hOne] at hNext
  rw [total_set hGet hNext, hTotal, List.length_append, List.length_singleton]

/-- With overflow checks the prefix sums are returned only when they fit. -/
theorem total_lt_of_prefixSums_dev {inCounts offsets : List UInt32} {sum : UInt32}
    (h : prefixSums .dev inCounts = .ok (offsets, sum)) : total inCounts < 2 ^ 32 := by
  have hSum := foldlM_invariant _ (fun done s => s.2.toNat = total done) rfl ?_ h
  · rw [← hSum]
    exact sum.toNat_lt
  · rintro done count ⟨offsets, sum⟩ ⟨offsets', sum'⟩ hDone hRound
    obtain ⟨next, hAdd, hRound⟩ := Exec.of_bind_eq_ok hRound
    obtain ⟨-, rfl⟩ := Prod.mk.inj (Except.ok.inj hRound)
    show next.toNat = _
    rw [toNat_of_addU32_dev hAdd, hDone]
    simp [total]

theorem prefixSums_eq_error {profile : Profile} {inCounts : List UInt32} {fault : Fault}
    (h : prefixSums profile inCounts = .error fault) : fault = .panic := by
  obtain ⟨⟨offsets, sum⟩, count, hRound⟩ := foldlM_error _ h
  cases hAdd : addU32 profile sum count with
  | error fault' =>
      dsimp only at hRound
      rw [hAdd] at hRound
      obtain rfl : fault' = fault := Except.error.inj hRound
      exact addU32_eq_error hAdd
  | ok next =>
      dsimp only at hRound
      rw [hAdd] at hRound
      cases hRound

theorem buildReverseCsr_dev_panic {edges : List EdgeRow} {nodeCount : Nat}
    (hEdges : 2 ^ 32 ≤ edges.length) : buildReverseCsr .dev edges nodeCount = .error .panic := by
  rw [buildReverseCsr]
  cases hCount : countIncoming .dev edges nodeCount with
  | error fault => rw [countIncoming_eq_error hCount, Exec.error_bind]
  | ok inCounts =>
      rw [Exec.ok_bind]
      cases hSums : prefixSums .dev inCounts with
      | error fault => rw [prefixSums_eq_error hSums, Exec.error_bind]
      | ok sums =>
          obtain ⟨offsets, sum⟩ := sums
          have hTotal := total_lt_of_prefixSums_dev hSums
          rw [total_of_countIncoming_dev hCount] at hTotal
          omega

theorem addU32_release (a b : UInt32) : addU32 .release a b = .ok (a + b) := by
  rw [addU32_eq_ite, if_pos (.inl rfl)]

theorem assumeInit_eq_error {α : Type} {slots : List (Option α)} {fault : Fault}
    (h : assumeInit slots = .error fault) : fault = .undefinedBehaviour := by
  induction slots with
  | nil => cases h
  | cons slot slots ih =>
      cases slot with
      | none => exact (Except.error.inj h).symm
      | some value =>
          rw [assumeInit] at h
          cases hRest : assumeInit slots with
          | error fault' =>
              rw [hRest] at h ih
              obtain rfl : fault' = fault := Except.error.inj h
              exact ih rfl
          | ok values =>
              rw [hRest] at h
              cases h

section Release

variable {edges : List EdgeRow} {nodeCount : Nat}

theorem exists_countIncoming_release (hTarget : ∀ edge ∈ edges, edge.targetIdx < nodeCount) :
    ∃ inCounts, countIncoming .release edges nodeCount = .ok inCounts ∧
      inCounts.length = nodeCount := by
  rw [countIncoming_eq_foldlM]
  refine exists_foldlM_eq_ok (countEdge .release) (fun inCounts => inCounts.length = nodeCount)
    (List.length_replicate ..) fun edge hEdge inCounts hLength => ?_
  obtain ⟨count, hGet⟩ : ∃ count, inCounts[edge.targetIdx]? = some count :=
    ⟨_, List.getElem?_eq_getElem (hLength ▸ hTarget edge hEdge)⟩
  refine ⟨inCounts.set edge.targetIdx (count + 1), ?_, by rw [List.length_set, hLength]⟩
  rw [countEdge, index_eq_ok_iff.mpr hGet, Exec.ok_bind, addU32_release, Exec.ok_bind]

/-- One step of the prefix sums. -/
def addCount (profile : Profile) (sums : List UInt32 × UInt32) (count : UInt32) :
    Exec (List UInt32 × UInt32) := do
  let sum ← addU32 profile sums.2 count
  .ok (sums.1 ++ [sum], sum)

theorem prefixSums_eq_foldlM (profile : Profile) (inCounts : List UInt32) :
    prefixSums profile inCounts = inCounts.foldlM (addCount profile) ([0], 0) :=
  rfl

theorem exists_prefixSums_release (inCounts : List UInt32) :
    ∃ sums, prefixSums .release inCounts = .ok sums ∧ sums.1.length = inCounts.length + 1 := by
  rw [prefixSums_eq_foldlM]
  suffices h : ∀ start, ∃ sums, inCounts.foldlM (addCount .release) start = .ok sums ∧
      sums.1.length = start.1.length + inCounts.length by
    obtain ⟨sums, hSums, hLength⟩ := h ([0], 0)
    exact ⟨sums, hSums, by rw [hLength, List.length_singleton, Nat.add_comm]⟩
  induction inCounts with
  | nil => exact fun start => ⟨start, rfl, rfl⟩
  | cons count inCounts ih =>
      intro start
      obtain ⟨sums, hSums, hLength⟩ := ih (start.1 ++ [start.2 + count], start.2 + count)
      refine ⟨sums, ?_, ?_⟩
      · rw [List.foldlM_cons, addCount, addU32_release, Exec.ok_bind, Exec.ok_bind, hSums]
      · rw [hLength, List.length_append, List.length_singleton, List.length_cons]
        omega

/-- The sizes of the three arrays of the second pass. -/
structure SlotsSized (nodeCount slotCount : Nat) (s : ReverseState) : Prop where
  writePos : s.writePos.length = nodeCount + 1
  sources : s.sources.length = slotCount
  types : s.types.length = slotCount

theorem SlotsSized.exists_placeEdge {slotCount : Nat} {s : ReverseState} {edge : EdgeRow}
    (h : SlotsSized nodeCount slotCount s) (hSlots : 2 ^ 32 ≤ slotCount)
    (hTarget : edge.targetIdx < nodeCount) :
    ∃ s', s.placeEdge .release edge = .ok s' ∧ SlotsSized nodeCount slotCount s' := by
  have hIn : edge.targetIdx < s.writePos.length := by
    rw [h.writePos]
    exact Nat.lt_succ_of_lt hTarget
  obtain ⟨pos, hGet⟩ : ∃ pos, s.writePos[edge.targetIdx]? = some pos :=
    ⟨_, List.getElem?_eq_getElem hIn⟩
  have hPos := pos.toNat_lt
  have hSources := h.sources
  have hTypes := h.types
  refine ⟨⟨s.writePos.set edge.targetIdx (pos + 1), s.sources.set pos.toNat (some edge.source),
    s.types.set pos.toNat (some edge.edgeType)⟩, ?_, ?_⟩
  · rw [ReverseState.placeEdge, index_eq_ok_iff.mpr hGet, Exec.ok_bind, writeSlot,
      if_pos (by omega), Exec.ok_bind, writeSlot, if_pos (by omega), Exec.ok_bind, addU32_release,
      Exec.ok_bind]
  · exact ⟨by rw [List.length_set, h.writePos], by rw [List.length_set, hSources],
      by rw [List.length_set, hTypes]⟩

/-- Without overflow checks, edges that `u32` cannot count do not make the reverse
builder panic when every target is a node. -/
theorem buildReverseCsr_release_ne_panic (hTarget : ∀ edge ∈ edges, edge.targetIdx < nodeCount)
    (hEdges : 2 ^ 32 ≤ edges.length) :
    buildReverseCsr .release edges nodeCount ≠ .error .panic := by
  obtain ⟨inCounts, hCount, hCountLength⟩ := exists_countIncoming_release hTarget
  obtain ⟨⟨offsets, sum⟩, hSums, hOffsets⟩ := exists_prefixSums_release inCounts
  have hStart : SlotsSized nodeCount edges.length ⟨offsets, List.replicate edges.length none,
      List.replicate edges.length none⟩ :=
    ⟨by rw [hOffsets, hCountLength], List.length_replicate .., List.length_replicate ..⟩
  obtain ⟨s, hPlaced, -⟩ := exists_foldlM_eq_ok (ReverseState.placeEdge .release) _ hStart
    fun edge hEdge s hs => hs.exists_placeEdge hEdges (hTarget edge hEdge)
  -- what is left is reading the slots, which can fail but never panics
  intro hPanic
  rw [buildReverseCsr, hCount, Exec.ok_bind, hSums, Exec.ok_bind] at hPanic
  dsimp only at hPanic
  rw [hPlaced, Exec.ok_bind] at hPanic
  cases hSources : assumeInit s.sources with
  | error fault =>
      rw [hSources, Exec.error_bind, assumeInit_eq_error hSources] at hPanic
      cases hPanic
  | ok sources =>
      rw [hSources, Exec.ok_bind] at hPanic
      cases hTypes : assumeInit s.types with
      | error fault =>
          rw [hTypes, Exec.error_bind, assumeInit_eq_error hTypes] at hPanic
          cases hPanic
      | ok types =>
          rw [hTypes] at hPanic
          cases hPanic

end Release

/-! ### Both outcomes of freezing -/

/-- Freezing panics, or it returns a graph that keeps its promises.  The documentation of
the offsets allows no third outcome, and with an edge between missing nodes there is one.
-/
def PanicsOrSound (outcome : Exec FrozenGraph) (edgeCount : Nat) : Prop :=
  outcome = .error .panic ∨ ∃ frozen, outcome = .ok frozen ∧ EndpointsSound frozen edgeCount

/-- Offsets of the promised shape leave no room for a source behind the last node: the
forward builder would have pushed an offset for it.  Nor can there be more edges than the
last offset counts. -/
theorem source_lt_of_csrOffsets {edges : List EdgeRow} {nodeCount last : Nat}
    (hLength : (csrOffsets EdgeRow.sourceIdx edges last).length = nodeCount + 1)
    (hLast : ∃ stop, (csrOffsets EdgeRow.sourceIdx edges last).getLast? = some stop ∧
      stop.toNat = edges.length) :
    (∀ edge ∈ edges, edge.sourceIdx < nodeCount) ∧ edges.length < 2 ^ 32 := by
  obtain rfl : last = nodeCount := by simpa [csrOffsets] using hLength
  obtain ⟨stop, hStop, hCount⟩ := hLast
  rw [csrOffsets, List.range_succ, List.map_append, List.map_singleton, List.getLast?_concat,
    Option.some.injEq] at hStop
  have hBelow : bucketStart EdgeRow.sourceIdx edges last = edges.length := by
    have hMod : (UInt32.ofNat (bucketStart EdgeRow.sourceIdx edges last)).toNat =
        bucketStart EdgeRow.sourceIdx edges last % 2 ^ 32 := rfl
    have hLe := bucketStart_le_length EdgeRow.sourceIdx edges last
    rw [hStop, hCount] at hMod
    have := Nat.mod_le (bucketStart EdgeRow.sourceIdx edges last) (2 ^ 32)
    omega
  constructor
  · intro edge hEdge
    simpa using List.countP_eq_length.mp hBelow edge hEdge
  · rw [← hCount]
    exact stop.toNat_lt

section Freeze

variable {profile : Profile} {roaring : Roaring} {fst : Fst} {graph : MutableGraph}
  {interner : FrozenInterner}

theorem endpointsSound_of_freeze {frozen : FrozenGraph}
    (hEndpoints : ∀ edge ∈ graph.zippedEdges, edge.sourceIdx < graph.nodeLabels.length ∧
      edge.targetIdx < graph.nodeLabels.length)
    (hEdges : graph.zippedEdges.length < 2 ^ 32)
    (hFreeze : graph.freeze profile roaring fst interner = .ok frozen) :
    EndpointsSound frozen graph.zippedEdges.length := by
  obtain ⟨hLabels, hExact⟩ := adjacencyExact_of_freeze hEndpoints hEdges hFreeze
  rw [← hLabels] at hEndpoints
  refine ⟨hExact.forwardOffsets.length, hExact.revOffsets.length, hExact.forwardOffsets.last,
    hExact.revOffsets.last, ?_, ?_⟩
  · intro node entries hNode hEntries entry hEntry
    rw [hExact.forward node hNode] at hEntries
    obtain rfl := Except.ok.inj hEntries
    obtain ⟨edge, hEdge, rfl⟩ := List.mem_map.mp hEntry
    exact (hEndpoints edge (List.mem_filter.mp (mem_sortByKey.mp hEdge)).1).2
  · intro node entries hNode hEntries entry hEntry
    rw [hExact.reverse node hNode] at hEntries
    obtain rfl := Except.ok.inj hEntries
    obtain ⟨edge, hEdge, rfl⟩ := List.mem_map.mp hEntry
    exact (hEndpoints edge (List.mem_filter.mp (mem_sortByKey.mp hEdge)).1).1

theorem freeze_panic (hReverse : buildReverseCsr profile (sortEdges graph.zippedEdges)
    graph.nodeLabels.length = .error .panic) :
    graph.freeze profile roaring fst interner = .error .panic := by
  rw [freeze_eq_bind, hReverse, Exec.error_bind]

variable {bytes : List UInt8} {index : List UInt8 × List (List NodeId)}

/-- When the indexes are built, only the reverse builder can make `freeze` panic. -/
theorem freeze_ne_panic
    (hReverse : buildReverseCsr profile (sortEdges graph.zippedEdges)
      graph.nodeLabels.length ≠ .error .panic)
    (hBytes : labelIndexBytes roaring graph.nodeLabels = .ok bytes)
    (hIndex : buildBareNameIndex fst graph.nodeNames interner = .ok index) :
    graph.freeze profile roaring fst interner ≠ .error .panic := by
  rw [freeze_eq_bind]
  cases hResult : buildReverseCsr profile (sortEdges graph.zippedEdges) graph.nodeLabels.length with
  | error fault =>
      intro hPanic
      obtain rfl : fault = .panic := Except.error.inj hPanic
      exact hReverse hResult
  | ok reverse =>
      rw [Exec.ok_bind, hBytes, Exec.ok_bind, hIndex, Exec.ok_bind]
      simp

/-- When every target is a node, a returned graph has the promised shape only if
every source is a node and `u32` can count the edges. -/
theorem source_lt_of_freeze {frozen : FrozenGraph}
    (hFreeze : graph.freeze profile roaring fst interner = .ok frozen)
    (hSound : EndpointsSound frozen graph.zippedEdges.length) :
    (∀ edge ∈ graph.zippedEdges, edge.sourceIdx < graph.nodeLabels.length) ∧
      graph.zippedEdges.length < 2 ^ 32 := by
  obtain ⟨reverse, bytes, index, -, -, -, rfl⟩ := exists_of_freeze_eq_ok hFreeze
  obtain ⟨last, -, -, -, hForward⟩ :=
    exists_buildForwardCsr_eq graph.nodeLabels.length (sortEdges_sorted graph.zippedEdges)
  have hLength := hSound.forwardLength
  have hLast := hSound.forwardLast
  simp only [frozenWith, FrozenGraph.nodeCount, hForward] at hLength hLast
  rw [← length_sortEdges graph.zippedEdges] at hLast ⊢
  obtain ⟨hSource, hEdges⟩ := source_lt_of_csrOffsets hLength hLast
  exact ⟨fun edge hEdge => hSource edge (mem_sortEdges.mpr hEdge), hEdges⟩

/-- The exact outcome of freezing, once the two indexes are built.  A target behind the
last node makes the reverse builder panic, whatever else is wrong.  A source behind it is
not noticed, because the forward builder only pushes more offsets. -/
theorem panicsOrSound_iff
    (hBytes : labelIndexBytes roaring graph.nodeLabels = .ok bytes)
    (hIndex : buildBareNameIndex fst graph.nodeNames interner = .ok index) :
    PanicsOrSound (graph.freeze profile roaring fst interner) graph.zippedEdges.length ↔
      (∃ edge ∈ graph.zippedEdges, graph.nodeLabels.length ≤ edge.targetIdx) ∨
      ((∀ edge ∈ graph.zippedEdges, edge.sourceIdx < graph.nodeLabels.length) ∧
        graph.zippedEdges.length < 2 ^ 32) ∨
      (profile = .dev ∧ 2 ^ 32 ≤ graph.zippedEdges.length) := by
  have hCount := length_sortEdges graph.zippedEdges
  by_cases hDangling : ∃ edge ∈ graph.zippedEdges, graph.nodeLabels.length ≤ edge.targetIdx
  · refine iff_of_true (.inl (freeze_panic ?_)) (.inl hDangling)
    obtain ⟨edge, hEdge, hOut⟩ := hDangling
    exact buildReverseCsr_panic profile ⟨edge, mem_sortEdges.mpr hEdge, hOut⟩
  push Not at hDangling
  have hTarget : ∀ edge ∈ sortEdges graph.zippedEdges, edge.targetIdx < graph.nodeLabels.length :=
    fun edge hEdge => hDangling edge (mem_sortEdges.mp hEdge)
  by_cases hOverflow : profile = .dev ∧ 2 ^ 32 ≤ graph.zippedEdges.length
  · obtain ⟨rfl, hEdges⟩ := hOverflow
    refine iff_of_true (.inl (freeze_panic ?_)) (.inr (.inr ⟨rfl, hEdges⟩))
    exact buildReverseCsr_dev_panic (hCount ▸ hEdges)
  -- no panic is left, so the graph is returned, or the slots are read too early
  have hReverse : buildReverseCsr profile (sortEdges graph.zippedEdges)
      graph.nodeLabels.length ≠ .error .panic := by
    rcases lt_or_ge graph.zippedEdges.length (2 ^ 32) with hEdges | hEdges
    · rw [buildReverseCsr_eq profile hTarget (hCount ▸ hEdges)]
      simp
    · cases profile with
      | dev => exact absurd ⟨rfl, hEdges⟩ hOverflow
      | release => exact buildReverseCsr_release_ne_panic hTarget (hCount ▸ hEdges)
  constructor
  · rintro (hPanic | ⟨frozen, hFreeze, hSound⟩)
    · exact absurd hPanic (freeze_ne_panic hReverse hBytes hIndex)
    · exact .inr (.inl (source_lt_of_freeze hFreeze hSound))
  · rintro (⟨edge, hEdge, hOut⟩ | ⟨hSource, hEdges⟩ | hDev)
    · exact absurd (hDangling edge hEdge) hOut.not_gt
    · have hEndpoints := fun edge hEdge => And.intro (hSource edge hEdge) (hDangling edge hEdge)
      have hFreeze : graph.freeze profile roaring fst interner = .ok _ :=
        freeze_eq_ok hEndpoints hEdges hBytes hIndex
      exact .inr ⟨_, hFreeze, endpointsSound_of_freeze hEndpoints hEdges hFreeze⟩
    · exact absurd hDev hOverflow

end Freeze

theorem exists_indexes {roaring : Roaring} {fst : Fst} (hFst : FstLaw fst)
    {interner : FrozenInterner} {calls : List Call}
    (hBitmaps : ∀ i, ∃ buf, roaring.serializeInto (labelBitmaps roaring
      ((nodeRows calls).map NodeRow.label) i) = some buf ∧ buf.length < 2 ^ 32)
    (hNames : ∀ row ∈ nodeRows calls, ∃ name, interner.resolve row.name = .ok name) :
    ∃ bytes index, labelIndexBytes roaring (build calls).nodeLabels = .ok bytes ∧
      buildBareNameIndex fst (build calls).nodeNames interner = .ok index := by
  choose bufs hSerialize hSize using hBitmaps
  choose! name hName using hNames
  have hResolve : List.Forall₂ (fun handle name => interner.resolve handle = .ok name)
      ((nodeRows calls).map NodeRow.name) ((nodeRows calls).map name) := by
    rw [List.forall₂_map_left_iff, List.forall₂_map_right_iff, List.forall₂_same]
    exact hName
  obtain ⟨groups, bytes, map, hIndex, -⟩ := buildBareNameIndex_ok hFst hResolve
  rw [(holds_build calls).nodeLabels, (holds_build calls).nodeNames]
  exact ⟨_, _, labelIndexBytes_ok hSerialize hSize, hIndex⟩

/-- For every run, freezing panics or returns a graph that keeps its promises if and
only if a target is not a node, or every source is a node and `u32` can count the
edges, or it cannot and overflow is checked. -/
theorem panicsOrSound_freeze_iff (profile : Profile) {roaring : Roaring} {fst : Fst}
    (hFst : FstLaw fst) {interner : FrozenInterner} (calls : List Call)
    (hBitmaps : ∀ i, ∃ buf, roaring.serializeInto (labelBitmaps roaring
      ((nodeRows calls).map NodeRow.label) i) = some buf ∧ buf.length < 2 ^ 32)
    (hNames : ∀ row ∈ nodeRows calls, ∃ name, interner.resolve row.name = .ok name) :
    PanicsOrSound ((build calls).freeze profile roaring fst interner) (edgeRows calls).length ↔
      (∃ edge ∈ edgeRows calls, (nodeRows calls).length ≤ edge.targetIdx) ∨
      ((∀ edge ∈ edgeRows calls, edge.sourceIdx < (nodeRows calls).length) ∧
        (edgeRows calls).length < 2 ^ 32) ∨
      (profile = .dev ∧ 2 ^ 32 ≤ (edgeRows calls).length) := by
  obtain ⟨bytes, index, hBytes, hIndex⟩ := exists_indexes hFst hBitmaps hNames
  have hIff : PanicsOrSound ((build calls).freeze profile roaring fst interner) _ ↔ _ :=
    panicsOrSound_iff hBytes hIndex
  have hCount : (build calls).nodeLabels.length = (nodeRows calls).length := by
    rw [(holds_build calls).nodeLabels, List.length_map]
  rwa [(holds_build calls).zippedEdges, hCount] at hIff

theorem panicsOrSound_sampleCalls :
    PanicsOrSound ((build sampleCalls).freeze .dev plainRoaring plainFst sampleInterner) 4 := by
  have hNames : ∀ row ∈ nodeRows sampleCalls, sampleInterner.resolve row.name = .ok "a" := by
    decide
  exact (panicsOrSound_freeze_iff .dev fstLaw_plainFst sampleCalls
    (fun i => ⟨_, rfl, by revert i; decide⟩) fun row hRow => ⟨"a", hNames row hRow⟩).mpr
    (.inr (.inl ⟨by decide, by decide⟩))

/-- One node, and an edge to it from a node that does not exist. -/
def danglingCalls : List Call :=
  [.addNode ⟨.function, ⟨0⟩, ⟨0⟩, 1, 1⟩, .addEdge ⟨⟨5⟩, ⟨0⟩, .calls⟩]

theorem not_panicsOrSound_danglingCalls :
    ∃ frozen, (build danglingCalls).freeze .dev plainRoaring plainFst sampleInterner = .ok frozen ∧
      frozen.nodeCount = 1 ∧ frozen.forwardOffsets = [0, 0, 0, 0, 0, 0] ∧
      frozen.reverseEdges ⟨0⟩ = .ok [(⟨5⟩, .calls)] ∧
      ¬PanicsOrSound ((build danglingCalls).freeze .dev plainRoaring plainFst sampleInterner) 1 := by
  have hNames : ∀ row ∈ nodeRows danglingCalls, sampleInterner.resolve row.name = .ok "a" := by
    decide
  have hBitmaps : ∀ i, ∃ buf, plainRoaring.serializeInto (labelBitmaps plainRoaring
      ((nodeRows danglingCalls).map NodeRow.label) i) = some buf ∧ buf.length < 2 ^ 32 :=
    fun i => ⟨_, rfl, by revert i; decide⟩
  obtain ⟨bytes, index, hBytes, hIndex⟩ := exists_indexes fstLaw_plainFst hBitmaps
    fun row hRow => ⟨"a", hNames row hRow⟩
  have hReverse : buildReverseCsr .dev (sortEdges (build danglingCalls).zippedEdges)
      (build danglingCalls).nodeLabels.length = .ok ([0, 1], [⟨5⟩], [.calls]) := by decide
  have hFreeze : (build danglingCalls).freeze .dev plainRoaring plainFst sampleInterner = .ok
      (frozenWith (build danglingCalls) sampleInterner ([0, 1], [⟨5⟩], [.calls]) bytes index) := by
    rw [freeze_eq_bind, hReverse, Exec.ok_bind, hBytes, Exec.ok_bind, hIndex, Exec.ok_bind]
  have hOffsets : (buildForwardCsr (sortEdges (build danglingCalls).zippedEdges)
      (build danglingCalls).nodeLabels.length).1 = [0, 0, 0, 0, 0, 0] := by decide
  refine ⟨_, hFreeze, rfl, hOffsets, rfl, ?_⟩
  rw [hFreeze]
  rintro (hPanic | ⟨frozen, hFrozen, hSound⟩)
  · cases hPanic
  · obtain rfl := Except.ok.inj hFrozen
    have hLength : (buildForwardCsr (sortEdges (build danglingCalls).zippedEdges)
        (build danglingCalls).nodeLabels.length).1.length =
          (build danglingCalls).nodeLabels.length + 1 := hSound.forwardLength
    rw [hOffsets] at hLength
    exact absurd hLength (by decide)

end Graph
end CodebaseMem
