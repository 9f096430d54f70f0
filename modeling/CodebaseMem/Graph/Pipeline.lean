import CodebaseMem.Core.ConcurrentInterner
import CodebaseMem.Graph.ConcurrentSaves
import CodebaseMem.Graph.Loading
import CodebaseMem.Graph.Representation
import CodebaseMem.Graph.SerialBuilds

/-!
# From threads to a loaded graph

The whole way of a graph: threads intern the strings of its nodes, `compact` freezes the
string table, the nodes and edges are added with relocated handles, `freeze` builds the
indexes, `save` writes them and `load` reads them back.  The nodes and edges may be added
by threads as well.

* `StoredByThreads`: a row is a node with its strings replaced by relocated handles that
  some thread was given.
* `represents_load_save`: the frozen graph, and the loaded one, represent the code graph.
* `represents_of_threads`: the nodes and edges are added by concurrent calls that keep
  the rows; there is one code graph, with each node at the id its call returned.

Each stage has a module of its own, and the proofs here only put them together.  The
bounds of the stages add up: less than 4 GiB of strings, no shard overfull, fewer than
`2 ^ 32` nodes and edges.
-/

namespace CodebaseMem
namespace Graph

open CodebaseMem.Core Library Library.Interleaving

section

variable {τ : Type*} (programs : τ → List String) (shared : SharedInterner τ)
  (remap : InternedStr → Exec InternedStr)

/-- `h` is a relocated handle that some thread was given for `s`. -/
def GivenFor (s : String) (h : InternedStr) : Prop :=
  ∃ t raw, (s, raw) ∈ (programs t).zip (shared.workers t).results ∧ remap raw = .ok h

/-- `row` is `node` with its strings replaced by relocated handles of the threads. -/
structure StoredByThreads (node : CodeNode) (row : NodeRow) : Prop where
  label : row.label = node.label
  name : GivenFor programs shared remap node.name row.name
  file : GivenFor programs shared remap node.file row.file
  line : row.line = node.line
  column : row.column = node.column

variable {programs shared remap}

/-- Handles that are positions in the string table make stored rows of the rows of the
threads. -/
theorem StoredByThreads.stored {items : List String}
    (hGiven : ∀ s h, GivenFor programs shared remap s h → RecordAt utf8 items h.val.toNat s)
    {node : CodeNode} {row : NodeRow} (h : StoredByThreads programs shared remap node row) :
    StoredRow items node row where
  label := h.label
  name := hGiven _ _ h.name
  file := hGiven _ _ h.file
  line := h.line
  column := h.column

theorem holdsCode_build {items : List String}
    (hGiven : ∀ s h, GivenFor programs shared remap s h → RecordAt utf8 items h.val.toNat s)
    {code : CodeGraph} {calls : List Call}
    (hNodes : List.Forall₂ (StoredByThreads programs shared remap) code.nodes (nodeRows calls))
    (hEdges : edgeRows calls = code.edges.map CodeEdge.row)
    (hNodeCount : code.nodes.length < 2 ^ 32) (hEdgeCount : code.edges.length < 2 ^ 32) :
    HoldsCode items (build calls) code (nodeRows calls) where
  columns := hEdges ▸ holds_build calls
  stored := hNodes.imp fun _ _ hRow => hRow.stored hGiven
  nodeCount := hNodeCount
  edgeCount := hEdgeCount

end

/-- The handles that the threads were given are, relocated, positions in the frozen string
table. -/
theorem exists_recordAt_of_givenFor {τ : Type*} [DecidableEq τ] [Fintype τ] {profile : Profile}
    {shardIndex : String → Fin shardCount} {programs : τ → List String} {schedule : List τ}
    (hEnded : SharedInterner.AllEnded (SharedInterner.after shardIndex programs schedule))
    (hShards : ∀ i, shardDemand shardIndex (SharedInterner.allCalls programs) i ≤ 2 ^ 28)
    (hTotal : ∑ s ∈ SharedInterner.allCalls programs, recordLen s < 2 ^ 32)
    {frozen : FrozenInterner} {remap : InternedStr → Exec InternedStr}
    (hCompact : (SharedInterner.after shardIndex programs schedule).compact profile =
      .ok (frozen, remap)) :
    ∃ items, FrozenHolds frozen items ∧ ∀ s h,
      GivenFor programs (SharedInterner.after shardIndex programs schedule) remap s h →
        RecordAt utf8 items h.val.toNat s := by
  obtain ⟨tables, hHolds, hBytes, hSound, -, hHandleOf⟩ :=
    SharedInterner.exists_tables shardIndex programs schedule hEnded hShards
  obtain ⟨frozen', remap', hCompact', hFrozen, hRemap⟩ := hHolds.compact profile (hBytes ▸ hTotal)
  rw [SharedInterner.compact_of_sound profile hSound, hCompact'] at hCompact
  obtain ⟨rfl, rfl⟩ := Prod.mk.inj (Except.ok.inj hCompact)
  refine ⟨allStrings tables, hFrozen, ?_⟩
  rintro s h ⟨t, raw, hMem, hStable⟩
  obtain ⟨stable, hStable', hRecord⟩ := hRemap s raw (hHandleOf t s raw hMem)
  rw [hStable, Except.ok.injEq] at hStable'
  rwa [hStable']

/-- Threads intern strings in any order, `compact` relocates the handles, and the nodes
and edges of a graph are added in any order, each kind in its own.  Then `freeze` returns
a graph while the label bitmaps fit, every graph it returns represents the nodes and
edges, and so does the graph that `load` reads after a `save`. -/
theorem represents_load_save {τ : Type*} [DecidableEq τ] [Fintype τ] (profile : Profile)
    {roaring : Roaring} {mem : roaring.Bitmap → UInt32 → Prop} (hRoaring : RoaringLaw roaring mem)
    {fst : Fst} (hFst : FstLaw fst) (shardIndex : String → Fin shardCount)
    (programs : τ → List String) (schedule : List τ)
    (hEnded : SharedInterner.AllEnded (SharedInterner.after shardIndex programs schedule))
    (hShards : ∀ i, shardDemand shardIndex (SharedInterner.allCalls programs) i ≤ 2 ^ 28)
    (hTotal : ∑ s ∈ SharedInterner.allCalls programs, recordLen s < 2 ^ 32)
    {frozen : FrozenInterner} {remap : InternedStr → Exec InternedStr}
    (hCompact : (SharedInterner.after shardIndex programs schedule).compact profile =
      .ok (frozen, remap))
    (code : CodeGraph) (calls : List Call)
    (hNodes : List.Forall₂ (StoredByThreads programs
      (SharedInterner.after shardIndex programs schedule) remap) code.nodes (nodeRows calls))
    (hEdges : edgeRows calls = code.edges.map CodeEdge.row)
    (hNodeCount : code.nodes.length < 2 ^ 32) (hEdgeCount : code.edges.length < 2 ^ 32) :
    ((∀ i, ∃ buf, roaring.serializeInto (labelBitmaps roaring (build calls).nodeLabels i) =
        some buf ∧ buf.length < 2 ^ 32) →
      ∃ graph, (build calls).freeze profile roaring fst frozen = .ok graph) ∧
    ∀ graph, (build calls).freeze profile roaring fst frozen = .ok graph →
      Represents mem fst graph code ∧
      (∀ s h, GivenFor programs (SharedInterner.after shardIndex programs schedule) remap s h →
        graph.HandleOfString s h) ∧
      ∀ (rkyv : Rkyv) (xxh3 : Xxh3) (payload : List UInt8), RoundTrips rkyv graph →
        rkyv.toBytes graph = .ok payload → ∀ (files : Files) (path : Path),
          ∃ mapped, load profile rkyv xxh3 (save rkyv xxh3 files graph path).1 path =
            .ok (.ok mapped) ∧ Represents mem fst mapped.graph code := by
  -- first the strings, then the rows over them, then what is frozen of the rows
  obtain ⟨items, hFrozen, hGiven⟩ := exists_recordAt_of_givenFor hEnded hShards hTotal hCompact
  have hCode := holdsCode_build hGiven hNodes hEdges hNodeCount hEdgeCount
  have hRepresents : ∀ {graph}, (build calls).freeze profile roaring fst frozen = .ok graph →
      Represents mem fst graph code :=
    fun hFreeze => represents_of_freeze hRoaring hFst hFrozen hCode hFreeze
  refine ⟨fun hFits => ?_, fun graph hFreeze => ⟨hRepresents hFreeze, fun s h hName => ?_, ?_⟩⟩
  · exact exists_freeze profile roaring hFst hFrozen hCode hFits
  · refine ⟨items, ?_, hGiven s h hName⟩
    obtain ⟨reverse, bytes, index, -, -, -, rfl⟩ := exists_of_freeze_eq_ok hFreeze
    exact hFrozen
  · -- the loaded graph is the frozen one, so it answers alike
    intro rkyv xxh3 payload hLaws hPayload files path
    obtain ⟨mmap, hContent, hLoad⟩ := fromMmap_save profile rkyv xxh3 hPayload
      (hLaws.decodes payload hPayload) (hLaws.fits payload hPayload) files path
    exact ⟨⟨mmap, graph⟩, load_of_contentAt hContent hLoad, hRepresents hFreeze⟩

/-- Three nodes and two edges; a name occurs twice, and one string is a name and a file. -/
def sampleCode : CodeGraph where
  nodes := [⟨⟨.function, "b", "f.rs"⟩, 1, 1⟩, ⟨⟨.class_, "a", "f.rs"⟩, 7, 1⟩,
    ⟨⟨.method, "b", "a"⟩, 2, 5⟩]
  edges := [⟨2, 0, .calls⟩, ⟨2, 1, .contains⟩]
  endpoints := by decide

/-- The calls that build `sampleCode`, one edge before its nodes. -/
def sampleCodeCalls : List Call :=
  [.addEdge ⟨⟨2⟩, ⟨0⟩, .calls⟩, .addNode ⟨.function, ⟨0⟩, ⟨5⟩, 1, 1⟩,
    .addNode ⟨.class_, ⟨13⟩, ⟨5⟩, 7, 1⟩, .addNode ⟨.method, ⟨0⟩, ⟨13⟩, 2, 5⟩,
    .addEdge ⟨⟨2⟩, ⟨1⟩, .contains⟩]

/-- What two threads intern. -/
def sampleStrings (t : Bool) : List String := if t then ["b", "f.rs"] else ["a", "b"]

/-- The second thread waits for the shard of `"a"`, which the first one holds. -/
def sampleTurns : List Bool :=
  [true, true, true, true, false, true, false, true, false, false, false, false, false, false]

/-- A serialiser in a program that has one graph. -/
def oneGraphRkyv (graph : FrozenGraph) : Rkyv where
  toBytes := fun _ => .ok [3, 1, 4]
  fromBytes := fun bytes => if bytes = [3, 1, 4] then .ok graph else .error "archive"

theorem represents_load_save_sampleCode :
    ∃ graph, @Represents plainRoaring plainMem plainFst graph sampleCode ∧
      ∃ mapped, load .dev (oneGraphRkyv graph) byteSum
          (save (oneGraphRkyv graph) byteSum noFiles graph graphBin).1 graphBin =
        .ok (.ok mapped) ∧ @Represents plainRoaring plainMem plainFst mapped.graph sampleCode := by
  obtain ⟨hSucceeds, hEvery⟩ := represents_load_save .dev roaringLaw_plainRoaring fstLaw_plainFst
    twoShards sampleStrings sampleTurns (by decide) (by decide) (by decide) rfl sampleCode
    sampleCodeCalls
    (.cons ⟨rfl, ⟨true, ⟨0x30000000⟩, by decide, rfl⟩, ⟨true, ⟨0xF0000000⟩, by decide, rfl⟩,
        rfl, rfl⟩ <|
      .cons ⟨rfl, ⟨false, ⟨0xF0000008⟩, by decide, rfl⟩, ⟨true, ⟨0xF0000000⟩, by decide, rfl⟩,
        rfl, rfl⟩ <|
      .cons ⟨rfl, ⟨false, ⟨0x30000000⟩, by decide, rfl⟩, ⟨false, ⟨0xF0000008⟩, by decide, rfl⟩,
        rfl, rfl⟩ .nil)
    rfl (by decide) (by decide)
  obtain ⟨graph, hFreeze⟩ := hSucceeds fun i => ⟨_, rfl, by revert i; decide⟩
  obtain ⟨hRepresents, -, hLoad⟩ := hEvery graph hFreeze
  refine ⟨graph, hRepresents, hLoad (oneGraphRkyv graph) byteSum [3, 1, 4] ⟨?_, ?_⟩ rfl
    noFiles graphBin⟩
  · intro payload hBytes
    cases hBytes
    rfl
  · intro payload hBytes
    cases hBytes
    decide

/-! ### Threads that build -/

def EdgeRow.codeEdge (row : EdgeRow) : CodeEdge where
  source := row.sourceIdx
  target := row.targetIdx
  edgeType := row.edgeType

@[simp] theorem row_codeEdge (row : EdgeRow) : row.codeEdge.row = row := by
  simp [EdgeRow.codeEdge, CodeEdge.row, nodeIdOfIdx]

/-- The nodes of the calls in the order in which the calls drew their ids, with the edges of
some rows. -/
def drawnCode {n : Nat} (named : Fin n → CodeNode) (drawn : List (Fin n)) (rows : List EdgeRow)
    (hEndpoints : ∀ row ∈ rows, row.sourceIdx < drawn.length ∧ row.targetIdx < drawn.length) :
    CodeGraph where
  nodes := drawn.map named
  edges := rows.map EdgeRow.codeEdge
  endpoints := by
    intro edge hEdge
    obtain ⟨row, hRow, rfl⟩ := List.mem_map.mp hEdge
    rw [List.length_map]
    exact hEndpoints row hRow

/-- Threads intern strings in any order and then add the nodes and edges of a graph, with
their actions in any order that keeps the rows with their ids and the triples.  The nodes,
each at the id that its call returned, and the edges are then a graph that `freeze`
represents, and it returns while the label bitmaps fit. -/
theorem represents_of_threads {τ : Type*} [DecidableEq τ] [Fintype τ] (profile : Profile)
    {roaring : Roaring} {mem : roaring.Bitmap → UInt32 → Prop} (hRoaring : RoaringLaw roaring mem)
    {fst : Fst} (hFst : FstLaw fst) (shardIndex : String → Fin shardCount)
    (programs : τ → List String) (schedule : List τ)
    (hEnded : SharedInterner.AllEnded (SharedInterner.after shardIndex programs schedule))
    (hShards : ∀ i, shardDemand shardIndex (SharedInterner.allCalls programs) i ≤ 2 ^ 28)
    (hTotal : ∑ s ∈ SharedInterner.allCalls programs, recordLen s < 2 ^ 32)
    {frozen : FrozenInterner} {remap : InternedStr → Exec InternedStr}
    (hCompact : (SharedInterner.after shardIndex programs schedule).compact profile =
      .ok (frozen, remap))
    (nodes : List NodeRow) (edges : List EdgeRow) (named : Fin nodes.length → CodeNode)
    (hNodes : ∀ i, StoredByThreads programs (SharedInterner.after shardIndex programs schedule)
      remap (named i) (nodes.get i))
    (hNodeCount : nodes.length < 2 ^ 32) (hEdgeCount : edges.length < 2 ^ 32)
    (hEndpoints : ∀ edge ∈ edges, edge.sourceIdx < nodes.length ∧ edge.targetIdx < nodes.length)
    (turns : List (BuildCall nodes edges))
    (hReturned : Returned (buildProgram nodes edges) (buildRun nodes edges turns))
    (hStay : RowsStayWithIds (buildRun nodes edges turns))
    (hKept : TriplesKept (buildRun nodes edges turns)) :
    ∃ code : CodeGraph, code.nodes.Perm (List.ofFn named) ∧
      (code.edges.map CodeEdge.row).Perm edges ∧
      (∀ i, ∃ id : UInt32, (buildRun nodes edges turns).regs (Sum.inl i) = some id ∧
        code.nodes[id.toNat]? = some (named i)) ∧
      ((∀ i, ∃ buf, roaring.serializeInto (labelBitmaps roaring
            (buildRun nodes edges turns).shared.nodeLabels i) = some buf ∧ buf.length < 2 ^ 32) →
        ∃ graph, (buildRun nodes edges turns).shared.freeze profile roaring fst frozen =
          .ok graph) ∧
      ∀ graph, (buildRun nodes edges turns).shared.freeze profile roaring fst frozen =
        .ok graph → Represents mem fst graph code := by
  obtain ⟨items, hFrozen, hGiven⟩ := exists_recordAt_of_givenFor hEnded hShards hTotal hCompact
  obtain ⟨drawn, hDrawn, hHolds, hIds⟩ :=
    holds_of_rowsStayWithIds hNodeCount (logged_buildRun turns) hReturned hStay
  -- the code graph has the nodes in the order of the draws and the edges as they were stored
  have hTriples := Multiset.coe_eq_coe.mp hKept
  have hLength : drawn.length = nodes.length := by
    rw [hDrawn.length_eq, List.length_finRange]
  have hInside : ∀ row ∈ (buildRun nodes edges turns).shared.zippedEdges,
      row.sourceIdx < drawn.length ∧ row.targetIdx < drawn.length := by
    intro row hRow
    rw [hLength]
    exact hEndpoints row (hTriples.mem_iff.mp hRow)
  have hRows : (drawnCode named drawn _ hInside).edges.map CodeEdge.row =
      (buildRun nodes edges turns).shared.zippedEdges := by
    rw [drawnCode, List.map_map]
    exact (List.map_congr_left fun row _ => row_codeEdge row).trans (List.map_id _)
  have hCode : HoldsCode items (buildRun nodes edges turns).shared
      (drawnCode named drawn _ hInside) (drawn.map nodes.get) :=
    { columns := hRows.symm ▸ hHolds
      stored := by
        rw [drawnCode, List.forall₂_map_left_iff, List.forall₂_map_right_iff]
        exact List.forall₂_same.mpr fun i _ => (hNodes i).stored hGiven
      nodeCount := by
        rw [drawnCode, List.length_map, hLength]
        exact hNodeCount
      edgeCount := by
        rw [drawnCode, List.length_map, hTriples.length_eq]
        exact hEdgeCount }
  refine ⟨drawnCode named drawn _ hInside, ?_, ?_, fun i => ?_,
    exists_freeze profile roaring hFst hFrozen hCode,
    fun graph hFreeze => represents_of_freeze hRoaring hFst hFrozen hCode hFreeze⟩
  · rw [List.ofFn_eq_map]
    exact hDrawn.map named
  · rw [hRows]
    exact hTriples
  · obtain ⟨id, hId, hDraw⟩ := hIds i
    refine ⟨id, hId, ?_⟩
    rw [drawnCode, List.getElem?_map, hDraw, Option.map_some]

def sampleRows : List NodeRow :=
  [⟨.function, ⟨0⟩, ⟨5⟩, 1, 1⟩, ⟨.class_, ⟨13⟩, ⟨5⟩, 7, 1⟩, ⟨.method, ⟨0⟩, ⟨13⟩, 2, 5⟩]

def sampleEdgeRows : List EdgeRow := [⟨⟨2⟩, ⟨0⟩, .calls⟩, ⟨⟨2⟩, ⟨1⟩, .contains⟩]

/-- The calls overlap, and the edges are added while the nodes are. -/
def sampleBuildTurns : List (BuildCall sampleRows sampleEdgeRows) :=
  (List.replicate 4 [Sum.inl ⟨0, by decide⟩, Sum.inl ⟨1, by decide⟩, Sum.inl ⟨2, by decide⟩,
    Sum.inr ⟨0, by decide⟩, Sum.inr ⟨1, by decide⟩]).flatten ++
  (List.replicate 2
    [Sum.inl ⟨0, by decide⟩, Sum.inl ⟨1, by decide⟩, Sum.inl ⟨2, by decide⟩]).flatten

theorem represents_of_threads_sampleCode :
    ∃ graph code, @Represents plainRoaring plainMem plainFst graph code ∧
      code.nodes[0]? = sampleCode.nodes[0]? ∧ code.nodes.Perm sampleCode.nodes := by
  have hStay : RowsStayWithIds (buildRun sampleRows sampleEdgeRows sampleBuildTurns)
    | ⟨0, _⟩ => ⟨0, rfl, rfl, rfl, rfl, rfl, rfl⟩
    | ⟨1, _⟩ => ⟨1, rfl, rfl, rfl, rfl, rfl, rfl⟩
    | ⟨2, _⟩ => ⟨2, rfl, rfl, rfl, rfl, rfl, rfl⟩
  have hFirst : (sampleStrings true).zip
      ((SharedInterner.after twoShards sampleStrings sampleTurns).workers true).results =
        [("b", ⟨0x30000000⟩), ("f.rs", ⟨0xF0000000⟩)] := by decide
  have hSecond : (sampleStrings false).zip
      ((SharedInterner.after twoShards sampleStrings sampleTurns).workers false).results =
        [("a", ⟨0xF0000008⟩), ("b", ⟨0x30000000⟩)] := by decide
  obtain ⟨code, hPerm, -, hIds, hSucceeds, hRepresents⟩ :=
    represents_of_threads .dev roaringLaw_plainRoaring fstLaw_plainFst twoShards sampleStrings
      sampleTurns (by decide) (by decide) (by decide) rfl sampleRows sampleEdgeRows
      sampleCode.nodes.get
      (fun
        | ⟨0, _⟩ => ⟨rfl, ⟨true, ⟨0x30000000⟩, hFirst ▸ .head _, rfl⟩,
            ⟨true, ⟨0xF0000000⟩, hFirst ▸ .tail _ (.head _), rfl⟩, rfl, rfl⟩
        | ⟨1, _⟩ => ⟨rfl, ⟨false, ⟨0xF0000008⟩, hSecond ▸ .head _, rfl⟩,
            ⟨true, ⟨0xF0000000⟩, hFirst ▸ .tail _ (.head _), rfl⟩, rfl, rfl⟩
        | ⟨2, _⟩ => ⟨rfl, ⟨false, ⟨0x30000000⟩, hSecond ▸ .tail _ (.head _), rfl⟩,
            ⟨false, ⟨0xF0000008⟩, hSecond ▸ .head _, rfl⟩, rfl, rfl⟩)
      (by decide) (by decide) (by decide) sampleBuildTurns (by decide) hStay rfl
  obtain ⟨graph, hFreeze⟩ := hSucceeds fun i => ⟨_, rfl, by revert i; decide⟩
  refine ⟨graph, code, hRepresents graph hFreeze, ?_, ?_⟩
  · obtain ⟨id, hId, hNode⟩ := hIds ⟨0, by decide⟩
    obtain rfl : 0 = id := Option.some.inj hId
    exact hNode
  · exact hPerm

end Graph
end CodebaseMem
