import CodebaseMem.Core.FrozenInterner
import CodebaseMem.Graph.MutableGraph
import CodebaseMem.Library.Loops
import CodebaseMem.Library.StableSort

/-!
# The frozen graph

`freeze` turns the columns of a mutable graph into adjacency arrays in both
directions and three indexes.  Bitmaps and finite-state maps come from other
libraries and are parameters.

* `buildForwardCsr`, `buildReverseCsr`: the two builders with their loops, local
  variables and panics.  Uninitialised memory is a list of optional values, and reading
  it where nothing was written is undefined behaviour.
* `labelIndexBytes`, `buildQnIndex`, `buildFileIndex`, `buildBareNameIndex`: the indexes.
* `MutableGraph.freeze`: all of them in the order of the code.
* the accessors of `FrozenGraph`, with their panics.

This is the code.  What it computes is proved in the modules on adjacency arrays, the
label index and the names.
-/

namespace CodebaseMem
namespace Graph

open CodebaseMem.Core Library

/-- The bitmap library: sets of 32-bit words with a serialised form.  Serialising and
reading back may fail, and the source unwraps both. -/
structure Roaring where
  Bitmap : Type
  new : Bitmap
  insert : Bitmap → UInt32 → Bitmap
  serializeInto : Bitmap → Option (List UInt8)
  deserializeFrom : List UInt8 → Option Bitmap

/-- The library of finite-state maps from byte strings to words.  The builder takes the
keys one at a time and refuses one that does not ascend. -/
structure Fst where
  MapBuilder : Type
  memory : MapBuilder
  insert : MapBuilder → List UInt8 → UInt64 → Option MapBuilder
  intoInner : MapBuilder → Option (List UInt8)
  Map : Type
  new : List UInt8 → Option Map
  get : Map → List UInt8 → Option UInt64

/-!
## Sorted edges and the forward arrays
-/

/-- The key edges are sorted by: the source, then the target. -/
def edgeKey (edge : EdgeRow) : ℕ ×ₗ ℕ :=
  toLex (edge.source.val.toNat, edge.target.val.toNat)

def sortEdges (edges : List EdgeRow) : List EdgeRow := sortByKey edgeKey edges

/-- The local variables of `build_forward_csr`. -/
structure ForwardState where
  offsets : List UInt32
  targets : List NodeId
  types : List EdgeType
  currentNode : Nat
  deriving DecidableEq, Repr

namespace ForwardState

def start : ForwardState where
  offsets := [0]
  targets := []
  types := []
  currentNode := 0

/-- One round of the gap-filling loops: the current node has no more edges, so the next
offset is the number of edges so far. -/
def closeNode (s : ForwardState) : ForwardState :=
  { s with
    currentNode := s.currentNode + 1
    offsets := s.offsets ++ [UInt32.ofNat s.targets.length] }

/-- `while current_node < bound`. -/
def fillTo (bound : Nat) (s : ForwardState) : ForwardState :=
  closeNode^[bound - s.currentNode] s

/-- The body of the loop over the sorted edges. -/
def pushEdge (s : ForwardState) (edge : EdgeRow) : ForwardState :=
  let s := s.fillTo edge.source.val.toNat
  { s with
    targets := s.targets ++ [edge.target]
    types := s.types ++ [edge.edgeType] }

end ForwardState

/-- Offsets, targets and types of the outgoing edges. -/
def buildForwardCsr (sortedEdges : List EdgeRow) (nodeCount : Nat) :
    List UInt32 × List NodeId × List EdgeType :=
  let s := (sortedEdges.foldl ForwardState.pushEdge ForwardState.start).fillTo nodeCount
  (s.offsets, s.targets, s.types)

/-!
## The reverse arrays
-/

/-- The first pass: count the incoming edges of each node. -/
def countIncoming (profile : Profile) (sortedEdges : List EdgeRow) (nodeCount : Nat) :
    Exec (List UInt32) :=
  sortedEdges.foldlM (fun inCounts edge => do
    let tgtIdx := edge.target.val.toNat
    let count ← index inCounts tgtIdx
    let count ← addU32 profile count 1
    .ok (inCounts.set tgtIdx count)) (List.replicate nodeCount 0)

/-- The prefix sums of the counts, by additions of 32 bits: they are checked or they
wrap, according to the profile. -/
def prefixSums (profile : Profile) (inCounts : List UInt32) :
    Exec (List UInt32 × UInt32) :=
  inCounts.foldlM (fun (offsets, sum) count => do
    let sum ← addU32 profile sum count
    .ok (offsets ++ [sum], sum)) ([0], 0)

/-- `ptr.add(pos).write(value)` on an array of `MaybeUninit` slots.  Outside the array
this is undefined behaviour, and the model makes it a fault of its own kind. -/
def writeSlot {α : Type} (slots : List (Option α)) (pos : Nat) (value : α) :
    Exec (List (Option α)) :=
  if pos < slots.length then .ok (slots.set pos (some value))
  else .error .undefinedBehaviour

/-- The `transmute` of an array of slots to an array of values.  A slot that was never
written makes it undefined behaviour. -/
def assumeInit {α : Type} : List (Option α) → Exec (List α)
  | [] => .ok []
  | none :: _ => .error .undefinedBehaviour
  | some value :: slots => do
      let values ← assumeInit slots
      .ok (value :: values)

/-- The local variables of the second pass. -/
structure ReverseState where
  writePos : List UInt32
  sources : List (Option NodeId)
  types : List (Option EdgeType)
  deriving DecidableEq, Repr

/-- The body of the loop that places the edges. -/
def ReverseState.placeEdge (profile : Profile) (s : ReverseState) (edge : EdgeRow) :
    Exec ReverseState := do
  let tgtIdx := edge.target.val.toNat
  let pos ← index s.writePos tgtIdx
  let sources ← writeSlot s.sources pos.toNat edge.source
  let types ← writeSlot s.types pos.toNat edge.edgeType
  let next ← addU32 profile pos 1
  .ok { writePos := s.writePos.set tgtIdx next, sources, types }

/-- Offsets, sources and types of the incoming edges. -/
def buildReverseCsr (profile : Profile) (sortedEdges : List EdgeRow) (nodeCount : Nat) :
    Exec (List UInt32 × List NodeId × List EdgeType) := do
  let inCounts ← countIncoming profile sortedEdges nodeCount
  let (offsets, _) ← prefixSums profile inCounts
  let s ← sortedEdges.foldlM (ReverseState.placeEdge profile)
    { writePos := offsets
      sources := List.replicate sortedEdges.length none
      types := List.replicate sortedEdges.length none }
  let sources ← assumeInit s.sources
  let types ← assumeInit s.types
  .ok (offsets, sources, types)

/-!
## The indexes
-/

/-- `NodeId(idx as u32)`. -/
def nodeIdOfIdx (idx : Nat) : NodeId := ⟨UInt32.ofNat idx⟩

/-- One bitmap for each label, with the ids of the nodes of that label. -/
def labelBitmaps (roaring : Roaring) (nodeLabels : List NodeLabel) :
    Fin NodeLabel.count → roaring.Bitmap :=
  nodeLabels.zipIdx.foldl (fun bitmaps (label, idx) =>
    Function.update bitmaps label.toIdx
      (roaring.insert (bitmaps label.toIdx) (UInt32.ofNat idx))) fun _ => roaring.new

/-- Each bitmap as a four-byte size followed by its serialised form. -/
def labelIndexBytes (roaring : Roaring) (nodeLabels : List NodeLabel) : Exec (List UInt8) :=
  (List.finRange NodeLabel.count).foldlM (fun bytes i => do
    let buf ← expect (roaring.serializeInto (labelBitmaps roaring nodeLabels i))
    let size ← expect (u32TryFrom buf.length)
    .ok (bytes ++ u32ToLeBytes size ++ buf)) []

theorem labelIndexBytes_ok {roaring : Roaring} {nodeLabels : List NodeLabel}
    {bufs : Fin NodeLabel.count → List UInt8}
    (hSerialize : ∀ i, roaring.serializeInto (labelBitmaps roaring nodeLabels i) =
      some (bufs i))
    (hSize : ∀ i, (bufs i).length < 2 ^ 32) :
    labelIndexBytes roaring nodeLabels = .ok (records bufs (List.finRange NodeLabel.count)) := by
  refine foldlM_closedForm _ (fun done _ => records bufs done) _ fun done i rest _ => ?_
  rw [hSerialize, expect_some, Exec.ok_bind, u32TryFrom_of_lt (hSize i), expect_some,
    Exec.ok_bind, records_append, records_cons, records_nil, record, u32ToLeBytes,
    toNat_ofNat_u32 (hSize i), List.append_nil, List.append_assoc]

/-- Name handle to node.  The loop inserts in the order of the ids and an insertion
overwrites, so the last node with a handle wins. -/
def buildQnIndex (nodeNames : List InternedStr) : HashMap InternedStr NodeId :=
  nodeNames.zipIdx.foldl (fun qnIndex (nameHandle, idx) =>
    qnIndex.insert nameHandle (nodeIdOfIdx idx)) HashMap.empty

/-- File handle to the nodes of the file. -/
def buildFileIndex (nodeFiles : List InternedStr) : HashMap InternedStr (List NodeId) :=
  nodeFiles.zipIdx.foldl (fun fileIndex (fileHandle, idx) =>
    fileIndex.insert fileHandle ((fileIndex fileHandle).getD [] ++ [nodeIdOfIdx idx]))
    HashMap.empty

/-- The key names are sorted by: the string, then the node.  Two pairs with the
same key are the same pair, so it does not matter that the source sorts in an
unstable way. -/
def nameKey (entry : String × NodeId) : List ℕ ×ₗ ℕ :=
  toLex (strKey entry.1, entry.2.val.toNat)

/-- The pairs of resolved name and node. -/
def resolveNames (nodeNames : List InternedStr) (interner : FrozenInterner) :
    Exec (List (String × NodeId)) :=
  nodeNames.zipIdx.mapM fun (handle, idx) => do
    let name ← interner.resolve handle
    .ok (name, nodeIdOfIdx idx)

/-- The inner loop: the nodes at the front whose name is `key`, and the rest.  It
compares strings and not handles. -/
def takeGroup (key : String) :
    List (String × NodeId) → List NodeId × List (String × NodeId)
  | [] => ([], [])
  | pair :: pairs =>
      if pair.1 = key then
        let (group, rest) := takeGroup key pairs
        (pair.2 :: group, rest)
      else
        ([], pair :: pairs)

theorem takeGroup_snd_length_le (key : String) (pairs : List (String × NodeId)) :
    (takeGroup key pairs).2.length ≤ pairs.length := by
  induction pairs with
  | nil => simp [takeGroup]
  | cons pair pairs ih =>
      rw [takeGroup]
      split
      · exact Nat.le_succ_of_le ih
      · exact le_rfl

theorem takeGroup_self (pair : String × NodeId) (pairs : List (String × NodeId)) :
    takeGroup pair.1 (pair :: pairs) =
      (pair.2 :: (takeGroup pair.1 pairs).1, (takeGroup pair.1 pairs).2) := by
  rw [takeGroup, if_pos rfl]

/-- The outer loop: one slot for each group of equal names.  Where the map builder
refuses a key, the `expect` of the source panics. -/
def groupNames (fst : Fst) (pairs : List (String × NodeId)) (sideTable : List (List NodeId))
    (builder : fst.MapBuilder) : Exec (List (List NodeId) × fst.MapBuilder) :=
  match pairs with
  | [] => .ok (sideTable, builder)
  | pair :: pairs => do
      let key := pair.1
      let slot := UInt64.ofNat sideTable.length
      let builder' ← expect (fst.insert builder (utf8 key) slot)
      groupNames fst (takeGroup key (pair :: pairs)).2
        (sideTable ++ [(takeGroup key (pair :: pairs)).1]) builder'
  termination_by pairs.length
  decreasing_by
    rw [takeGroup_self, List.length_cons]
    exact Nat.lt_succ_of_le (takeGroup_snd_length_le _ _)

/-- The bytes of the finite-state map from names to slots, and the nodes of each
slot. -/
def buildBareNameIndex (fst : Fst) (nodeNames : List InternedStr)
    (interner : FrozenInterner) : Exec (List UInt8 × List (List NodeId)) := do
  let pairs ← resolveNames nodeNames interner
  let (sideTable, builder) ← groupNames fst (sortByKey nameKey pairs) [] fst.memory
  let bytes ← expect (fst.intoInner builder)
  .ok (bytes, sideTable)

/-!
## The graph
-/

structure FrozenGraph where
  nodeLabels : List NodeLabel
  nodeNames : List InternedStr
  nodeFiles : List InternedStr
  nodeLines : List UInt32
  nodeColumns : List UInt32
  forwardOffsets : List UInt32
  forwardEdgeTargets : List NodeId
  forwardEdgeTypes : List EdgeType
  revOffsets : List UInt32
  revEdgeSources : List NodeId
  revEdgeTypes : List EdgeType
  interner : FrozenInterner
  labelIndexBytes : List UInt8
  qnIndex : HashMap InternedStr NodeId
  fileIndex : HashMap InternedStr (List NodeId)
  bareNameFstBytes : List UInt8
  bareNameNodes : List (List NodeId)

/-- Freeze the mutable graph.  The edge columns are zipped to the length of the shortest,
so an edge that has not reached all three is left out. -/
def MutableGraph.freeze (profile : Profile) (roaring : Roaring) (fst : Fst)
    (graph : MutableGraph) (interner : FrozenInterner) : Exec FrozenGraph := do
  let nodeCount := graph.nodeLabels.length
  -- the zip is as short as the shortest of the three columns
  let edges := graph.zippedEdges
  let edges := if edges.isEmpty then edges else sortEdges edges
  let (forwardOffsets, forwardEdgeTargets, forwardEdgeTypes) := buildForwardCsr edges nodeCount
  let (revOffsets, revEdgeSources, revEdgeTypes) ← buildReverseCsr profile edges nodeCount
  let labelIndexBytes ← labelIndexBytes roaring graph.nodeLabels
  let (bareNameFstBytes, bareNameNodes) ← buildBareNameIndex fst graph.nodeNames interner
  .ok
    { nodeLabels := graph.nodeLabels
      nodeNames := graph.nodeNames
      nodeFiles := graph.nodeFiles
      nodeLines := graph.nodeLines
      nodeColumns := graph.nodeColumns
      forwardOffsets, forwardEdgeTargets, forwardEdgeTypes
      revOffsets, revEdgeSources, revEdgeTypes
      interner, labelIndexBytes
      qnIndex := buildQnIndex graph.nodeNames
      fileIndex := buildFileIndex graph.nodeFiles
      bareNameFstBytes, bareNameNodes }

namespace FrozenGraph

def nodeCount (graph : FrozenGraph) : Nat := graph.nodeLabels.length

/-- Total number of edges in the frozen graph, with a debug assertion on the last
offset. -/
def edgeCount (profile : Profile) (graph : FrozenGraph) : Exec Nat :=
  match profile with
  | .dev => do
      assert (decide ((graph.forwardOffsets.getLast?.getD 0).toNat =
        graph.forwardEdgeTargets.length))
      .ok graph.forwardEdgeTargets.length
  | .release => .ok graph.forwardEdgeTargets.length

def nodeLabel (graph : FrozenGraph) (node : NodeId) : Exec NodeLabel :=
  index graph.nodeLabels node.val.toNat

def nodeName (graph : FrozenGraph) (node : NodeId) : Exec InternedStr :=
  index graph.nodeNames node.val.toNat

def nodeFile (graph : FrozenGraph) (node : NodeId) : Exec InternedStr :=
  index graph.nodeFiles node.val.toNat

def nodeLine (graph : FrozenGraph) (node : NodeId) : Exec UInt32 :=
  index graph.nodeLines node.val.toNat

def nodeColumn (graph : FrozenGraph) (node : NodeId) : Exec UInt32 :=
  index graph.nodeColumns node.val.toNat

/-- The offsets of `node` and of its successor. -/
def edgeRange (offsets : List UInt32) (node : NodeId) : Exec (Nat × Nat) := do
  let start ← index offsets node.val.toNat
  let stop ← index offsets (node.val.toNat + 1)
  .ok (start.toNat, stop.toNat)

/-- The slice of two parallel arrays. -/
def edgesIn (ends : List NodeId) (types : List EdgeType) (range : Nat × Nat) :
    Exec (List (NodeId × EdgeType)) := do
  let ends ← slice ends range.1 range.2
  let types ← slice types range.1 range.2
  .ok (ends.zip types)

def forwardEdgeRange (graph : FrozenGraph) (node : NodeId) : Exec (Nat × Nat) :=
  edgeRange graph.forwardOffsets node

/-- All outgoing edges of `node` with their targets and types. -/
def forwardEdges (graph : FrozenGraph) (node : NodeId) : Exec (List (NodeId × EdgeType)) := do
  let range ← graph.forwardEdgeRange node
  edgesIn graph.forwardEdgeTargets graph.forwardEdgeTypes range

def reverseEdgeRange (graph : FrozenGraph) (node : NodeId) : Exec (Nat × Nat) :=
  edgeRange graph.revOffsets node

/-- All incoming edges of `node` with their sources and types. -/
def reverseEdges (graph : FrozenGraph) (node : NodeId) : Exec (List (NodeId × EdgeType)) := do
  let range ← graph.reverseEdgeRange node
  edgesIn graph.revEdgeSources graph.revEdgeTypes range

/-- The size prefix of the bitmap at `offset`. -/
def bitmapSize (labelIndexBytes : List UInt8) (offset : Nat) : Exec Nat := do
  let sizeBytes ← slice labelIndexBytes offset (offset + 4)
  .ok (u32FromLeBytes sizeBytes).toNat

/-- The loop that skips `count` bitmaps from `offset` on.  Each is as long as the size in
front of it says. -/
def skipBitmaps (labelIndexBytes : List UInt8) : Nat → Nat → Exec Nat
  | 0, offset => .ok offset
  | count + 1, offset => do
      let size ← bitmapSize labelIndexBytes offset
      skipBitmaps labelIndexBytes count (offset + (4 + size))

/-- The bitmap of all nodes with a label. -/
def nodesWithLabel (roaring : Roaring) (graph : FrozenGraph) (label : NodeLabel) :
    Exec roaring.Bitmap := do
  let offset ← skipBitmaps graph.labelIndexBytes label.toIdx.val 0
  let size ← bitmapSize graph.labelIndexBytes offset
  let bytes ← slice graph.labelIndexBytes (offset + 4) (offset + 4 + size)
  expect (roaring.deserializeFrom bytes)

/-- The node of a qualified-name handle, if any. -/
def lookupQn (graph : FrozenGraph) (name : InternedStr) : Option NodeId := graph.qnIndex name

def nodesInFile (graph : FrozenGraph) (file : InternedStr) : List NodeId :=
  (graph.fileIndex file).getD []

/-- The finite-state map over all distinct names. -/
def bareNameFst (fst : Fst) (graph : FrozenGraph) : Exec fst.Map :=
  expect (fst.new graph.bareNameFstBytes)

/-- The nodes whose name maps to `slot`. -/
def bareNameNodesAt (graph : FrozenGraph) (slot : UInt64) : Exec (List NodeId) :=
  index graph.bareNameNodes slot.toNat

end FrozenGraph

end Graph
end CodebaseMem
