import CodebaseMem.Core.Types
import Mathlib.Data.List.FinRange

/-!
# The mutable graph

Nodes and edges are kept as columns.  `addNode` draws an id from the node
counter and appends one entry to each of the five node columns, `addEdge` draws
an id from the edge counter and appends one entry to each of the three edge
columns.  `AtomicU32::fetch_add` wraps around, as `UInt32` addition does.

* `MutableGraph`, `addNode`, `addEdge`: the code of one call that runs undisturbed.
* `Call`, `build`: sequential runs of calls, in any order of the two kinds.
* `Holds`: the columns are those of a table of node rows and a table of edge rows, and
  the counters count them modulo `2 ^ 32`.
* `holds_build`: a run leaves exactly the rows of its calls, in call order.

Calls that overlap are in the module on concurrent building, which breaks the two
functions into their atomic steps.
-/

namespace CodebaseMem
namespace Graph

open CodebaseMem.Core

/-- The arguments of one `add_node` call. -/
structure NodeRow where
  label : NodeLabel
  name : InternedStr
  file : InternedStr
  line : UInt32
  column : UInt32
  deriving DecidableEq, Repr

/-- The arguments of one `add_edge` call. -/
structure EdgeRow where
  source : NodeId
  target : NodeId
  edgeType : EdgeType
  deriving DecidableEq, Repr

/-- The columns behind their mutexes and the two atomic counters.  Row `i` of the node
table is spread over five columns, and nothing but the order of the pushes keeps them
together. -/
structure MutableGraph where
  nodeLabels : List NodeLabel
  nodeNames : List InternedStr
  nodeFiles : List InternedStr
  nodeLines : List UInt32
  nodeColumns : List UInt32
  edgeSources : List NodeId
  edgeTargets : List NodeId
  edgeTypes : List EdgeType
  nextNodeId : UInt32
  nextEdgeId : UInt32
  deriving DecidableEq, Repr

namespace MutableGraph

def new : MutableGraph where
  nodeLabels := []
  nodeNames := []
  nodeFiles := []
  nodeLines := []
  nodeColumns := []
  edgeSources := []
  edgeTargets := []
  edgeTypes := []
  nextNodeId := 0
  nextEdgeId := 0

/-- Add a node and return its `NodeId`. -/
def addNode (graph : MutableGraph) (row : NodeRow) : MutableGraph × NodeId :=
  ({ graph with
      nextNodeId := graph.nextNodeId + 1
      nodeLabels := graph.nodeLabels ++ [row.label]
      nodeNames := graph.nodeNames ++ [row.name]
      nodeFiles := graph.nodeFiles ++ [row.file]
      nodeLines := graph.nodeLines ++ [row.line]
      nodeColumns := graph.nodeColumns ++ [row.column] },
    ⟨graph.nextNodeId⟩)

/-- Add a directed edge and return its `EdgeId`. -/
def addEdge (graph : MutableGraph) (row : EdgeRow) : MutableGraph × EdgeId :=
  ({ graph with
      nextEdgeId := graph.nextEdgeId + 1
      edgeSources := graph.edgeSources ++ [row.source]
      edgeTargets := graph.edgeTargets ++ [row.target]
      edgeTypes := graph.edgeTypes ++ [row.edgeType] },
    ⟨graph.nextEdgeId⟩)

/-- Total number of nodes, read off the counter. -/
def nodeCount (graph : MutableGraph) : UInt32 := graph.nextNodeId

/-- Total number of edges, read off the counter. -/
def edgeCount (graph : MutableGraph) : UInt32 := graph.nextEdgeId

/-- The triples that `freeze` reads off the edge columns.  A `zip` stops at the shorter
side, so a row that has not reached all three columns is left out. -/
def zippedEdges (graph : MutableGraph) : List EdgeRow :=
  ((graph.edgeSources.zip graph.edgeTargets).zip graph.edgeTypes).map
    fun entry => ⟨entry.1.1, entry.1.2, entry.2⟩

end MutableGraph

inductive Call where
  | addNode (row : NodeRow)
  | addEdge (row : EdgeRow)
  deriving DecidableEq, Repr

namespace Call

def apply (graph : MutableGraph) : Call → MutableGraph
  | addNode row => (graph.addNode row).1
  | addEdge row => (graph.addEdge row).1

def nodeRow? : Call → Option NodeRow
  | addNode row => some row
  | addEdge _ => none

def edgeRow? : Call → Option EdgeRow
  | addNode _ => none
  | addEdge row => some row

end Call

/-- The nodes of a run in the order of their calls. -/
def nodeRows (calls : List Call) : List NodeRow := calls.filterMap Call.nodeRow?

/-- The edges of a run in the order of their calls. -/
def edgeRows (calls : List Call) : List EdgeRow := calls.filterMap Call.edgeRow?

@[simp] theorem nodeRows_nil : nodeRows [] = [] := rfl

@[simp] theorem edgeRows_nil : edgeRows [] = [] := rfl

theorem nodeRows_cons (call : Call) (calls : List Call) :
    nodeRows (call :: calls) = call.nodeRow?.toList ++ nodeRows calls := by
  cases call <;> simp [nodeRows, Call.nodeRow?, List.filterMap_cons]

theorem edgeRows_cons (call : Call) (calls : List Call) :
    edgeRows (call :: calls) = call.edgeRow?.toList ++ edgeRows calls := by
  cases call <;> simp [edgeRows, Call.edgeRow?, List.filterMap_cons]

def build (calls : List Call) : MutableGraph := calls.foldl Call.apply MutableGraph.new

/-- The columns of `graph` are the columns of `nodes` and `edges`, and the
counters count them modulo `2 ^ 32`. -/
structure Holds (graph : MutableGraph) (nodes : List NodeRow) (edges : List EdgeRow) :
    Prop where
  nodeLabels : graph.nodeLabels = nodes.map NodeRow.label
  nodeNames : graph.nodeNames = nodes.map NodeRow.name
  nodeFiles : graph.nodeFiles = nodes.map NodeRow.file
  nodeLines : graph.nodeLines = nodes.map NodeRow.line
  nodeColumns : graph.nodeColumns = nodes.map NodeRow.column
  edgeSources : graph.edgeSources = edges.map EdgeRow.source
  edgeTargets : graph.edgeTargets = edges.map EdgeRow.target
  edgeTypes : graph.edgeTypes = edges.map EdgeRow.edgeType
  nextNodeId : graph.nextNodeId = UInt32.ofNat nodes.length
  nextEdgeId : graph.nextEdgeId = UInt32.ofNat edges.length

theorem holds_new : Holds MutableGraph.new [] [] := by
  constructor <;> rfl

theorem Holds.addNode {graph : MutableGraph} {nodes : List NodeRow} {edges : List EdgeRow}
    (h : Holds graph nodes edges) (row : NodeRow) :
    Holds (graph.addNode row).1 (nodes ++ [row]) edges := by
  obtain ⟨h1, h2, h3, h4, h5, h6, h7, h8, h9, h10⟩ := h
  constructor <;> simp [MutableGraph.addNode, *]

theorem Holds.addEdge {graph : MutableGraph} {nodes : List NodeRow} {edges : List EdgeRow}
    (h : Holds graph nodes edges) (row : EdgeRow) :
    Holds (graph.addEdge row).1 nodes (edges ++ [row]) := by
  obtain ⟨h1, h2, h3, h4, h5, h6, h7, h8, h9, h10⟩ := h
  constructor <;> simp [MutableGraph.addEdge, *]

theorem Holds.apply {graph : MutableGraph} {nodes : List NodeRow} {edges : List EdgeRow}
    (h : Holds graph nodes edges) (call : Call) :
    Holds (call.apply graph) (nodes ++ call.nodeRow?.toList)
      (edges ++ call.edgeRow?.toList) := by
  cases call with
  | addNode row => simpa [Call.apply, Call.nodeRow?, Call.edgeRow?] using h.addNode row
  | addEdge row => simpa [Call.apply, Call.nodeRow?, Call.edgeRow?] using h.addEdge row

theorem holds_foldl {graph : MutableGraph} {nodes : List NodeRow} {edges : List EdgeRow}
    (h : Holds graph nodes edges) (calls : List Call) :
    Holds (calls.foldl Call.apply graph) (nodes ++ nodeRows calls)
      (edges ++ edgeRows calls) := by
  induction calls generalizing graph nodes edges with
  | nil => simpa using h
  | cons call calls ih =>
      have hStep := ih (h.apply call)
      rw [List.append_assoc, List.append_assoc] at hStep
      rw [List.foldl_cons, nodeRows_cons, edgeRows_cons]
      exact hStep

/-- A sequential run leaves exactly the rows of its calls, in call order.  The counters
are those of the rows, modulo `2 ^ 32`. -/
theorem holds_build (calls : List Call) :
    Holds (build calls) (nodeRows calls) (edgeRows calls) := by
  simpa [build] using holds_foldl holds_new calls

theorem zip_columns (edges : List EdgeRow) :
    (((edges.map EdgeRow.source).zip (edges.map EdgeRow.target)).zip
        (edges.map EdgeRow.edgeType)).map
      (fun entry => (⟨entry.1.1, entry.1.2, entry.2⟩ : EdgeRow)) = edges := by
  induction edges with
  | nil => rfl
  | cons edge edges ih => simpa using ih

theorem Holds.zippedEdges {graph : MutableGraph} {nodes : List NodeRow}
    {edges : List EdgeRow} (h : Holds graph nodes edges) :
    graph.zippedEdges = edges := by
  rw [MutableGraph.zippedEdges, h.edgeSources, h.edgeTargets, h.edgeTypes, zip_columns]

end Graph
end CodebaseMem
