import CodebaseMem.Graph.LabelIndex
import CodebaseMem.Graph.NameIndex
import Mathlib.Order.Bounds.Basic

/-!
# What a frozen graph is for

A frozen graph stands for nodes with strings and edges between them.  `CodeGraph` is
that graph without handles, columns, offsets and indexes.  `Represents` says that every
query of a frozen graph answers for it.

* `CodeNode`, `CodeEdge`, `CodeGraph`: the abstract graph.  An edge holds the numbers of
  two nodes of the graph, so there is no dangling one.
* `nodesWhere`, `successors`, `predecessors`: what queries should answer.
* `AttributesOf`, `PanicsAt`: one node seen through its accessors, and an id that is none.
* `Represents`: counts, attributes, both directions of the adjacency, the four indexes,
  and the panic behind the last node.

This module only states what a frozen graph is for.  The next module proves that `freeze`
gets there.
-/

namespace CodebaseMem
namespace Graph

open CodebaseMem.Core Library

/-- A node with its strings and its position in the source file. -/
structure CodeNode extends NamedNode where
  line : UInt32
  column : UInt32
  deriving DecidableEq, Repr

/-- An edge between two nodes, which are given by their numbers. -/
structure CodeEdge where
  source : Nat
  target : Nat
  edgeType : EdgeType
  deriving DecidableEq, Repr

/-- Nodes and edges in the order in which they were added.  Every edge leads from a
node to a node. -/
structure CodeGraph where
  nodes : List CodeNode
  edges : List CodeEdge
  endpoints : ∀ edge ∈ edges, edge.source < nodes.length ∧ edge.target < nodes.length

namespace CodeGraph

/-- The nodes that satisfy `p`. -/
def nodesWhere (code : CodeGraph) (p : CodeNode → Prop) : Set ℕ :=
  {i | ∃ node, code.nodes[i]? = some node ∧ p node}

def labelled (code : CodeGraph) (label : NodeLabel) : Set ℕ :=
  code.nodesWhere fun node => node.label = label

def named (code : CodeGraph) (s : String) : Set ℕ := code.nodesWhere fun node => node.name = s

def inFile (code : CodeGraph) (s : String) : Set ℕ := code.nodesWhere fun node => node.file = s

/-- What the edges out of node `i` lead to, by target, parallel edges in the order in
which they were added. -/
def successors (code : CodeGraph) (i : Nat) : List (Nat × EdgeType) :=
  (sortByKey CodeEdge.target (code.edges.filter fun edge => edge.source = i)).map
    fun edge => (edge.target, edge.edgeType)

/-- What the edges into node `i` come from, by source, parallel edges in the order in
which they were added. -/
def predecessors (code : CodeGraph) (i : Nat) : List (Nat × EdgeType) :=
  (sortByKey CodeEdge.source (code.edges.filter fun edge => edge.target = i)).map
    fun edge => (edge.source, edge.edgeType)

variable (code : CodeGraph)

theorem mem_nodesWhere_lt {p : CodeNode → Prop} {i : Nat} (h : i ∈ code.nodesWhere p) :
    i < code.nodes.length := by
  obtain ⟨node, hGet, -⟩ := h
  exact (List.getElem?_eq_some_iff.mp hGet).1

end CodeGraph

/-! ### Representation -/

/-- `h` is the handle of `s` in the string table of the graph. -/
def FrozenGraph.HandleOfString (graph : FrozenGraph) (s : String) (h : InternedStr) : Prop :=
  ∃ items, FrozenHolds graph.interner items ∧ RecordAt utf8 items h.val.toNat s

/-- The node columns hold `node` at `id`. -/
structure AttributesOf (graph : FrozenGraph) (id : NodeId) (node : CodeNode) : Prop where
  label : graph.nodeLabel id = .ok node.label
  name : ∃ h, graph.nodeName id = .ok h ∧ graph.HandleOfString node.name h ∧
    graph.interner.resolve h = .ok node.name
  file : ∃ h, graph.nodeFile id = .ok h ∧ graph.HandleOfString node.file h ∧
    graph.interner.resolve h = .ok node.file
  line : graph.nodeLine id = .ok node.line
  column : graph.nodeColumn id = .ok node.column

/-- Every accessor of a node panics.  The columns are indexed without a check of their
own, so this is what an id behind the last node comes to. -/
structure PanicsAt (graph : FrozenGraph) (id : NodeId) : Prop where
  label : graph.nodeLabel id = .error .panic
  name : graph.nodeName id = .error .panic
  file : graph.nodeFile id = .error .panic
  line : graph.nodeLine id = .error .panic
  column : graph.nodeColumn id = .error .panic
  forward : graph.forwardEdges id = .error .panic
  reverse : graph.reverseEdges id = .error .panic

/-- The lists that adjacency queries return, with numbers in place of ids. -/
def edgeEnds (edges : List (NodeId × EdgeType)) : List (Nat × EdgeType) :=
  edges.map fun edge => (edge.1.val.toNat, edge.2)

/-- Every query of `graph` answers for `code`. The fields go through the interface of
`FrozenGraph`: the counts, the columns, the adjacency in both directions, the label
bitmaps and the indexes of bare names, of qualified names and of files.  Behind the last
node every accessor panics. -/
structure Represents {roaring : Roaring} (mem : roaring.Bitmap → UInt32 → Prop) (fst : Fst)
    (graph : FrozenGraph) (code : CodeGraph) : Prop where
  nodeCount : graph.nodeCount = code.nodes.length
  edgeCount : ∀ profile, graph.edgeCount profile = .ok code.edges.length
  attributes : ∀ id node, code.nodes[id.val.toNat]? = some node → AttributesOf graph id node
  outOfRange : ∀ id, code.nodes.length ≤ id.val.toNat → PanicsAt graph id
  successors : ∀ id, id.val.toNat < code.nodes.length → ∃ edges,
    graph.forwardEdges id = .ok edges ∧ edgeEnds edges = code.successors id.val.toNat
  predecessors : ∀ id, id.val.toNat < code.nodes.length → ∃ edges,
    graph.reverseEdges id = .ok edges ∧ edgeEnds edges = code.predecessors id.val.toNat
  labelled : ∀ label, ∃ bitmap, graph.nodesWithLabel roaring label = .ok bitmap ∧
    ∀ id, mem bitmap id ↔ id.toNat ∈ code.labelled label
  named : ∃ map, graph.bareNameFst fst = .ok map ∧ ∀ s,
    ((∃ slot, fst.get map (utf8 s) = some slot) ↔ (code.named s).Nonempty) ∧
    ∀ slot, fst.get map (utf8 s) = some slot → ∃ ids, graph.bareNameNodesAt slot = .ok ids ∧
      AscendingIds (fun id => id.val.toNat ∈ code.named s) ids
  lookup : ∀ s h, graph.HandleOfString s h → ∀ id, graph.lookupQn h = some id ↔
    IsGreatest (code.named s) id.val.toNat
  file : ∀ s h, graph.HandleOfString s h →
    AscendingIds (fun id => id.val.toNat ∈ code.inFile s) (graph.nodesInFile h)

end Graph
end CodebaseMem
