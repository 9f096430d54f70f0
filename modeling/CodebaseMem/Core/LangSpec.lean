import CodebaseMem.Core.Bytes
import CodebaseMem.Core.Types

/-!
# Language specifications

A specification says which syntax nodes become graph nodes, which of them open
a scope, and which edges they give rise to.  It is plain data; the extraction
engine interprets it.

* `ScopeKey`: the stack of enclosing scopes, with `qualify` as the code computes it.
* `NodeRule`, `EdgeRule`, `LanguageSpec`: the tables and their constructors.
* `getNodeRule`, `getScopeAnchor`: the rule of a kind, by the binary search of the
  standard library, which is written out here with its loop.
* `getEdgeRule`: the first edge rule of a kind, by linear search.

Nothing is proved here.  The search is the subject of the module on rule lookup, and
`qualify` that of the modules on listings and on qualified names.
-/

namespace CodebaseMem
namespace Core

/-- A lexical scope: the kind of the anchor node and its name, which is empty
for an anonymous scope. -/
structure ScopeSegment where
  kind : String
  name : String
  deriving DecidableEq, Repr

/-- The stack of enclosing scopes, outermost first. -/
structure ScopeKey where
  segments : List ScopeSegment
  deriving DecidableEq, Repr

namespace ScopeKey

def new : ScopeKey := ⟨[]⟩

/-- The qualified name of `name` in this scope.  Anonymous scopes are left out, and with
no other scope around it the name stands alone, without a separator. -/
def qualify (key : ScopeKey) (name separator : String) : String :=
  let nonEmpty := key.segments.filter fun s => !s.name.isEmpty
  if nonEmpty.isEmpty then name
  else separator.intercalate (nonEmpty.map ScopeSegment.name) ++ separator ++ name

def push (key : ScopeKey) (segment : ScopeSegment) : ScopeKey := ⟨key.segments ++ [segment]⟩

/-- `pop`, without the segment it returns. -/
def pop (key : ScopeKey) : ScopeKey := ⟨key.segments.dropLast⟩

@[simp] theorem pop_push (key : ScopeKey) (segment : ScopeSegment) :
    (key.push segment).pop = key := by
  simp [push, pop]

end ScopeKey

structure ExtractedNode where
  label : NodeLabel
  qualifiedName : String
  tsKind : String
  startByte : UInt32
  endByte : UInt32
  line : UInt32
  column : UInt32
  deriving DecidableEq, Repr

structure ExtractedEdge where
  sourceQualified : String
  targetQualified : String
  edgeType : EdgeType
  deriving DecidableEq, Repr

inductive ExtractedItem where
  | node (item : ExtractedNode)
  | edge (item : ExtractedEdge)
  deriving DecidableEq, Repr

/-- Syntax nodes of kind `tsKind` become graph nodes of label `label`, unless `skipNode`
is set.  A `scopeAnchor` opens a scope for the nodes below, and `skipEdges` keeps edges
from being emitted for the node itself. -/
structure NodeRule where
  tsKind : String
  label : NodeLabel
  scopeAnchor : Bool
  skipEdges : Bool
  skipNode : Bool
  deriving DecidableEq, Repr

namespace NodeRule

def leaf (tsKind : String) (label : NodeLabel) : NodeRule where
  tsKind := tsKind
  label := label
  scopeAnchor := false
  skipEdges := false
  skipNode := false

/-- A rule for a symbol that opens a scope. -/
def container (tsKind : String) (label : NodeLabel) : NodeRule where
  tsKind := tsKind
  label := label
  scopeAnchor := true
  skipEdges := false
  skipNode := false

/-- A rule that opens a scope without emitting a node. -/
def scopeOnly (tsKind : String) : NodeRule where
  tsKind := tsKind
  label := .namespace_
  scopeAnchor := true
  skipEdges := false
  skipNode := true

end NodeRule

/-- How the target name of an edge is read off a syntax node. -/
inductive TargetPattern where
  | fromChildType
  | fromNodeText
  | resolveSpecial
  deriving DecidableEq, Repr

/-- Syntax nodes of kind `sourceKind` give rise to an edge. -/
structure EdgeRule where
  sourceKind : String
  edgeType : EdgeType
  targetPattern : TargetPattern
  deriving DecidableEq, Repr

namespace EdgeRule

def calls (sourceKind : String) (targetPattern : TargetPattern) : EdgeRule :=
  ⟨sourceKind, .calls, targetPattern⟩

def imports (sourceKind : String) (targetPattern : TargetPattern) : EdgeRule :=
  ⟨sourceKind, .imports, targetPattern⟩

def inherits (sourceKind : String) (targetPattern : TargetPattern) : EdgeRule :=
  ⟨sourceKind, .inherits, targetPattern⟩

def implements (sourceKind : String) (targetPattern : TargetPattern) : EdgeRule :=
  ⟨sourceKind, .implements, targetPattern⟩

def decorates (sourceKind : String) (targetPattern : TargetPattern) : EdgeRule :=
  ⟨sourceKind, .decorates, targetPattern⟩

def uses (sourceKind : String) (targetPattern : TargetPattern) : EdgeRule :=
  ⟨sourceKind, .uses, targetPattern⟩

end EdgeRule

structure LanguageSpec where
  lang : Language
  rootKind : String
  qnSeparator : String
  nodeRules : List NodeRule
  edgeRules : List EdgeRule
  deriving DecidableEq, Repr

/-- The loop of `slice::binary_search_by`: `size` candidates are left from
`base` on.  The size shrinks in every round, so the length of the slice is
enough fuel. -/
def narrow {α : Type} (cmp : α → Ordering) (xs : List α) : Nat → Nat → Nat → Nat
  | 0, base, _ => base
  | fuel + 1, base, size =>
      if size ≤ 1 then base
      else
        let half := size / 2
        let mid := base + half
        let base := if xs[mid]?.map cmp = some .gt then base else mid
        narrow cmp xs fuel base (size - half)

/-- `slice::binary_search_by`, without the insertion point of a failed search.  The loop
keeps a base and a size and halves the size, as the standard library does. -/
def binarySearchBy {α : Type} (cmp : α → Ordering) (xs : List α) : Option Nat :=
  if xs.isEmpty then none
  else
    let base := narrow cmp xs xs.length 0 xs.length
    if xs[base]?.map cmp = some .eq then some base else none

namespace LanguageSpec

/-- The node rule of a kind, by binary search. -/
def getNodeRule (spec : LanguageSpec) (tsKind : String) : Option NodeRule :=
  (binarySearchBy (fun rule => strCmp rule.tsKind tsKind) spec.nodeRules).bind
    fun idx => spec.nodeRules[idx]?

/-- The node rule of a kind that opens a scope. -/
def getScopeAnchor (spec : LanguageSpec) (tsKind : String) : Option NodeRule :=
  (spec.getNodeRule tsKind).filter NodeRule.scopeAnchor

/-- The first edge rule of a kind.  The search is linear, so a second rule of the kind is
never reached. -/
def getEdgeRule (spec : LanguageSpec) (sourceKind : String) : Option EdgeRule :=
  spec.edgeRules.find? fun rule => rule.sourceKind = sourceKind

end LanguageSpec

end Core
end CodebaseMem
