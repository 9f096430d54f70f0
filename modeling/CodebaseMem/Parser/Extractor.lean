import CodebaseMem.Core.Specs
import CodebaseMem.Library.ScopedWalk

/-!
# The extraction engine

The engine walks a syntax tree with one mutable scope stack and one growing list
of items.  Syntax trees come from tree-sitter and are taken as they are: any
shape, any kinds, any fields.

* `SyntaxData`, `Node`: what the engine reads of a node.  The fields under which a child
  stands belong to the child here.
* `searchFields`, `extractIdentifier`, `resolveTarget`: where names come from.
* `emitNode`, `emitEdge`, `visit`: the walk, with its stack and its list as arguments and
  results, and the overflow of a line or a column as a panic.
* `withSpec`, `extract`: the functions that callers use.

The text of a node is a parameter.  tree-sitter cuts it out of the source, and panics if
the node lies outside of it; a tree is taken to belong to the text it was made from.
-/

namespace CodebaseMem
namespace Parser

open CodebaseMem.Core Library

/-- What tree-sitter says about one node.  `fields` are the names of the fields
under which the parent holds it. -/
structure SyntaxData where
  kind : String
  isNamed : Bool
  fields : List String
  startByte : Nat
  endByte : Nat
  row : Nat
  column : Nat
  deriving DecidableEq, Repr

/-- `tree_sitter::Node`. -/
abbrev Node := RoseTree SyntaxData

namespace Node

def kind (node : Node) : String := node.label.kind

def isNamed (node : Node) : Bool := node.label.isNamed

/-- The first child in a field. -/
def childByFieldName (node : Node) (field : String) : Option Node :=
  node.children.find? fun child => field ∈ child.label.fields

end Node

/-- The characters of the Unicode property `White_Space`, `char::is_whitespace`. -/
def isWhitespace (c : Char) : Bool :=
  (9 ≤ c.toNat && c.toNat ≤ 13) || c.toNat = 0x20 || c.toNat = 0x85 || c.toNat = 0xA0 ||
    c.toNat = 0x1680 || (0x2000 ≤ c.toNat && c.toNat ≤ 0x200A) || c.toNat = 0x2028 ||
    c.toNat = 0x2029 || c.toNat = 0x202F || c.toNat = 0x205F || c.toNat = 0x3000

/-- `str::trim`. -/
def trim (s : String) : String :=
  String.ofList ((s.toList.dropWhile isWhitespace).reverse.dropWhile isWhitespace).reverse

/-- `Node::utf8_text(source).ok()`, which is tree-sitter's.  The spans of the nodes are
assumed to lie inside the source, as they do in a tree of that text.  For a span that
does not, the slice in `utf8_text` panics, and the model has no value for that. -/
abbrev Utf8Text := Node → List UInt8 → Option String

/-- The text of a node as tree-sitter cuts it out of the source. -/
def sourceText : Utf8Text := fun node source =>
  String.fromUTF8? ⟨((source.take node.label.endByte).drop node.label.startByte).toArray⟩

section

variable (profile : Profile) (utf8Text : Utf8Text) (source : List UInt8)

/-- The trimmed text of a node, unless it is not UTF-8 or empty. -/
def trimmedText (node : Node) : Option String :=
  match utf8Text node source with
  | none => none
  | some text => if (trim text).isEmpty then none else some (trim text)

/-- The loop over the fields that may hold the name of a node.  The outer
`Option` is `none` when the loop runs to its end; a field whose text is not
UTF-8 ends the search without a name. -/
def searchFields (node : Node) : List String → Option (Option String)
  | [] => none
  | field :: rest =>
      match node.childByFieldName field with
      | none => searchFields node rest
      | some child =>
          match utf8Text child source with
          | none => some none
          | some text =>
              if (trim text).isEmpty then searchFields node rest else some (some (trim text))

def extractIdentifier (node : Node) : Option String :=
  match searchFields utf8Text source node ["identifier", "name", "type_identifier", "field"] with
  | some result => result
  | none =>
      if node.kind = "impl_item" then
        (node.children.find? fun child : Node => child.kind = "type_identifier").bind
          (trimmedText utf8Text source)
      else if node.kind ∈ ["identifier", "type_identifier", "scoped_identifier"] then
        trimmedText utf8Text source node
      else none

def resolveTarget (node : Node) : TargetPattern → Option String
  | .fromChildType => extractIdentifier utf8Text source node
  | .fromNodeText => trimmedText utf8Text source node
  | .resolveSpecial =>
      match utf8Text node source with
      | none => none
      | some text =>
          if trim text ∈ ["super", "self", "Self"] then some (trim text)
          else extractIdentifier utf8Text source node

/-- The text of a node as the suppress decision sees it. -/
def ownText (node : Node) : Option String := (utf8Text node source).map trim

/-- The node is only the token its parent takes its name from: its text is its own
identifier.  A `field_identifier` is kept, whatever its text is. -/
def suppress (node : Node) : Bool :=
  ownText utf8Text source node == extractIdentifier utf8Text source node &&
    (extractIdentifier utf8Text source node).isSome && node.kind != "field_identifier"

variable (spec : LanguageSpec)

def emitNode (scope : ScopeKey) (node : Node) (out : List ExtractedItem) :
    Exec (List ExtractedItem) :=
  match spec.getNodeRule node.kind with
  | none => .ok out
  | some rule =>
      if !suppress utf8Text source node && !rule.skipNode then
        -- a node without an identifier goes by its text
        match (extractIdentifier utf8Text source node).or (ownText utf8Text source node) with
        | none => .ok out
        | some name => do
            let line ← addU32 profile (UInt32.ofNat node.label.row) 1
            let column ← addU32 profile (UInt32.ofNat node.label.column) 1
            .ok (out ++ [.node {
              label := rule.label
              qualifiedName := scope.qualify name spec.qnSeparator
              tsKind := node.kind
              startByte := UInt32.ofNat node.label.startByte
              endByte := UInt32.ofNat node.label.endByte
              line := line
              column := column }])
      else .ok out

def emitEdge (scope : ScopeKey) (node : Node) (out : List ExtractedItem) :
    List ExtractedItem :=
  if !suppress utf8Text source node &&
      (spec.getNodeRule node.kind).all fun rule => !rule.skipEdges then
    match spec.getEdgeRule node.kind with
    | none => out
    | some rule =>
        match resolveTarget utf8Text source node rule.targetPattern with
        | none => out
        -- the source is the scope alone: the name it qualifies is empty
        | some target => out ++ [.edge {
            sourceQualified := scope.qualify "" spec.qnSeparator
            targetQualified := target
            edgeType := rule.edgeType }]
  else out

/-- The node opens a scope for its descendants. -/
def isScope (node : Node) : Bool :=
  (spec.getScopeAnchor node.kind).isSome && node.kind != spec.rootKind

/-- The name of the scope that a node opens, empty when it has none. -/
def scopeName (node : Node) : String := (extractIdentifier utf8Text source node).getD ""

mutual

/-- `Extractor::visit`: the scope and the items after the visit.  The scope is the
mutable stack of the source: a scope anchor pushes before its children and pops behind
them. -/
def visit (scope : ScopeKey) (out : List ExtractedItem) :
    Node → Exec (ScopeKey × List ExtractedItem)
  | .node data children =>
      let node : Node := .node data children
      if !node.isNamed then visitChildren scope out children
      else do
        let out ← emitNode profile utf8Text source spec scope node out
        let out := emitEdge utf8Text source spec scope node out
        let scope :=
          if isScope spec node then scope.push ⟨node.kind, scopeName utf8Text source node⟩
          else scope
        let (scope, out) ← visitChildren scope out children
        -- the pop on the way out
        .ok (if isScope spec node then scope.pop else scope, out)

/-- The loops of `visit` over the children of a node. -/
def visitChildren (scope : ScopeKey) (out : List ExtractedItem) :
    List Node → Exec (ScopeKey × List ExtractedItem)
  | [] => .ok (scope, out)
  | child :: rest => do
      let (scope, out) ← visit scope out child
      visitChildren scope out rest

end

/-- `Extractor::with_spec`: the items that the iterator hands out. -/
def withSpec (root : Node) : Exec (List ExtractedItem) := do
  let (_, items) ← visit profile utf8Text source spec ScopeKey.new [] root
  .ok items

end

/-- `extract`: the items of a source text, if its language has a specification. -/
def extract (profile : Profile) (utf8Text : Utf8Text) (root : Node) (source : String)
    (lang : Language) : Exec (Option (List ExtractedItem)) := do
  match ← Specs.getSpec lang with
  | none => .ok none
  | some spec =>
      let items ← withSpec profile utf8Text (utf8 source) spec root
      .ok (some items)

end Parser
end CodebaseMem
