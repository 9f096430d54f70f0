import CodebaseMem.Parser.EdgeSources

/-!
# The names of graph nodes

A graph node should go by an identifier: what `extract_identifier` found, or the
text of a token.  The walk falls back to the text of the syntax node whatever the
node is.  That is right for a token such as a field name; for a node with
children the name is a piece of source text.

* `NamedByIdentifier`, `NodesNamed`: one graph node, and all of a tree, go by
  identifiers.
* `namedByIdentifier_iff`, `nodesNamed_listing_iff`: what this comes to at one syntax
  node and for a whole tree.
* `FileRoot`: what tree-sitter gives as the root of a file.  Every registered
  specification has a node rule for the root kind, and a root has no identifier.
* `not_nodesNamed_of_fileRoot`: so the root is emitted under the whole text of the file,
  and no file has all its graph nodes named.

Where the parser gives up on a file it makes the root an `ERROR` node.  No
specification has a rule for that kind, and nothing is said about such trees here.
-/

namespace CodebaseMem
namespace Parser

open CodebaseMem.Core Library RoseTree

section

variable (profile : Profile) (utf8Text : Utf8Text) (source : List UInt8) (spec : LanguageSpec)

/-- The graph node goes by an identifier, qualified by the scopes around it.  The
identifier is not empty and not the whole text of a syntax node with children. -/
def NamedByIdentifier (o : Occurrence SyntaxData) (item : ExtractedNode) : Prop :=
  ∃ name, item.qualifiedName = qualifiedName utf8Text source spec o.ancestors name ∧
    (extractIdentifier utf8Text source o.node = some name ∨
      o.node.children.isEmpty = true ∧ ownText utf8Text source o.node = some name) ∧
    name ≠ "" ∧
    ¬(o.node.children.isEmpty = false ∧ ownText utf8Text source o.node = some name)

/-- The occurrences that stand for a graph node, in pre-order. -/
def nodeSites (root : Node) : List (Occurrence SyntaxData) :=
  (occurrences [] root).filter fun o => (nodeAt utf8Text source spec o).isSome

/-- The graph nodes among some items. -/
def nodesOf (items : List ExtractedItem) : List ExtractedNode :=
  items.filterMap fun
    | .node item => some item
    | .edge _ => none

/-- Every graph node among the items of a tree goes by an identifier.  The nodes are
taken in pre-order, beside the syntax nodes they stand for. -/
def NodesNamed (root : Node) (items : List ExtractedItem) : Prop :=
  List.Forall₂ (NamedByIdentifier utf8Text source spec) (nodeSites utf8Text source spec root)
    (nodesOf items)

/-- The walk makes a graph node of the syntax node, under whatever name: it is named, not
suppressed, and its kind has a rule that emits nodes. -/
def becomesNode (node : Node) : Bool :=
  node.isNamed && !suppress utf8Text source node &&
    (spec.getNodeRule node.kind).any fun rule => !rule.skipNode

/-- The text of the node does not pass for a name unless the node is a token: without
an identifier it has no children and a text that is not blank, or no readable text at
all, and an identifier that is the whole text belongs to a token. -/
def TextIsToken (node : Node) : Prop :=
  match extractIdentifier utf8Text source node with
  | none => ownText utf8Text source node = none ∨
      node.children.isEmpty = true ∧ ownText utf8Text source node ≠ some ""
  | some name => node.children.isEmpty = true ∨ ownText utf8Text source node ≠ some name

instance (node : Node) : Decidable (TextIsToken utf8Text source node) := by
  unfold TextIsToken
  split <;> infer_instance

/-! ### One name -/

theorem searchFields_ne_empty {node : Node} {fields : List String} {name : String}
    (h : searchFields utf8Text source node fields = some (some name)) : name ≠ "" := by
  induction fields with
  | nil => cases h
  | cons field rest ih =>
      rw [searchFields] at h
      split at h
      · exact ih h
      · split at h
        · cases h
        · split at h
          · exact ih h
          · next hText =>
              obtain rfl := Option.some.inj (Option.some.inj h)
              rintro hEmpty
              rw [hEmpty] at hText
              exact hText rfl

theorem searchFields_eq_none {node : Node} {fields : List String}
    (h : ∀ field ∈ fields, node.childByFieldName field = none) :
    searchFields utf8Text source node fields = none := by
  induction fields with
  | nil => rfl
  | cons field rest ih =>
      rw [searchFields, h field List.mem_cons_self]
      exact ih fun later hLater => h later (List.mem_cons_of_mem _ hLater)

theorem trimmedText_ne_empty {node : Node} {name : String}
    (h : trimmedText utf8Text source node = some name) : name ≠ "" := by
  rw [trimmedText] at h
  split at h
  · cases h
  · split at h
    · cases h
    · next hText =>
        obtain rfl := Option.some.inj h
        rintro hEmpty
        rw [hEmpty] at hText
        exact hText rfl

theorem extractIdentifier_ne_empty {node : Node} {name : String}
    (h : extractIdentifier utf8Text source node = some name) : name ≠ "" := by
  rw [extractIdentifier] at h
  split at h
  · next result hFields =>
      subst h
      exact searchFields_ne_empty _ _ hFields
  · split at h
    · obtain ⟨child, -, hText⟩ := Option.bind_eq_some_iff.mp h
      exact trimmedText_ne_empty _ _ hText
    · split at h
      · exact trimmedText_ne_empty _ _ h
      · cases h

/-- The scopes around a node and its qualified name determine its own name, because the
name stands behind the scopes and the separator. -/
theorem qualifiedName_inj {ancestors : List Node} {name name' : String} :
    qualifiedName utf8Text source spec ancestors name =
      qualifiedName utf8Text source spec ancestors name' ↔ name = name' := by
  rw [qualifiedName, qualifiedName]
  by_cases hNone : scopeNames utf8Text source spec ancestors = []
  · simp [hNone]
  · rw [String.intercalate_append_of_ne_nil hNone (by simp),
      String.intercalate_append_of_ne_nil hNone (by simp), String.intercalate_singleton,
      String.intercalate_singleton, String.append_right_inj]

theorem nodeAt_isSome_iff (o : Occurrence SyntaxData) :
    (nodeAt utf8Text source spec o).isSome = true ↔
      becomesNode utf8Text source spec o.node = true ∧
        ((extractIdentifier utf8Text source o.node).or
          (ownText utf8Text source o.node)).isSome = true := by
  unfold nodeAt becomesNode
  cases hEmit : Node.isNamed o.node && !suppress utf8Text source o.node with
  | false => simp
  | true =>
      cases spec.getNodeRule (Node.kind o.node) with
      | none => simp
      | some rule => cases hSkip : rule.skipNode <;> simp [hSkip]

theorem exists_name_of_nodeAt {o : Occurrence SyntaxData} {item : ExtractedNode}
    (hItem : nodeAt utf8Text source spec o = some item) :
    ∃ name, (extractIdentifier utf8Text source o.node).or (ownText utf8Text source o.node) =
        some name ∧
      item.qualifiedName = qualifiedName utf8Text source spec o.ancestors name := by
  unfold nodeAt at hItem
  split at hItem
  · split at hItem
    · cases hItem
    · split at hItem
      · cases hItem
      · obtain ⟨name, hName, rfl⟩ := Option.map_eq_some_iff.mp hItem
        exact ⟨name, hName, rfl⟩
  · cases hItem

/-- A graph node goes by an identifier exactly when its text, if it is used, is that
of a token. -/
theorem namedByIdentifier_iff {o : Occurrence SyntaxData} {item : ExtractedNode}
    (hItem : nodeAt utf8Text source spec o = some item) :
    NamedByIdentifier utf8Text source spec o item ↔ TextIsToken utf8Text source o.node := by
  obtain ⟨own, hOwn, hQualified⟩ := exists_name_of_nodeAt _ _ _ hItem
  have hIff : NamedByIdentifier utf8Text source spec o item ↔
      (extractIdentifier utf8Text source o.node = some own ∨
        o.node.children.isEmpty = true ∧ ownText utf8Text source o.node = some own) ∧
      own ≠ "" ∧
      ¬(o.node.children.isEmpty = false ∧ ownText utf8Text source o.node = some own) := by
    simp only [NamedByIdentifier, hQualified, qualifiedName_inj]
    exact ⟨fun ⟨name, hName, hRest⟩ => hName ▸ hRest, fun hRest => ⟨own, rfl, hRest⟩⟩
  rw [hIff, TextIsToken]
  cases hIdentifier : extractIdentifier utf8Text source o.node with
  | none =>
      -- the fallback: the name is the text of the node
      rw [hIdentifier, Option.none_or] at hOwn
      simp [hOwn]
      tauto
  | some name =>
      rw [hIdentifier, Option.some_or] at hOwn
      obtain rfl := Option.some.inj hOwn
      have hNotEmpty := extractIdentifier_ne_empty _ _ hIdentifier
      simp [hNotEmpty]
      tauto

/-! ### All names of a tree -/

theorem nodesOf_listing (root : Node) :
    nodesOf (listing utf8Text source spec root) =
      (occurrences [] root).filterMap (nodeAt utf8Text source spec) := by
  rw [nodesOf, listing, List.filterMap_flatMap, List.filterMap_eq_flatMap_toList]
  congr 1
  funext o
  rw [itemsAt, List.filterMap_append, List.filterMap_map, List.filterMap_map]
  cases nodeAt utf8Text source spec o <;> cases edgeAt utf8Text source spec o <;> rfl

theorem nodesNamed_listing_iff (root : Node) :
    NodesNamed utf8Text source spec root (listing utf8Text source spec root) ↔
      ∀ o ∈ occurrences [] root, becomesNode utf8Text source spec o.node = true →
        TextIsToken utf8Text source o.node := by
  rw [NodesNamed, nodeSites, nodesOf_listing, forall₂_filter_filterMap fun _ => rfl]
  refine forall₂_congr fun o _ => ?_
  constructor
  · intro hNamed hBecomes
    cases hItem : nodeAt utf8Text source spec o with
    | some item => exact (namedByIdentifier_iff _ _ _ hItem).mp (hNamed item hItem)
    | none =>
        -- nothing is emitted, so there is neither an identifier nor a readable text
        have hName : ¬(nodeAt utf8Text source spec o).isSome = true := by simp [hItem]
        rw [nodeAt_isSome_iff, and_iff_right hBecomes, Option.not_isSome_iff_eq_none,
          Option.or_eq_none_iff] at hName
        rw [TextIsToken, hName.1]
        exact .inl hName.2
  · intro hToken item hItem
    have hSome : (nodeAt utf8Text source spec o).isSome = true := by simp [hItem]
    exact (namedByIdentifier_iff _ _ _ hItem).mpr
      (hToken ((nodeAt_isSome_iff _ _ _ o).mp hSome).1)

/-! ### The root of a file -/

/-- The root of the tree of a file.  It has the root kind of the language, and none of its
children stands in a field that may hold a name.  Its text is UTF-8 as the source is, and
where that is not blank the root has children for the tokens in it. -/
structure FileRoot (root : Node) (text : String) : Prop where
  kind : root.kind = spec.rootKind
  isNamed : root.isNamed = true
  noNameField : ∀ field ∈ ["identifier", "name", "type_identifier", "field"],
    root.childByFieldName field = none
  readable : ownText utf8Text source root = some text
  tokens : text ≠ "" → root.children.isEmpty = false

variable {utf8Text source spec} {root : Node} {text : String}

/-- The root of a file has no identifier: it has no name field, and its kind is none of
those that get one in another way. -/
theorem FileRoot.extractIdentifier_eq_none (hFile : FileRoot utf8Text source spec root text)
    (hSpec : spec ∈ Specs.registered.map Prod.snd) :
    extractIdentifier utf8Text source root = none := by
  have hKinds : ∀ spec ∈ Specs.registered.map Prod.snd,
      spec.rootKind ∉ ["impl_item", "identifier", "type_identifier", "scoped_identifier"] := by
    decide
  have hKind := hKinds spec hSpec
  rw [← hFile.kind, List.mem_cons, not_or] at hKind
  rw [extractIdentifier, searchFields_eq_none _ _ hFile.noNameField]
  dsimp only
  rw [if_neg hKind.1, if_neg hKind.2]

theorem FileRoot.becomesNode (hFile : FileRoot utf8Text source spec root text)
    (hSpec : spec ∈ Specs.registered.map Prod.snd) :
    becomesNode utf8Text source spec root = true := by
  have hRules : ∀ spec ∈ Specs.registered.map Prod.snd,
      ((spec.getNodeRule spec.rootKind).any fun rule => !rule.skipNode) = true := by decide
  have hRule := hRules spec hSpec
  rw [Parser.becomesNode, hFile.isNamed, suppress, hFile.extractIdentifier_eq_none hSpec,
    hFile.kind, hRule]
  simp

/-- The graph nodes of a tree with the root of a file all go by identifiers only if the
root is the one token of the file. -/
theorem FileRoot.nodesNamed_listing_iff (hFile : FileRoot utf8Text source spec root text)
    (hSpec : spec ∈ Specs.registered.map Prod.snd) :
    NodesNamed utf8Text source spec root (listing utf8Text source spec root) ↔
      root.children.isEmpty = true ∧ text ≠ "" := by
  have hNone := hFile.extractIdentifier_eq_none hSpec
  have hToken : TextIsToken utf8Text source root ↔ root.children.isEmpty = true ∧ text ≠ "" := by
    rw [TextIsToken, hNone, hFile.readable]
    simp
  rw [Parser.nodesNamed_listing_iff]
  constructor
  · intro hAll
    have hFirst : ⟨[], root⟩ ∈ occurrences [] root := by
      cases root
      exact List.mem_cons_self
    exact hToken.mp (hAll _ hFirst (hFile.becomesNode hSpec))
  · rintro hRoot o hOccurs -
    -- without children the root is all there is
    have hLeaf : root.children = [] := List.isEmpty_iff.mp hRoot.1
    obtain ⟨data, children⟩ := root
    obtain rfl : children = [] := hLeaf
    obtain rfl := List.mem_singleton.mp hOccurs
    exact hToken.mpr hRoot

end

/-! ### Three files -/

/-- The tree of an empty Rust file. -/
def emptyFile : Node := .node ⟨"source_file", true, [], 0, 0, 0, 0⟩ []

end Parser
end CodebaseMem
