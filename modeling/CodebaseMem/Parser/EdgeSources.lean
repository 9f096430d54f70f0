import CodebaseMem.Parser.Listing

/-!
# The sources of edges

The source of an edge should be the name of the innermost named scope around the
syntax node that gives rise to it.  The walk qualifies the empty name instead,
which leaves a separator at the end: the source names a symbol only at top level
or in a language whose separator is empty.

* `SourceNamesScope`: what the source of one edge should be.
* `EdgesNameSources`: the same for all edges of a tree, which come in the order of the
  nodes that give rise to them.
* `qualifiedName_empty_iff`: a qualified empty name is the name of a scope exactly if no
  named scope is open or the separator is empty.
* `edgesNameSources_iff_no_named_scope`: the exact condition on a tree, for every
  specification and every run that returns.
-/

namespace CodebaseMem
namespace Parser

open CodebaseMem.Core Library RoseTree

section

variable (profile : Profile) (utf8Text : Utf8Text) (source : List UInt8) (spec : LanguageSpec)

/-- The node opens a scope that has a name.  Scopes without a name are on the stack too,
but they leave no trace in a qualified name. -/
def opensNamedScope (node : Node) : Bool :=
  opensScope spec node && !(scopeName utf8Text source node).isEmpty

theorem scopeNames_eq_map_filter (ancestors : List Node) :
    scopeNames utf8Text source spec ancestors =
      (ancestors.filter (opensNamedScope utf8Text source spec)).map
        (scopeName utf8Text source) := by
  rw [scopeNames, List.filter_map, List.filter_filter]
  congr 2
  funext node
  exact Bool.and_comm _ _

/-- The source of the edge is the qualified name of the innermost named scope
around the node, and of the graph node that stands for that scope, if any.  It
is empty when there is no such scope. -/
def SourceNamesScope (o : Occurrence SyntaxData) (edge : ExtractedEdge) : Prop :=
  (scopeNames utf8Text source spec o.ancestors = [] ∧ edge.sourceQualified = "") ∨
    ∃ outer anchor inner, o.ancestors = outer ++ anchor :: inner ∧
      opensNamedScope utf8Text source spec anchor = true ∧
      (∀ node ∈ inner, opensNamedScope utf8Text source spec node = false) ∧
      edge.sourceQualified =
        qualifiedName utf8Text source spec outer (scopeName utf8Text source anchor) ∧
      ∀ item, nodeAt utf8Text source spec ⟨outer, anchor⟩ = some item →
        edge.sourceQualified = item.qualifiedName

/-- The occurrences that give rise to an edge, in pre-order. -/
def edgeSites (root : Node) : List (Occurrence SyntaxData) :=
  (occurrences [] root).filter fun o => (edgeSite utf8Text source spec o.node).isSome

/-- The edges among some items, in the order of the items. -/
def edgesOf (items : List ExtractedItem) : List ExtractedEdge :=
  items.filterMap fun
    | .node _ => none
    | .edge edge => some edge

/-- Every edge among the items of a tree has the source that its place in the
tree asks for. -/
def EdgesNameSources (root : Node) (items : List ExtractedItem) : Prop :=
  List.Forall₂ (SourceNamesScope utf8Text source spec) (edgeSites utf8Text source spec root)
    (edgesOf items)

/-! ### One edge -/

theorem qualifiedName_of_nodeAt {o : Occurrence SyntaxData} {item : ExtractedNode}
    (hItem : nodeAt utf8Text source spec o = some item)
    (hNamed : opensNamedScope utf8Text source spec o.node = true) :
    item.qualifiedName =
      qualifiedName utf8Text source spec o.ancestors (scopeName utf8Text source o.node) := by
  have hName : ∃ name, extractIdentifier utf8Text source o.node = some name := by
    cases h : extractIdentifier utf8Text source o.node with
    | none => simp [opensNamedScope, scopeName, h] at hNamed
    | some name => exact ⟨name, rfl⟩
  obtain ⟨name, hName⟩ := hName
  unfold nodeAt at hItem
  split at hItem
  · split at hItem
    · cases hItem
    · split at hItem
      · cases hItem
      · rw [hName] at hItem
        cases hItem
        rw [scopeName, hName]
        rfl
  · cases hItem

theorem exists_innermost {ancestors : List Node}
    (hNames : scopeNames utf8Text source spec ancestors ≠ []) :
    ∃ outer anchor inner, ancestors = outer ++ anchor :: inner ∧
      opensNamedScope utf8Text source spec anchor = true ∧
      ∀ node ∈ inner, opensNamedScope utf8Text source spec node = false := by
  -- the last element of the filtered list, and where it sits in the list itself
  rw [scopeNames_eq_map_filter, ne_eq, List.map_eq_nil_iff] at hNames
  obtain ⟨front, anchor, hLast⟩ := (List.eq_nil_or_concat _).resolve_left hNames
  rw [List.concat_eq_append, List.filter_eq_append_iff] at hLast
  obtain ⟨before, rest, rfl, -, hRest⟩ := hLast
  obtain ⟨between, inner, rfl, -, hAnchor, hInner⟩ := List.filter_eq_cons_iff.mp hRest
  refine ⟨before ++ between, anchor, inner, by simp, hAnchor, fun node hNode => ?_⟩
  simpa using List.filter_eq_nil_iff.mp hInner node hNode

theorem scopeNames_innermost {outer inner : List Node} {anchor : Node}
    (hAnchor : opensNamedScope utf8Text source spec anchor = true)
    (hInner : ∀ node ∈ inner, opensNamedScope utf8Text source spec node = false) :
    scopeNames utf8Text source spec (outer ++ anchor :: inner) =
      scopeNames utf8Text source spec outer ++ [scopeName utf8Text source anchor] := by
  have hNil : inner.filter (opensNamedScope utf8Text source spec) = [] :=
    List.filter_eq_nil_iff.mpr fun node hNode => by simp [hInner node hNode]
  simp only [scopeNames_eq_map_filter, List.filter_append, List.filter_cons, hAnchor, hNil,
    if_true, List.map_append, List.map_cons, List.map_nil]

/-- The right source is the names of the scopes, joined. -/
theorem sourceNamesScope_iff_intercalate (o : Occurrence SyntaxData) (edge : ExtractedEdge) :
    SourceNamesScope utf8Text source spec o edge ↔
      edge.sourceQualified =
        spec.qnSeparator.intercalate (scopeNames utf8Text source spec o.ancestors) := by
  constructor
  · rintro (⟨hNone, hSource⟩ | ⟨outer, anchor, inner, hSplit, hAnchor, hInner, hSource, -⟩)
    · rw [hSource, hNone, String.intercalate_nil]
    · rw [hSource, hSplit, scopeNames_innermost _ _ _ hAnchor hInner, qualifiedName]
  · intro hSource
    by_cases hNone : scopeNames utf8Text source spec o.ancestors = []
    · exact .inl ⟨hNone, by rw [hSource, hNone, String.intercalate_nil]⟩
    · obtain ⟨outer, anchor, inner, hSplit, hAnchor, hInner⟩ := exists_innermost _ _ _ hNone
      have hName : edge.sourceQualified =
          qualifiedName utf8Text source spec outer (scopeName utf8Text source anchor) := by
        rw [hSource, hSplit, scopeNames_innermost _ _ _ hAnchor hInner, qualifiedName]
      refine .inr ⟨outer, anchor, inner, hSplit, hAnchor, hInner, hName, fun item hItem => ?_⟩
      rw [hName]
      exact (qualifiedName_of_nodeAt _ _ _ hItem hAnchor).symm

/-- Qualifying the empty name gives the name of the scope only where the
separator is empty or there is no named scope. -/
theorem qualifiedName_empty_iff (ancestors : List Node) :
    qualifiedName utf8Text source spec ancestors "" =
        spec.qnSeparator.intercalate (scopeNames utf8Text source spec ancestors) ↔
      spec.qnSeparator = "" ∨ scopeNames utf8Text source spec ancestors = [] := by
  rw [qualifiedName]
  by_cases hNone : scopeNames utf8Text source spec ancestors = []
  · simp [hNone]
  · -- what is left of the empty name is the separator before it
    rw [String.intercalate_append_of_ne_nil hNone (by simp), String.intercalate_singleton,
      String.append_empty]
    simp [hNone]

/-! ### All edges of a tree -/

theorem edgesOf_listing (root : Node) :
    edgesOf (listing utf8Text source spec root) =
      (occurrences [] root).filterMap (edgeAt utf8Text source spec) := by
  rw [edgesOf, listing, List.filterMap_flatMap, List.filterMap_eq_flatMap_toList]
  congr 1
  funext o
  rw [itemsAt, List.filterMap_append, List.filterMap_map, List.filterMap_map]
  cases nodeAt utf8Text source spec o <;> cases edgeAt utf8Text source spec o <;> rfl

/-- The elements that a partial function is defined on, beside its values there. -/
theorem forall₂_filter_filterMap {α β : Type} {R : α → β → Prop} {p : α → Bool}
    {f : α → Option β} (hp : ∀ a, p a = (f a).isSome) (l : List α) :
    List.Forall₂ R (l.filter p) (l.filterMap f) ↔ ∀ a ∈ l, ∀ b, f a = some b → R a b := by
  induction l with
  | nil => simp
  | cons a l ih =>
      rw [List.filter_cons, List.filterMap_cons, hp]
      cases h : f a with
      | none => simp [ih, h]
      | some b => simp [ih, h]

/-- Every edge of a tree has the right source exactly when the separator is empty
or no edge stems from inside a named scope. -/
theorem edgesNameSources_listing_iff (root : Node) :
    EdgesNameSources utf8Text source spec root (listing utf8Text source spec root) ↔
      spec.qnSeparator = "" ∨ ∀ o ∈ edgeSites utf8Text source spec root,
        scopeNames utf8Text source spec o.ancestors = [] := by
  have hSite : ∀ o : Occurrence SyntaxData, (edgeSite utf8Text source spec o.node).isSome =
      (edgeAt utf8Text source spec o).isSome := fun o => by rw [edgeAt, Option.isSome_map]
  -- one edge: its source ends in the separator unless no scope around it has a name
  have hEdge : ∀ o edge, edgeAt utf8Text source spec o = some edge →
      (SourceNamesScope utf8Text source spec o edge ↔
        spec.qnSeparator = "" ∨ scopeNames utf8Text source spec o.ancestors = []) := by
    intro o edge hAt
    obtain ⟨site, -, rfl⟩ := Option.map_eq_some_iff.mp hAt
    rw [sourceNamesScope_iff_intercalate, qualifiedName_empty_iff]
  rw [EdgesNameSources, edgeSites, edgesOf_listing, forall₂_filter_filterMap hSite]
  constructor
  · intro h
    by_cases hSeparator : spec.qnSeparator = ""
    · exact .inl hSeparator
    · refine .inr fun o ho => ?_
      rw [List.mem_filter, hSite, Option.isSome_iff_exists] at ho
      obtain ⟨hOccurs, edge, hAt⟩ := ho
      exact ((hEdge o edge hAt).mp (h o hOccurs edge hAt)).resolve_left hSeparator
  · rintro h o hOccurs edge hAt
    refine (hEdge o edge hAt).mpr (h.imp_right fun hAll => hAll o ?_)
    rw [List.mem_filter, hSite, hAt]
    exact ⟨hOccurs, rfl⟩

/-- The edges of a run that returns all have the right source exactly when the
separator is empty or no edge stems from inside a named scope. -/
theorem edgesNameSources_iff_no_named_scope (root : Node) {scope : ScopeKey}
    {items : List ExtractedItem}
    (hRun : visit profile utf8Text source spec ScopeKey.new [] root = .ok (scope, items)) :
    EdgesNameSources utf8Text source spec root items ↔
      spec.qnSeparator = "" ∨ ∀ o ∈ edgeSites utf8Text source spec root,
        scopeNames utf8Text source spec o.ancestors = [] := by
  rw [visit_eq_ite] at hRun
  split at hRun
  · cases hRun
    exact edgesNameSources_listing_iff utf8Text source spec root
  · cases hRun

end

/-! ### An import beside a module and in a module -/

/-- The tree of `use a;`, which starts at a byte of the first line. -/
def useDeclaration (start : Nat) : Node :=
  .node ⟨"use_declaration", true, [], start, start + 6, 0, start⟩ [
    .node ⟨"use", false, [], start, start + 3, 0, start⟩ [],
    .node ⟨"identifier", true, ["argument"], start + 4, start + 5, 0, start + 4⟩ [],
    .node ⟨";", false, [], start + 5, start + 6, 0, start + 5⟩ []]

/-- The tree of the Rust source `use a;`. -/
def topLevelUse : Node := .node ⟨"source_file", true, [], 0, 6, 0, 0⟩ [useDeclaration 0]

/-- The tree of the Rust source `mod m {} use a;`. -/
def useBesideModule : Node :=
  .node ⟨"source_file", true, [], 0, 15, 0, 0⟩ [
    .node ⟨"mod_item", true, [], 0, 8, 0, 0⟩ [
      .node ⟨"mod", false, [], 0, 3, 0, 0⟩ [],
      .node ⟨"identifier", true, ["name"], 4, 5, 0, 4⟩ [],
      .node ⟨"declaration_list", true, ["body"], 6, 8, 0, 6⟩ [
        .node ⟨"\x7b", false, [], 6, 7, 0, 6⟩ [],
        .node ⟨"\x7d", false, [], 7, 8, 0, 7⟩ []]],
    useDeclaration 9]

def useBesideModuleText : List UInt8 := utf8 "mod m \x7b\x7d use a;"

/-- Beside the scope of a module the source of the import is empty, as it should be. -/
theorem edgesNameSources_useBesideModule :
    EdgesNameSources sourceText useBesideModuleText Specs.rust useBesideModule
      (listing sourceText useBesideModuleText Specs.rust useBesideModule) :=
  (edgesNameSources_iff_no_named_scope .dev sourceText useBesideModuleText Specs.rust
    useBesideModule rfl).mpr (.inr (by decide))

def nestedUseBody : Node :=
  .node ⟨"declaration_list", true, ["body"], 6, 16, 0, 6⟩ [
    .node ⟨"\x7b", false, [], 6, 7, 0, 6⟩ [],
    useDeclaration 8,
    .node ⟨"\x7d", false, [], 15, 16, 0, 15⟩ []]

def nestedUseModule : Node :=
  .node ⟨"mod_item", true, [], 0, 16, 0, 0⟩ [
    .node ⟨"mod", false, [], 0, 3, 0, 0⟩ [],
    .node ⟨"identifier", true, ["name"], 4, 5, 0, 4⟩ [],
    nestedUseBody]

/-- The tree of the Rust source `mod m { use a; }`. -/
def nestedUse : Node := .node ⟨"source_file", true, [], 0, 16, 0, 0⟩ [nestedUseModule]

def nestedUseText : List UInt8 := utf8 "mod m \x7b use a; \x7d"

/-- Inside the module `m` the source of the import is `m::`, which names no
symbol. -/
theorem not_edgesNameSources_nestedUse :
    ¬∀ (profile : Profile) (utf8Text : Utf8Text) (source : List UInt8) (lang : Language)
        (spec : LanguageSpec) (root : Node) (scope : ScopeKey) (items : List ExtractedItem),
      Specs.registered.lookup lang = some spec →
      visit profile utf8Text source spec ScopeKey.new [] root = .ok (scope, items) →
      EdgesNameSources utf8Text source spec root items := by
  intro h
  have hSites : edgeSites sourceText nestedUseText Specs.rust nestedUse =
      [⟨[nestedUse, nestedUseModule, nestedUseBody], useDeclaration 8⟩] := rfl
  have hEdges := h .dev sourceText nestedUseText .rust Specs.rust nestedUse ScopeKey.new
    (listing sourceText nestedUseText Specs.rust nestedUse) (by decide) rfl
  have hItems : edgesOf (listing sourceText nestedUseText Specs.rust nestedUse) =
      [⟨"m::", "use a;", .imports⟩] := by decide
  rw [EdgesNameSources, hSites, hItems, List.forall₂_cons, sourceNamesScope_iff_intercalate]
    at hEdges
  exact absurd hEdges.1 (by decide)

end Parser
end CodebaseMem
