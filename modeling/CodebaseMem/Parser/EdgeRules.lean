import CodebaseMem.Parser.EdgeSources

/-!
# The edge rules that take effect

The walk looks for the first edge rule of a kind.  A later rule of the same kind is
never found, so it gives rise to no edge in any tree.

* `EdgesAllowed`: the walk may emit an edge for a node: it is named, it is not the token
  its parent takes its name from, and its node rule does not opt out.
* `EdgeEmitted`: the items hold an edge for the node, of the type of a rule and with the
  target of its pattern.
* `edgeEmitted_iff_first`: a rule of a registered language takes effect on an allowed node
  of its kind exactly when it is the first one for that kind.
* `edgeRules_distinct`: two rules for one kind differ in the type of edge, so no edge can
  be taken for that of another rule.
-/

namespace CodebaseMem
namespace Parser

open CodebaseMem.Core Library RoseTree

section

variable (profile : Profile) (utf8Text : Utf8Text) (source : List UInt8) (spec : LanguageSpec)

/-- The items hold an edge for the occurrence, of the type of the rule and with this
target.  The edges of a tree come in the order of the nodes they stem from. -/
def EdgeEmitted (root : Node) (items : List ExtractedItem) (o : Occurrence SyntaxData)
    (rule : EdgeRule) (target : String) : Prop :=
  ∃ (k : Nat) (edge : ExtractedEdge),
    (edgeSites utf8Text source spec root)[k]? = some o ∧ (edgesOf items)[k]? = some edge ∧
      edge.edgeType = rule.edgeType ∧ edge.targetQualified = target

/-- The walk may emit an edge for the node: it is named, it is not the token its parent
takes its name from, and its node rule does not opt out. -/
structure EdgesAllowed (node : Node) : Prop where
  named : node.isNamed = true
  distinct : extractIdentifier utf8Text source node ≠ ownText utf8Text source node
  optIn : ((spec.getNodeRule node.kind).all fun rule => !rule.skipEdges) = true

instance (node : Node) : Decidable (EdgesAllowed utf8Text source spec node) :=
  decidable_of_iff
    (node.isNamed = true ∧
      extractIdentifier utf8Text source node ≠ ownText utf8Text source node ∧
      ((spec.getNodeRule node.kind).all fun rule => !rule.skipEdges) = true)
    ⟨fun ⟨h, h', h''⟩ => ⟨h, h', h''⟩, fun h => ⟨h.named, h.distinct, h.optIn⟩⟩

variable {profile utf8Text source spec}

theorem map_some_edgesOf_listing (root : Node) :
    (edgesOf (listing utf8Text source spec root)).map some =
      (edgeSites utf8Text source spec root).map (edgeAt utf8Text source spec) := by
  rw [edgesOf_listing, edgeSites]
  induction occurrences [] root with
  | nil => rfl
  | cons o rest ih =>
      have hSite : (edgeSite utf8Text source spec o.node).isSome =
          (edgeAt utf8Text source spec o).isSome := by rw [edgeAt, Option.isSome_map]
      rw [List.filter_cons, List.filterMap_cons, hSite]
      cases hEdge : edgeAt utf8Text source spec o with
      | none => simpa using ih
      | some edge => simp [ih, hEdge]

/-- What an allowed node gives rise to is decided by the first rule of its kind. -/
theorem EdgesAllowed.edgeSite_eq {node : Node} (h : EdgesAllowed utf8Text source spec node) :
    edgeSite utf8Text source spec node =
      (spec.getEdgeRule node.kind).bind fun rule =>
        (resolveTarget utf8Text source node rule.targetPattern).map fun target =>
          (rule.edgeType, target) := by
  have hKept : suppress utf8Text source node = false := by
    have hText : (ownText utf8Text source node ==
        extractIdentifier utf8Text source node) = false :=
      beq_eq_false_iff_ne.mpr h.distinct.symm
    rw [suppress, hText]
    rfl
  rw [edgeSite, h.named, hKept, h.optIn]
  rfl

theorem edgeEmitted_listing_iff {root : Node} {o : Occurrence SyntaxData}
    (ho : o ∈ occurrences [] root) {rule : EdgeRule} {target : String} :
    EdgeEmitted utf8Text source spec root (listing utf8Text source spec root) o rule target ↔
      edgeSite utf8Text source spec o.node = some (rule.edgeType, target) := by
  have hParallel : ∀ k : Nat, (edgesOf (listing utf8Text source spec root))[k]?.map some =
      (edgeSites utf8Text source spec root)[k]?.map (edgeAt utf8Text source spec) := by
    intro k
    rw [← List.getElem?_map, map_some_edgesOf_listing, List.getElem?_map]
  constructor
  · rintro ⟨k, edge, hSite, hEdge, hType, hTarget⟩
    have hAt := hParallel k
    rw [hSite, hEdge, Option.map_some, Option.map_some, Option.some_inj] at hAt
    obtain ⟨site, hFound, rfl⟩ := Option.map_eq_some_iff.mp hAt.symm
    rw [hFound, ← hType, ← hTarget]
  · intro hFound
    have hSite : o ∈ edgeSites utf8Text source spec root := by
      rw [edgeSites, List.mem_filter, hFound]
      exact ⟨ho, rfl⟩
    obtain ⟨k, hGet⟩ := List.mem_iff_getElem?.mp hSite
    have hAt := hParallel k
    rw [hGet, Option.map_some, edgeAt, hFound, Option.map_some, Option.map_eq_some_iff] at hAt
    obtain ⟨edge, hEdge, hEq⟩ := hAt
    obtain rfl := Option.some.inj hEq
    exact ⟨k, _, hGet, hEdge, rfl, rfl⟩

/-- Two rules of a registered language for the same kind differ in the type of edge.  So
an edge that was emitted tells which rule it comes from. -/
theorem edgeRules_distinct {spec : LanguageSpec} (hSpec : spec ∈ Specs.registered.map Prod.snd)
    {rule rule' : EdgeRule} (hRule : rule ∈ spec.edgeRules) (hRule' : rule' ∈ spec.edgeRules)
    (hKind : rule.sourceKind = rule'.sourceKind) (hType : rule.edgeType = rule'.edgeType) :
    rule = rule' := by
  have hAll : ∀ spec ∈ Specs.registered.map Prod.snd, ∀ rule ∈ spec.edgeRules,
      ∀ rule' ∈ spec.edgeRules, rule.sourceKind = rule'.sourceKind →
        rule.edgeType = rule'.edgeType → rule = rule' := by decide
  exact hAll spec hSpec rule hRule rule' hRule' hKind hType

/-- An edge rule of a registered language takes effect on an allowed node of its kind, with
the target that its pattern finds there, exactly when it is the first rule of the kind.
As for the listing, the tree is one that fits the source. -/
theorem edgeEmitted_iff_first (hSpec : spec ∈ Specs.registered.map Prod.snd) (root : Node)
    {scope : ScopeKey} {items : List ExtractedItem}
    (hRun : visit profile utf8Text source spec ScopeKey.new [] root = .ok (scope, items))
    {o : Occurrence SyntaxData} (ho : o ∈ occurrences [] root)
    (hAllowed : EdgesAllowed utf8Text source spec o.node) {rule : EdgeRule}
    (hRule : rule ∈ spec.edgeRules) (hKind : Node.kind o.node = rule.sourceKind)
    {target : String}
    (hTarget : resolveTarget utf8Text source o.node rule.targetPattern = some target) :
    EdgeEmitted utf8Text source spec root items o rule target ↔
      spec.getEdgeRule rule.sourceKind = some rule := by
  rw [visit_eq_ite] at hRun
  split at hRun
  · cases hRun
    rw [edgeEmitted_listing_iff ho, hAllowed.edgeSite_eq, hKind]
    constructor
    · intro hFound
      -- an edge of this type comes from a rule of this kind and type, and there is only one
      obtain ⟨first, hFirst, hEdge⟩ := Option.bind_eq_some_iff.mp hFound
      obtain ⟨found, -, hPair⟩ := Option.map_eq_some_iff.mp hEdge
      obtain ⟨hType, -⟩ := Prod.mk.inj hPair
      have hFirstKind : first.sourceKind = rule.sourceKind := by simpa using List.find?_some hFirst
      rw [hFirst, edgeRules_distinct hSpec (List.mem_of_find?_eq_some hFirst) hRule hFirstKind
        hType]
    · intro hFirst
      rw [hFirst, Option.bind_some, hTarget]
      rfl
  · cases hRun

end

/-- The only rule for imports of Rust's `use_declaration` takes effect. -/
theorem edgeEmitted_topLevelUse :
    EdgeEmitted sourceText (utf8 "use a;") Specs.rust topLevelUse
      (listing sourceText (utf8 "use a;") Specs.rust topLevelUse)
      ⟨[topLevelUse], useDeclaration 0⟩ (.imports "use_declaration" .fromNodeText) "use a;" := by
  have hOccurs : (occurrences [] topLevelUse)[1]? = some ⟨[topLevelUse], useDeclaration 0⟩ := rfl
  have hRun : visit .dev sourceText (utf8 "use a;") Specs.rust ScopeKey.new [] topLevelUse =
      .ok (ScopeKey.new, listing sourceText (utf8 "use a;") Specs.rust topLevelUse) := rfl
  exact (edgeEmitted_iff_first (by decide) topLevelUse hRun (List.mem_of_getElem? hOccurs)
    (by decide) (by decide) rfl (by decide)).mpr (by decide)

/-- The rules of the registered languages that stand behind another rule of their kind. -/
example : (Specs.registered.flatMap fun entry => entry.2.edgeRules.filter fun rule =>
      entry.2.getEdgeRule rule.sourceKind ≠ some rule) =
    [.decorates "identifier" .fromNodeText, .imports "scoped_identifier" .fromNodeText,
      .uses "generic_type" .fromChildType, .uses "type_identifier" .fromNodeText] := by
  decide

/-! ### An import of a path -/

/-- The path `a::b` of `use a::b;`. -/
def usePathIdentifier : Node :=
  .node ⟨"scoped_identifier", true, ["argument"], 4, 8, 0, 4⟩ [
    .node ⟨"identifier", true, ["path"], 4, 5, 0, 4⟩ [],
    .node ⟨"::", false, [], 5, 7, 0, 5⟩ [],
    .node ⟨"identifier", true, ["name"], 7, 8, 0, 7⟩ []]

def usePathDeclaration : Node :=
  .node ⟨"use_declaration", true, [], 0, 9, 0, 0⟩ [
    .node ⟨"use", false, [], 0, 3, 0, 0⟩ [],
    usePathIdentifier,
    .node ⟨";", false, [], 8, 9, 0, 8⟩ []]

/-- The tree of the Rust source `use a::b;`. -/
def usePath : Node := .node ⟨"source_file", true, [], 0, 9, 0, 0⟩ [usePathDeclaration]

/-- The path of an import has a rule of its own, but the rule for calls stands before it:
the path becomes the target of a call. -/
theorem not_edgeEmitted_usePath :
    edgesOf (listing sourceText (utf8 "use a::b;") Specs.rust usePath) =
        [⟨"", "use a::b;", .imports⟩, ⟨"", "a::b", .calls⟩] ∧
      ¬∀ (profile : Profile) (utf8Text : Utf8Text) (source : List UInt8) (spec : LanguageSpec)
          (root : Node) (scope : ScopeKey) (items : List ExtractedItem)
          (o : Occurrence SyntaxData) (rule : EdgeRule) (target : String),
        spec ∈ Specs.registered.map Prod.snd →
        visit profile utf8Text source spec ScopeKey.new [] root = .ok (scope, items) →
        o ∈ occurrences [] root →
        EdgesAllowed utf8Text source spec o.node →
        rule ∈ spec.edgeRules →
        Node.kind o.node = rule.sourceKind →
        resolveTarget utf8Text source o.node rule.targetPattern = some target →
        EdgeEmitted utf8Text source spec root items o rule target := by
  have hOccurs : (occurrences [] usePath)[3]? =
      some ⟨[usePath, usePathDeclaration], usePathIdentifier⟩ := rfl
  refine ⟨by decide, fun h => ?_⟩
  have hEmitted := h .dev sourceText (utf8 "use a::b;") Specs.rust usePath ScopeKey.new
    (listing sourceText (utf8 "use a::b;") Specs.rust usePath)
    ⟨[usePath, usePathDeclaration], usePathIdentifier⟩
    (.imports "scoped_identifier" .fromNodeText) "a::b" (by decide) rfl
    (List.mem_of_getElem? hOccurs) (by decide) (by decide) rfl (by decide)
  rw [edgeEmitted_listing_iff (List.mem_of_getElem? hOccurs)] at hEmitted
  exact absurd hEmitted (by decide)

end Parser
end CodebaseMem
