import CodebaseMem.Library.SpannedTree
import CodebaseMem.Parser.MethodNames

/-!
# Extracted symbols and the source text

The nodes of a syntax tree take up spans of the source text.  The symbols come out in the
order in which they start, their spans are nested or disjoint, and the qualified name of a
symbol extends that of every container around it.

* `InSource`: what tree-sitter promises about the positions of a tree.
* `span_of_nodeAt`: in a file below 4 GiB a symbol has the span of its syntax node.
  Beyond that the cast of a position to `u32` drops bits.
* `symbols_in_source_order`: the order and the nesting of the symbols.
* `member_extends_container`: the span and the name of a symbol below a container.

The listing decides which nodes become symbols; spans play no part in that.
-/

namespace CodebaseMem
namespace Parser

open CodebaseMem.Core Library RoseTree

/-- What tree-sitter promises about the positions of a tree. -/
abbrev InSource (root : Node) : Prop := Spanned SyntaxData.startByte SyntaxData.endByte root

section

variable {profile : Profile} {utf8Text : Utf8Text} {source : List UInt8} {spec : LanguageSpec}

theorem items_eq_listing {root : Node} {items : List ExtractedItem}
    (hExtract : withSpec profile utf8Text source spec root = .ok items) :
    items = listing utf8Text source spec root := by
  rw [withSpec, visit_eq_ite] at hExtract
  split at hExtract
  · exact (Except.ok.inj hExtract).symm
  · cases hExtract

theorem withSpec_release (root : Node) :
    withSpec .release utf8Text source spec root = .ok (listing utf8Text source spec root) := by
  rw [withSpec, visit_eq_ite, if_pos fun _ _ => .inr (.inl rfl)]
  rfl

/-- In a file below 4 GiB a symbol has the span of its syntax node. -/
theorem span_of_nodeAt {root : Node} (hSource : InSource root)
    (hSize : root.label.endByte < 2 ^ 32) {o : Occurrence SyntaxData}
    (ho : o ∈ occurrences [] root) {symbol : ExtractedNode}
    (h : nodeAt utf8Text source spec o = some symbol) :
    symbol.startByte.toNat = o.node.label.startByte ∧
      symbol.endByte.toNat = o.node.label.endByte := by
  obtain ⟨-, hOrder, hEnd⟩ := hSource.within ho
  have hStart : (UInt32.ofNat o.node.label.startByte).toNat = o.node.label.startByte :=
    toNat_ofNat_u32 (by omega)
  have hStop : (UInt32.ofNat o.node.label.endByte).toNat = o.node.label.endByte :=
    toNat_ofNat_u32 (by omega)
  unfold nodeAt at h
  split at h
  · split at h
    · cases h
    · split at h
      · cases h
      · obtain ⟨name, -, rfl⟩ := Option.map_eq_some_iff.mp h
        exact ⟨hStart, hStop⟩
  · cases h

/-- Of a file below 4 GiB the symbols come out in the order in which they start.  Of two
symbols the later one lies inside the span of the earlier one or behind it. -/
theorem symbols_in_source_order {root : Node} (hSource : InSource root)
    (hSize : root.label.endByte < 2 ^ 32) {items : List ExtractedItem}
    (hExtract : withSpec profile utf8Text source spec root = .ok items) :
    ((nodesOf items).Pairwise fun symbol later => symbol.startByte ≤ later.startByte ∧
      (later.endByte ≤ symbol.endByte ∨ symbol.endByte ≤ later.startByte)) ∧
    ∀ symbol ∈ nodesOf items, root.label.startByte ≤ symbol.startByte.toNat ∧
      symbol.startByte ≤ symbol.endByte ∧ symbol.endByte.toNat ≤ root.label.endByte := by
  rw [items_eq_listing hExtract, nodesOf_listing]
  constructor
  · rw [List.pairwise_filterMap]
    refine List.Pairwise.imp_of_mem ?_ (hSource.pairwise_occurrences [])
    intro o p ho hp hNested symbol hSymbol later hLater
    obtain ⟨hStart, hStop⟩ := span_of_nodeAt hSource hSize ho hSymbol
    obtain ⟨hStart', hStop'⟩ := span_of_nodeAt hSource hSize hp hLater
    simp only [UInt32.le_iff_toNat_le, hStart, hStop, hStart', hStop']
    exact hNested
  · intro symbol hMem
    obtain ⟨o, ho, hSymbol⟩ := List.mem_filterMap.mp hMem
    obtain ⟨hStart, hStop⟩ := span_of_nodeAt hSource hSize ho hSymbol
    rw [UInt32.le_iff_toNat_le, hStart, hStop]
    exact hSource.within ho

/-- Below a container the qualified names start with the name of the container. -/
theorem qualifiedName_append {before between : List Node} {container : Node} {scope : String}
    (hOpens : opensScope spec container = true)
    (hScope : extractIdentifier utf8Text source container = some scope) (name : String) :
    qualifiedName utf8Text source spec (before ++ container :: between) name =
      qualifiedName utf8Text source spec before scope ++ spec.qnSeparator ++
        qualifiedName utf8Text source spec between name := by
  have hNames : scopeNames utf8Text source spec (before ++ container :: between) ++ [name] =
      (scopeNames utf8Text source spec before ++ [scope]) ++
        (scopeNames utf8Text source spec between ++ [name]) := by
    have hNonempty := extractIdentifier_ne_empty _ _ hScope
    simp [scopeNames, List.filter_append, hOpens, scopeName, hScope, hNonempty]
  rw [qualifiedName, hNames, String.intercalate_append_of_ne_nil (by simp) (by simp),
    qualifiedName, qualifiedName]

/-- A symbol below a container that has an identifier lies in its span, and its qualified
name is that of the container, continued behind a separator. -/
theorem member_extends_container {root : Node} (hSource : InSource root)
    (hSize : root.label.endByte < 2 ^ 32) {items : List ExtractedItem}
    (hExtract : withSpec profile utf8Text source spec root = .ok items)
    {o p : Occurrence SyntaxData} (ho : o ∈ occurrences [] root) (hp : p ∈ occurrences [] root)
    {between : List Node} (hBelow : p.ancestors = o.ancestors ++ o.node :: between)
    {container member : ExtractedNode} (hContainer : nodeAt utf8Text source spec o = some container)
    (hMember : nodeAt utf8Text source spec p = some member) (hScope : isScope spec o.node = true)
    (hNamed : (extractIdentifier utf8Text source o.node).isSome = true) :
    container ∈ nodesOf items ∧ member ∈ nodesOf items ∧
      container.startByte ≤ member.startByte ∧ member.endByte ≤ container.endByte ∧
      ∃ rest, member.qualifiedName = container.qualifiedName ++ spec.qnSeparator ++ rest := by
  have hMem : ∀ {q : Occurrence SyntaxData} {symbol : ExtractedNode}, q ∈ occurrences [] root →
      nodeAt utf8Text source spec q = some symbol → symbol ∈ nodesOf items := by
    intro q symbol hq hSymbol
    rw [items_eq_listing hExtract, nodesOf_listing]
    exact List.mem_filterMap.mpr ⟨q, hq, hSymbol⟩
  -- the container is among the ancestors of the member
  obtain ⟨path, hPath, hSpans⟩ := hSource.within_ancestors hp
  obtain ⟨hLeft, hRight⟩ := hSpans o.node (by rw [← List.nil_append path, ← hPath, hBelow]; simp)
  obtain ⟨hStart, hStop⟩ := span_of_nodeAt hSource hSize ho hContainer
  obtain ⟨hStart', hStop'⟩ := span_of_nodeAt hSource hSize hp hMember
  refine ⟨hMem ho hContainer, hMem hp hMember, ?_, ?_, ?_⟩
  · rwa [UInt32.le_iff_toNat_le, hStart, hStart']
  · rwa [UInt32.le_iff_toNat_le, hStop, hStop']
  · obtain ⟨scope, hIdentifier⟩ := Option.isSome_iff_exists.mp hNamed
    obtain ⟨name, hName, hContainerName⟩ := exists_name_of_nodeAt _ _ _ hContainer
    obtain ⟨memberName, -, hMemberName⟩ := exists_name_of_nodeAt _ _ _ hMember
    rw [hIdentifier, Option.some_or, Option.some.injEq] at hName
    have hOpens : opensScope spec o.node = true := by
      have hBecomes := ((nodeAt_isSome_iff utf8Text source spec o).mp (by rw [hContainer]; rfl)).1
      simp only [becomesNode, Bool.and_eq_true] at hBecomes
      rw [opensScope, hBecomes.1.1, hScope, Bool.and_self]
    refine ⟨qualifiedName utf8Text source spec between memberName, ?_⟩
    rw [hMemberName, hBelow, qualifiedName_append hOpens hIdentifier, hContainerName, hName]

end

/-! ### A function in a module -/

def moduleWithFunction : Node :=
  .node ⟨"mod_item", true, [], 0, 19, 0, 0⟩ [
    .node ⟨"mod", false, [], 0, 3, 0, 0⟩ [],
    .node ⟨"identifier", true, ["name"], 4, 5, 0, 4⟩ [],
    implBody 6]

/-- The tree of the Rust source `mod m { fn f() {} }`. -/
def moduleFile : Node := .node ⟨"source_file", true, [], 0, 19, 0, 0⟩ [moduleWithFunction]

def moduleText : List UInt8 := utf8 "mod m \x7b fn f() \x7b\x7d \x7d"

theorem symbols_in_source_order_moduleFile :
    ∃ items, withSpec .release sourceText moduleText Specs.rust moduleFile = .ok items ∧
      (nodesOf items).Pairwise fun symbol later => symbol.startByte ≤ later.startByte ∧
        (later.endByte ≤ symbol.endByte ∨ symbol.endByte ≤ later.startByte) :=
  ⟨_, withSpec_release moduleFile,
    (symbols_in_source_order (by decide) (by decide) (withSpec_release moduleFile)).1⟩

theorem member_extends_container_moduleFile :
    ∃ container member : ExtractedNode, container.qualifiedName = "m" ∧
      member.qualifiedName = "m::f" ∧ container.startByte ≤ member.startByte ∧
      ∃ rest, member.qualifiedName = container.qualifiedName ++ "::" ++ rest := by
  have hOccurs : (occurrences [] moduleFile)[1]? = some ⟨[moduleFile], moduleWithFunction⟩ := rfl
  have hBelow : (occurrences [] moduleFile)[6]? =
      some ⟨[moduleFile, moduleWithFunction, implBody 6], functionItem 8⟩ := rfl
  have hContainer : nodeAt sourceText moduleText Specs.rust ⟨[moduleFile], moduleWithFunction⟩ =
      some ⟨.namespace_, "m", "mod_item", 0, 19, 1, 1⟩ := by decide
  have hMember : nodeAt sourceText moduleText Specs.rust
      ⟨[moduleFile, moduleWithFunction, implBody 6], functionItem 8⟩ =
        some ⟨.function, "m::f", "function_item", 8, 17, 1, 9⟩ := by decide
  obtain ⟨-, -, hStart, -, hRest⟩ := member_extends_container (by decide) (by decide)
    (withSpec_release moduleFile) (List.mem_of_getElem? hOccurs) (List.mem_of_getElem? hBelow) rfl
    hContainer hMember (by decide) (by decide)
  exact ⟨_, _, rfl, rfl, hStart, hRest⟩

end Parser
end CodebaseMem
