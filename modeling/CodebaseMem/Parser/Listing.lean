import CodebaseMem.Parser.Extractor

/-!
# The walk as a listing

The items of a syntax tree are described without a walk: every named node
contributes at most one graph node and at most one edge, in pre-order, and its
qualified name is read off its proper ancestors.  The walk with the scope stack
produces exactly this listing, and leaves the stack as it found it.

* `visit_eq_scopedWalk`: the walk with the mutable stack is a walk of the library, which
  passes its scope down; the pop on the way out takes back the push.
* `nodeAt`, `edgeAt`, `itemsAt`, `listing`: what a node contributes, and a tree.
* `emitAt_eq`: a node of the walk adds its part of the listing, or its position overflows.
* `visit_eq_ite`, `visit_eq_listing`: the walk of a whole tree, with the exact condition
  under which it panics.

In a build without overflow checks nothing panics, and a line number may wrap around.
-/

namespace CodebaseMem
namespace Parser

open CodebaseMem.Core Library RoseTree

section

variable (profile : Profile) (utf8Text : Utf8Text) (source : List UInt8) (spec : LanguageSpec)

/-! ### What the walk does at one node -/

/-- The items a node adds in a scope: at most one graph node and then at most one edge.
-/
def emitItems (scope : ScopeKey) (node : Node) : Exec (List ExtractedItem) :=
  if node.isNamed then do
    let out ← emitNode profile utf8Text source spec scope node []
    .ok (emitEdge utf8Text source spec scope node out)
  else .ok []

/-- The node is a scope anchor that the walk descends through.  A node that is not named
is passed over before its rules are looked up. -/
def opensScope (node : Node) : Bool := node.isNamed && isScope spec node

/-- The scope that the children of a node are visited in. -/
def enterScope (scope : ScopeKey) (node : Node) : ScopeKey :=
  if opensScope spec node then
    scope.push ⟨node.kind, scopeName utf8Text source node⟩
  else scope

theorem emitNode_append (scope : ScopeKey) (node : Node) (out : List ExtractedItem) :
    emitNode profile utf8Text source spec scope node out = (do
      let items ← emitNode profile utf8Text source spec scope node []
      .ok (out ++ items)) := by
  unfold emitNode
  split
  · simp
  · split
    · split
      · simp
      · cases addU32 profile (UInt32.ofNat node.label.row) 1 with
        | error fault => rfl
        | ok line =>
            cases addU32 profile (UInt32.ofNat node.label.column) 1 with
            | error fault => rfl
            | ok column => simp
    · simp

theorem emitEdge_append (scope : ScopeKey) (node : Node) (out : List ExtractedItem) :
    emitEdge utf8Text source spec scope node out =
      out ++ emitEdge utf8Text source spec scope node [] := by
  unfold emitEdge
  split
  · split
    · simp
    · split <;> simp
  · simp

/-- The pop on the way out takes back what the way in pushed. -/
theorem leaveScope_enterScope (scope : ScopeKey) (node : Node) (hNamed : node.isNamed = true) :
    (if isScope spec node then (enterScope utf8Text source spec scope node).pop
      else enterScope utf8Text source spec scope node) = scope := by
  rw [enterScope, opensScope, hNamed, Bool.true_and]
  split
  · rw [ScopeKey.pop_push]
  · rfl

/-! ### The mutable walk -/

/-- The visit of a node appends what a scoped walk emits and gives the scope
stack back unchanged. -/
theorem visit_eq_scopedWalk (node : Node) (scope : ScopeKey) (out : List ExtractedItem) :
    visit profile utf8Text source spec scope out node = (do
      let items ← scopedWalk (emitItems profile utf8Text source spec)
        (enterScope utf8Text source spec) scope node
      .ok (scope, out ++ items)) := by
  induction node using RoseTree.induction_on generalizing scope out with
  | hNode data children ih =>
      -- the children share one scope: each visit returns it as it was
      have hChildren : ∀ (scope : ScopeKey) (rest : List Node) (out : List ExtractedItem),
          (∀ child ∈ rest, child ∈ children) →
          visitChildren profile utf8Text source spec scope out rest = (do
            let items ← scopedWalkAll (emitItems profile utf8Text source spec)
              (enterScope utf8Text source spec) scope rest
            .ok (scope, out ++ items)) := by
        intro scope rest
        induction rest with
        | nil =>
            intro out _
            simp [visitChildren, scopedWalkAll]
        | cons child rest ihRest =>
            intro out hMem
            rw [visitChildren, ih child (hMem child List.mem_cons_self), scopedWalkAll]
            cases scopedWalk (emitItems profile utf8Text source spec)
                (enterScope utf8Text source spec) scope child with
            | error fault => rfl
            | ok head =>
                simp only [Exec.ok_bind]
                rw [ihRest _ fun c hc => hMem c (List.mem_cons_of_mem _ hc)]
                cases scopedWalkAll (emitItems profile utf8Text source spec)
                    (enterScope utf8Text source spec) scope rest with
                | error fault => rfl
                | ok tail => simp
      rw [visit, scopedWalk]
      dsimp only
      by_cases hNamed : Node.isNamed (.node data children) = true
      -- a named node: its own items, the items below it, and then the pop
      · have hEnter : (if isScope spec (.node data children) then
              scope.push ⟨Node.kind (.node data children),
                scopeName utf8Text source (.node data children)⟩
            else scope) = enterScope utf8Text source spec scope (.node data children) := by
          rw [enterScope, opensScope, hNamed, Bool.true_and]
        rw [hEnter, hNamed, emitNode_append, emitItems, if_pos hNamed]
        simp only [Bool.not_true, Bool.false_eq_true, if_false]
        cases emitNode profile utf8Text source spec scope (.node data children) [] with
        | error fault => rfl
        | ok items =>
            simp only [Exec.ok_bind]
            rw [emitEdge_append, emitEdge_append _ _ _ _ _ items,
              hChildren _ children _ fun _ h => h]
            cases scopedWalkAll (emitItems profile utf8Text source spec)
                (enterScope utf8Text source spec)
                (enterScope utf8Text source spec scope (.node data children)) children with
            | error fault => rfl
            | ok tail =>
                simp only [Exec.ok_bind, List.append_assoc]
                rw [leaveScope_enterScope _ _ _ _ _ hNamed]
      -- an unnamed node adds nothing and opens no scope
      · have hEnter : enterScope utf8Text source spec scope (.node data children) = scope := by
          rw [enterScope, if_neg (by simp [opensScope, hNamed])]
        rw [emitItems, if_neg hNamed, if_pos (by simpa using hNamed), hEnter,
          hChildren _ children _ fun _ h => h]
        cases scopedWalkAll (emitItems profile utf8Text source spec)
            (enterScope utf8Text source spec) scope children with
        | error fault => rfl
        | ok tail => rfl

/-! ### The listing -/

/-- The names of the scopes around a node, outermost first.  Anonymous scopes do
not count. -/
def scopeNames (ancestors : List Node) : List String :=
  ((ancestors.filter (opensScope spec)).map (scopeName utf8Text source)).filter
    fun name => !name.isEmpty

/-- A name qualified by the scopes around it. -/
def qualifiedName (ancestors : List Node) (name : String) : String :=
  spec.qnSeparator.intercalate (scopeNames utf8Text source spec ancestors ++ [name])

/-- The graph node that a syntax node stands for. -/
def nodeAt (o : Occurrence SyntaxData) : Option ExtractedNode :=
  if Node.isNamed o.node && !suppress utf8Text source o.node then
    match spec.getNodeRule (Node.kind o.node) with
    | none => none
    | some rule =>
        if rule.skipNode then none
        else
          ((extractIdentifier utf8Text source o.node).or (ownText utf8Text source o.node)).map
            fun name => {
              label := rule.label
              qualifiedName := qualifiedName utf8Text source spec o.ancestors name
              tsKind := Node.kind o.node
              startByte := UInt32.ofNat o.node.label.startByte
              endByte := UInt32.ofNat o.node.label.endByte
              line := UInt32.ofNat o.node.label.row + 1
              column := UInt32.ofNat o.node.label.column + 1 }
  else none

/-- The type and the target of the edge that a syntax node gives rise to. -/
def edgeSite (node : Node) : Option (EdgeType × String) :=
  if node.isNamed && !suppress utf8Text source node &&
      (spec.getNodeRule node.kind).all fun rule => !rule.skipEdges then
    (spec.getEdgeRule node.kind).bind fun rule =>
      (resolveTarget utf8Text source node rule.targetPattern).map fun target =>
        (rule.edgeType, target)
  else none

/-- The edge that a syntax node gives rise to.  Its source is the empty name,
qualified by the scopes around the node. -/
def edgeAt (o : Occurrence SyntaxData) : Option ExtractedEdge :=
  (edgeSite utf8Text source spec o.node).map fun site => {
    sourceQualified := qualifiedName utf8Text source spec o.ancestors ""
    targetQualified := site.2
    edgeType := site.1 }

def itemsAt (o : Occurrence SyntaxData) : List ExtractedItem :=
  (nodeAt utf8Text source spec o).toList.map .node ++
    (edgeAt utf8Text source spec o).toList.map .edge

/-- All items of a tree, in pre-order. -/
def listing (root : Node) : List ExtractedItem :=
  (occurrences [] root).flatMap (itemsAt utf8Text source spec)

/-- The line and the column of a node, counted from 1, fit `u32`. Positions of
tree-sitter are counted from 0, and the source adds 1 to each. -/
def LineAndColumnFit (o : Occurrence SyntaxData) : Prop :=
  (UInt32.ofNat o.node.label.row).toNat + 1 < 2 ^ 32 ∧
    (UInt32.ofNat o.node.label.column).toNat + 1 < 2 ^ 32

instance : DecidablePred LineAndColumnFit := fun _ => inferInstanceAs (Decidable (_ ∧ _))

/-- The position of the node is not emitted, or fits, or wraps around without a
panic. -/
def PositionFits (o : Occurrence SyntaxData) : Prop :=
  nodeAt utf8Text source spec o = none ∨ profile = .release ∨ LineAndColumnFit o

instance : DecidablePred (PositionFits profile utf8Text source spec) := fun _ =>
  inferInstanceAs (Decidable (_ ∨ _ ∨ _))

/-! ### The two readings agree -/

theorem qualify_eq_intercalate (key : ScopeKey) (name separator : String) :
    key.qualify name separator =
      separator.intercalate
        ((key.segments.map ScopeSegment.name).filter (fun s => !s.isEmpty) ++ [name]) := by
  rw [ScopeKey.qualify, List.filter_map]
  dsimp only [Function.comp_def]
  -- `qualify` tells the case apart in which no segment has a name
  cases hNames : key.segments.filter fun s => !s.name.isEmpty with
  | nil => simp
  | cons segment rest =>
      rw [String.intercalate_append_of_ne_nil (by simp) (by simp), String.intercalate_singleton]
      simp

/-- The scope stack below some ancestors holds a segment for each of them that
opens a scope. -/
theorem segments_foldl_enterScope (ancestors : List Node) (scope : ScopeKey) :
    (ancestors.foldl (enterScope utf8Text source spec) scope).segments =
      scope.segments ++ (ancestors.filter (opensScope spec)).map fun node =>
        ⟨node.kind, scopeName utf8Text source node⟩ := by
  induction ancestors generalizing scope with
  | nil => simp
  | cons node rest ih =>
      rw [List.foldl_cons, ih, enterScope, List.filter_cons]
      split
      · simp [ScopeKey.push]
      · simp

/-- The scope stack qualifies a name by the scopes around the node.  With this the stack,
which the walk changes as it goes, is out of every later statement. -/
theorem qualify_foldl_enterScope (ancestors : List Node) (name : String) :
    (ancestors.foldl (enterScope utf8Text source spec) ScopeKey.new).qualify name
        spec.qnSeparator =
      qualifiedName utf8Text source spec ancestors name := by
  rw [qualify_eq_intercalate, segments_foldl_enterScope, qualifiedName, scopeNames]
  simp [ScopeKey.new, Function.comp_def]

theorem countPosition_eq_ite {β : Type} (o : Occurrence SyntaxData)
    (f : UInt32 → UInt32 → β) :
    (do
      let line ← addU32 profile (UInt32.ofNat o.node.label.row) 1
      let column ← addU32 profile (UInt32.ofNat o.node.label.column) 1
      .ok (f line column)) =
      if profile = .release ∨ LineAndColumnFit o then
        .ok (f (UInt32.ofNat o.node.label.row + 1) (UInt32.ofNat o.node.label.column + 1))
      else (.error .panic : Exec β) := by
  have hOne : (1 : UInt32).toNat = 1 := rfl
  simp only [addU32_eq_ite, hOne, LineAndColumnFit]
  by_cases hRelease : profile = .release
  · simp only [hRelease, true_or, if_true, Exec.ok_bind]
  · by_cases hRow : (UInt32.ofNat o.node.label.row).toNat + 1 < 2 ^ 32
    · by_cases hColumn : (UInt32.ofNat o.node.label.column).toNat + 1 < 2 ^ 32
      · simp only [hRow, hColumn, and_self, or_true, if_true, Exec.ok_bind]
      · simp only [hRelease, hRow, hColumn, and_false, or_false, or_true, if_true, if_false,
          Exec.ok_bind, Exec.error_bind]
    · simp only [hRelease, hRow, false_and, or_false, if_false, Exec.error_bind]

/-- A named node adds its graph node, unless its position overflows. -/
theorem emitNode_nil_eq (o : Occurrence SyntaxData) (hNamed : Node.isNamed o.node = true) :
    emitNode profile utf8Text source spec
        (o.ancestors.foldl (enterScope utf8Text source spec) ScopeKey.new) o.node [] =
      match nodeAt utf8Text source spec o with
      | none => .ok []
      | some item =>
          if profile = .release ∨ LineAndColumnFit o then .ok [.node item]
          else .error .panic := by
  unfold emitNode nodeAt
  simp only [hNamed, Bool.true_and]
  cases spec.getNodeRule (Node.kind o.node) with
  | none => simp
  | some rule =>
      by_cases hEmit : suppress utf8Text source o.node = true
      · simp [hEmit]
      · cases hSkip : rule.skipNode with
        | true => simp [hEmit, hSkip]
        | false =>
            cases (extractIdentifier utf8Text source o.node).or
                (ownText utf8Text source o.node) with
            | none => simp [hEmit, hSkip]
            | some name =>
                simp only [hEmit, hSkip, Bool.not_false, Bool.and_self, if_true,
                  if_neg Bool.false_ne_true, countPosition_eq_ite, qualify_foldl_enterScope]
                rfl

theorem emitEdge_nil_eq (o : Occurrence SyntaxData) (hNamed : Node.isNamed o.node = true) :
    emitEdge utf8Text source spec
        (o.ancestors.foldl (enterScope utf8Text source spec) ScopeKey.new) o.node [] =
      (edgeAt utf8Text source spec o).toList.map .edge := by
  unfold emitEdge edgeAt edgeSite
  rw [hNamed, Bool.true_and]
  split
  · cases spec.getEdgeRule (Node.kind o.node) with
    | none => rfl
    | some rule =>
        cases hTarget : resolveTarget utf8Text source o.node rule.targetPattern with
        | none => simp [hTarget]
        | some target => simp [hTarget, qualify_foldl_enterScope]
  · rfl

/-- A node adds its items of the listing, unless its position overflows. -/
theorem emitAt_eq (o : Occurrence SyntaxData) :
    emitAt (emitItems profile utf8Text source spec) (enterScope utf8Text source spec)
        ScopeKey.new o =
      if PositionFits profile utf8Text source spec o then
        .ok (itemsAt utf8Text source spec o)
      else .error .panic := by
  rw [emitAt, emitItems]
  by_cases hNamed : Node.isNamed o.node = true
  · rw [if_pos hNamed, emitNode_nil_eq _ _ _ _ _ hNamed]
    cases hNode : nodeAt utf8Text source spec o with
    | none =>
        rw [if_pos (.inl hNode), itemsAt, hNode]
        simp [emitEdge_nil_eq _ _ _ _ hNamed]
    | some item =>
        dsimp only
        -- only the position of a graph node can overflow, so an edge never panics
        by_cases hFits : profile = .release ∨ LineAndColumnFit o
        · have hPosition : PositionFits profile utf8Text source spec o := .inr hFits
          rw [if_pos hPosition, if_pos hFits, itemsAt, hNode, Exec.ok_bind, emitEdge_append,
            emitEdge_nil_eq _ _ _ _ hNamed]
          rfl
        · have hNot : ¬PositionFits profile utf8Text source spec o := by
            simp [PositionFits, hNode, hFits]
          rw [if_neg hNot, if_neg hFits]
          rfl
  · have hNode : nodeAt utf8Text source spec o = none := by simp [nodeAt, hNamed]
    have hEdge : edgeAt utf8Text source spec o = none := by simp [edgeAt, edgeSite, hNamed]
    rw [if_neg hNamed, if_pos (.inl hNode), itemsAt, hNode, hEdge]
    rfl

/-- The walk of a whole tree: it returns the listing and an empty stack, unless
some position overflows. -/
theorem visit_eq_ite (root : Node) :
    visit profile utf8Text source spec ScopeKey.new [] root =
      if ∀ o ∈ occurrences [] root, PositionFits profile utf8Text source spec o then
        .ok (ScopeKey.new, listing utf8Text source spec root)
      else .error .panic := by
  rw [visit_eq_scopedWalk, scopedWalk_eq_emitAll,
    emitAll_eq_ite fun o _ => emitAt_eq profile utf8Text source spec o]
  split
  · rw [Exec.ok_bind, List.nil_append, listing]
  · rfl

/-- A visit that returns gives back the scope stack it was given, for any stack and not
only for the empty one. -/
theorem visit_restores_scope (node : Node) {scope scope' : ScopeKey}
    {out out' : List ExtractedItem}
    (hVisit : visit profile utf8Text source spec scope out node = .ok (scope', out')) :
    scope' = scope := by
  rw [visit_eq_scopedWalk] at hVisit
  obtain ⟨items, -, hEnd⟩ := Exec.of_bind_eq_ok hVisit
  simp only [Except.ok.injEq, Prod.mk.injEq] at hEnd
  exact hEnd.1.symm

/-- The walk of a tree from an empty stack produces the listing of the tree, and
every visit on the way, in whatever scope, leaves the stack as it found it.  The
walk stops early only where a line or a column overflows in a build that traps
overflow.  The text of a node is a parameter that always has a value, so a tree that does
not fit the source, on which tree-sitter itself panics, is not meant. -/
theorem visit_eq_listing (root : Node) :
    (visit profile utf8Text source spec ScopeKey.new [] root =
      if ∀ o ∈ occurrences [] root, PositionFits profile utf8Text source spec o then
        .ok (ScopeKey.new, listing utf8Text source spec root)
      else .error .panic) ∧
    ∀ (node : Node) (scope scope' : ScopeKey) (out out' : List ExtractedItem),
      visit profile utf8Text source spec scope out node = .ok (scope', out') →
        scope' = scope :=
  ⟨visit_eq_ite profile utf8Text source spec root, fun node _ _ _ _ hVisit =>
    visit_restores_scope profile utf8Text source spec node hVisit⟩

end

end Parser
end CodebaseMem
