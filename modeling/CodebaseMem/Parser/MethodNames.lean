import CodebaseMem.Parser.NodeNames

/-!
# The qualified names of methods

A method should be qualified by the type it belongs to.  In Rust the scope of an
`impl` block goes by its first child that is a plain type name.  That is the trait
where a plain trait is implemented, and nothing where neither the trait nor the type
is plain.  In Go the receiver of a method does not enter its name.

* `ImplBlock`, `ImplMethod`, `GoMethod`: the shapes that the two grammars give to a
  block, to a function directly in it and to a method.
* `scopeToken`: the child of a block that its scope goes by.
* `qualified_ne_iff_scopeTokenText_ne`: functions of one name in two blocks get
  different names exactly when the texts of the scope tokens differ, and methods of Go
  with one name never do.

A function deeper in a body, below a scope that opens there, is not an `ImplMethod`: its
name has the names of these scopes in it as well.
-/

namespace CodebaseMem
namespace Parser

open CodebaseMem.Core Library RoseTree

section

variable (utf8Text : Utf8Text) (source : List UInt8)

/-! ### Joined names -/

theorem scopeNames_append (spec : LanguageSpec) (outer inner : List Node) :
    scopeNames utf8Text source spec (outer ++ inner) =
      scopeNames utf8Text source spec outer ++ scopeNames utf8Text source spec inner := by
  rw [scopeNames, List.filter_append, List.map_append, List.filter_append]
  rfl

theorem intercalate_concat (separator : String) (path : List String) (name : String) :
    separator.intercalate (path ++ [name]) = separator.intercalate (path ++ [""]) ++ name := by
  by_cases hPath : path = []
  · simp [hPath]
  · rw [String.intercalate_append_of_ne_nil hPath (by simp),
      String.intercalate_append_of_ne_nil hPath (by simp), String.intercalate_singleton,
      String.intercalate_singleton, String.append_empty]

/-- Below a common prefix, one name qualified by two paths is the same exactly when
the paths are written in the same way. -/
theorem intercalate_path_inj (separator : String) (outer path path' : List String)
    (name : String) :
    separator.intercalate (outer ++ (path ++ [name])) =
        separator.intercalate (outer ++ (path' ++ [name])) ↔
      separator.intercalate (path ++ [""]) = separator.intercalate (path' ++ [""]) := by
  have hCancel : separator.intercalate (path ++ [name]) =
        separator.intercalate (path' ++ [name]) ↔
      separator.intercalate (path ++ [""]) = separator.intercalate (path' ++ [""]) := by
    rw [intercalate_concat separator path, intercalate_concat separator path',
      String.append_left_inj]
  by_cases hOuter : outer = []
  · rw [hOuter, List.nil_append, List.nil_append, hCancel]
  · rw [String.intercalate_append_of_ne_nil hOuter (by simp),
      String.intercalate_append_of_ne_nil hOuter (by simp), String.append_right_inj, hCancel]

/-- A token before a name is written with the separator behind it, or not at all when it
is empty, and so it can be read off. -/
theorem intercalate_token_inj {separator token token' : String} :
    separator.intercalate ([token].filter (fun name => !name.isEmpty) ++ [""]) =
        separator.intercalate ([token'].filter (fun name => !name.isEmpty) ++ [""]) ↔
      token = token' := by
  have hWritten : ∀ token : String,
      separator.intercalate ([token].filter (fun name => !name.isEmpty) ++ [""]) =
        if token = "" then "" else token ++ separator := by
    intro token
    by_cases hEmpty : token = ""
    · rw [if_pos hEmpty, hEmpty]
      rfl
    · rw [if_neg hEmpty, List.filter_cons_of_pos (by simpa using hEmpty), List.filter_nil,
        String.intercalate_append_of_ne_nil (by simp) (by simp)]
      simp
  rw [hWritten, hWritten]
  split_ifs with h h' h'
  · simp [h, h']
  · simp [h, h', Ne.symm h']
  · simp [h, h']
  · exact String.append_left_inj _

/-! ### Blocks of Rust -/

/-- The shape that the Rust grammar gives to an `impl` block: no child stands in a field
that may hold a name, the optional trait precedes the type, and no other child is a
plain type name. -/
structure ImplBlock (impl : Node) (traitNode : Option Node) (typeNode : Node) : Prop where
  kind : impl.kind = "impl_item"
  isNamed : impl.isNamed = true
  noNameField : ∀ field ∈ ["identifier", "name", "type_identifier", "field"],
    impl.childByFieldName field = none
  traitField : ∀ node ∈ traitNode, "trait" ∈ node.label.fields
  typeField : impl.childByFieldName "type" = some typeNode
  children : ∃ before middle rest,
    impl.children = before ++ traitNode.toList ++ middle ++ typeNode :: rest ∧
      ∀ child ∈ before ++ middle ++ rest, Node.kind child ≠ "type_identifier"

/-- The trait if it is a plain name, or else the type if it is one. -/
def scopeToken (traitNode : Option Node) (typeNode : Node) : Option Node :=
  (traitNode.toList ++ [typeNode]).find? fun node : Node => node.kind = "type_identifier"

def scopeTokenText (traitNode : Option Node) (typeNode : Node) : String :=
  ((scopeToken traitNode typeNode).bind (trimmedText utf8Text source)).getD ""

theorem find?_append_of_forall_not {α : Type} {p : α → Bool} {before : List α}
    (h : ∀ a ∈ before, p a = false) (l : List α) : (before ++ l).find? p = l.find? p := by
  rw [List.find?_append, List.find?_eq_none.mpr fun a ha => by simp [h a ha], Option.none_or]

theorem ImplBlock.find?_children {impl : Node} {traitNode : Option Node} {typeNode : Node}
    (h : ImplBlock impl traitNode typeNode) :
    (impl.children.find? fun child : Node => child.kind = "type_identifier") =
      scopeToken traitNode typeNode := by
  obtain ⟨before, middle, rest, hChildren, hOther⟩ := h.children
  have hNot : ∀ l : List Node, l ⊆ before ++ middle ++ rest →
      ∀ child ∈ l, decide (Node.kind child = "type_identifier") = false :=
    fun l hSub child hChild => decide_eq_false (hOther child (hSub hChild))
  have hBefore := hNot before (by simp)
  have hMiddle := hNot middle (by intro a ha; simp [ha])
  have hRest := hNot rest (by simp)
  have hTail : ((typeNode :: rest).find? fun child : Node => child.kind = "type_identifier") =
      [typeNode].find? fun child : Node => child.kind = "type_identifier" := by
    rw [List.find?_cons, List.find?_cons, List.find?_nil,
      List.find?_eq_none.mpr fun a ha => by simp [hRest a ha]]
  rw [hChildren, List.append_assoc, List.append_assoc, find?_append_of_forall_not hBefore,
    List.find?_append, find?_append_of_forall_not hMiddle, hTail, scopeToken, List.find?_append]

theorem ImplBlock.scopeName_eq {impl : Node} {traitNode : Option Node} {typeNode : Node}
    (h : ImplBlock impl traitNode typeNode) :
    scopeName utf8Text source impl = scopeTokenText utf8Text source traitNode typeNode := by
  rw [scopeName, extractIdentifier, searchFields_eq_none _ _ h.noNameField]
  dsimp only
  rw [if_pos h.kind, h.find?_children, scopeTokenText]

theorem ImplBlock.opensScope {impl : Node} {traitNode : Option Node} {typeNode : Node}
    (h : ImplBlock impl traitNode typeNode) : opensScope Specs.rust impl = true := by
  have hScope : (Specs.rust.getScopeAnchor "impl_item").isSome = true ∧
      ("impl_item" != Specs.rust.rootKind) = true := by decide
  rw [Parser.opensScope, h.isNamed, isScope, h.kind, hScope.1, hScope.2]
  rfl

/-- Below a block the path starts with the text of its scope token, unless that is
empty. -/
theorem ImplBlock.scopeNames_cons {impl : Node} {traitNode : Option Node} {typeNode : Node}
    (h : ImplBlock impl traitNode typeNode) (inner : List Node) :
    scopeNames utf8Text source Specs.rust (impl :: inner) =
      [scopeTokenText utf8Text source traitNode typeNode].filter (fun name => !name.isEmpty) ++
        scopeNames utf8Text source Specs.rust inner := by
  rw [← List.singleton_append, scopeNames_append]
  congr 1
  rw [scopeNames, List.filter_cons, if_pos h.opensScope, List.filter_nil, List.map_singleton,
    h.scopeName_eq]

/-! ### Methods -/

/-- A graph node with an identifier is emitted under the identifier, qualified. -/
theorem eq_qualifiedName_of_emitted {spec : LanguageSpec} {o : Occurrence SyntaxData}
    {name qualified : String} (hIdentifier : extractIdentifier utf8Text source o.node = some name)
    (hEmitted : (nodeAt utf8Text source spec o).map ExtractedNode.qualifiedName =
      some qualified) :
    qualified = qualifiedName utf8Text source spec o.ancestors name := by
  obtain ⟨item, hItem, rfl⟩ := Option.map_eq_some_iff.mp hEmitted
  obtain ⟨own, hOwn, hQualified⟩ := exists_name_of_nodeAt _ _ _ hItem
  rw [hIdentifier, Option.some_or] at hOwn
  rw [hQualified, Option.some.inj hOwn]

/-- A function directly in the body of an `impl` block, and the qualified name it is
emitted under.  `outer` are the ancestors of the block and `inner` the nodes between the
block and the function: the body, and none that opens a scope. -/
structure ImplMethod (root : Node) where
  outer : List Node
  impl : Node
  traitNode : Option Node
  typeNode : Node
  inner : List Node
  function : Node
  name : String
  qualified : String
  occurs : ⟨outer ++ impl :: inner, function⟩ ∈ occurrences [] root
  block : ImplBlock impl traitNode typeNode
  body : inner.head? = impl.childByFieldName "body"
  direct : ∀ node ∈ inner, opensScope Specs.rust node = false
  kind : function.kind = "function_item"
  identifier : extractIdentifier utf8Text source function = some name
  emitted : (nodeAt utf8Text source Specs.rust ⟨outer ++ impl :: inner, function⟩).map
    ExtractedNode.qualifiedName = some qualified

/-- A method of Go with a receiver type, and the qualified name it is emitted under.  The
grammar puts every method at the top level of the file, where no scope is open. -/
structure GoMethod (root : Node) where
  ancestors : List Node
  method : Node
  receiver : Node
  receiverType : Node
  name : String
  qualified : String
  occurs : ⟨ancestors, method⟩ ∈ occurrences [] root
  kind : method.kind = "method_declaration"
  topLevel : ∀ node ∈ ancestors, opensScope Specs.go node = false
  receiverField : method.childByFieldName "receiver" = some receiver
  typeInReceiver : ∃ o ∈ occurrences [] receiver, o.node = receiverType
  typeField : "type" ∈ receiverType.label.fields
  identifier : extractIdentifier utf8Text source method = some name
  emitted : (nodeAt utf8Text source Specs.go ⟨ancestors, method⟩).map
    ExtractedNode.qualifiedName = some qualified

variable {utf8Text source} {root : Node}

theorem scopeNames_eq_nil {spec : LanguageSpec} {nodes : List Node}
    (h : ∀ node ∈ nodes, opensScope spec node = false) :
    scopeNames utf8Text source spec nodes = [] := by
  have hNone : nodes.filter (opensScope spec) = [] :=
    List.filter_eq_nil_iff.mpr fun node hNode => by simp [h node hNode]
  rw [scopeNames, hNone]
  rfl

namespace ImplMethod

/-- The name of a function: the scopes around the block, the scope token of the block
unless that is empty, and the function's own name. -/
theorem qualified_eq (m : ImplMethod utf8Text source root) :
    m.qualified = Specs.rust.qnSeparator.intercalate
      (scopeNames utf8Text source Specs.rust m.outer ++
        ([scopeTokenText utf8Text source m.traitNode m.typeNode].filter
            (fun name => !name.isEmpty) ++
          [m.name])) := by
  have hScopes : scopeNames utf8Text source Specs.rust (m.outer ++ m.impl :: m.inner) =
      scopeNames utf8Text source Specs.rust m.outer ++
        [scopeTokenText utf8Text source m.traitNode m.typeNode].filter
          fun name => !name.isEmpty := by
    rw [scopeNames_append, m.block.scopeNames_cons, scopeNames_eq_nil m.direct, List.append_nil]
  calc m.qualified
    _ = qualifiedName utf8Text source Specs.rust (m.outer ++ m.impl :: m.inner) m.name :=
      eq_qualifiedName_of_emitted utf8Text source m.identifier m.emitted
    _ = _ := by rw [qualifiedName, hScopes, List.append_assoc]

/-- In the same enclosing scope, functions of one name are emitted under different
names exactly when the scope tokens of their blocks differ. -/
theorem qualified_ne_iff (m m' : ImplMethod utf8Text source root)
    (hScope : scopeNames utf8Text source Specs.rust m.outer =
      scopeNames utf8Text source Specs.rust m'.outer) (hName : m.name = m'.name) :
    m.qualified ≠ m'.qualified ↔
      scopeTokenText utf8Text source m.traitNode m.typeNode ≠
        scopeTokenText utf8Text source m'.traitNode m'.typeNode := by
  rw [qualified_eq, qualified_eq, hScope, hName, ne_eq, ne_eq, intercalate_path_inj,
    intercalate_token_inj]

end ImplMethod

theorem GoMethod.qualified_eq_name (g : GoMethod utf8Text source root) : g.qualified = g.name := by
  calc g.qualified
    _ = Specs.go.qnSeparator.intercalate
          (scopeNames utf8Text source Specs.go g.ancestors ++ [g.name]) :=
      eq_qualifiedName_of_emitted utf8Text source g.identifier g.emitted
    _ = g.name := by
      rw [scopeNames_eq_nil g.topLevel, List.nil_append, String.intercalate_singleton]

/-- Functions of one name, directly in two blocks in the same enclosing scope, are told
apart exactly when the scope tokens of the blocks differ.  Methods of Go with one name
are never told apart, whatever their receivers are. -/
theorem qualified_ne_iff_scopeTokenText_ne (utf8Text : Utf8Text) (source : List UInt8)
    (root : Node) :
    (∀ m m' : ImplMethod utf8Text source root,
      scopeNames utf8Text source Specs.rust m.outer =
        scopeNames utf8Text source Specs.rust m'.outer → m.name = m'.name →
      (m.qualified ≠ m'.qualified ↔
        scopeTokenText utf8Text source m.traitNode m.typeNode ≠
          scopeTokenText utf8Text source m'.traitNode m'.typeNode)) ∧
    ∀ g g' : GoMethod utf8Text source root, g.name = g'.name → g.qualified = g'.qualified := by
  refine ⟨fun m m' hScope hName => m.qualified_ne_iff m' hScope hName, fun g g' hName => ?_⟩
  calc g.qualified = g.name := g.qualified_eq_name
    _ = g'.name := hName
    _ = g'.qualified := g'.qualified_eq_name.symm

end

/-! ### Three programs -/

/-- The function `fn f() {}` at a byte of the first row. -/
def functionItem (start : Nat) : Node :=
  .node ⟨"function_item", true, [], start, start + 9, 0, start⟩ [
    .node ⟨"fn", false, [], start, start + 2, 0, start⟩ [],
    .node ⟨"identifier", true, ["name"], start + 3, start + 4, 0, start + 3⟩ [],
    .node ⟨"parameters", true, ["parameters"], start + 4, start + 6, 0, start + 4⟩ [],
    .node ⟨"block", true, ["body"], start + 7, start + 9, 0, start + 7⟩ []]

def implBody (start : Nat) : Node :=
  .node ⟨"declaration_list", true, ["body"], start, start + 13, 0, start⟩ [
    .node ⟨"\x7b", false, [], start, start + 1, 0, start⟩ [],
    functionItem (start + 2),
    .node ⟨"\x7d", false, [], start + 12, start + 13, 0, start + 12⟩ []]

theorem implBody_opensScope (start : Nat) : opensScope Specs.rust (implBody start) = false := by
  have hKind : (Specs.rust.getScopeAnchor "declaration_list").isSome = false := by decide
  rw [opensScope, isScope, show Node.kind (implBody start) = "declaration_list" from rfl, hKind]
  rfl

/-- A type name of one byte in a field. -/
def typeIdentifier (field : String) (start : Nat) : Node :=
  .node ⟨"type_identifier", true, [field], start, start + 1, 0, start⟩ []

/-- The block `impl A { fn f() {} }`, with another type in the place of `A`. -/
def inherentBlock (start : Nat) : Node :=
  .node ⟨"impl_item", true, [], start, start + 20, 0, start⟩ [
    .node ⟨"impl", false, [], start, start + 4, 0, start⟩ [],
    typeIdentifier "type" (start + 5),
    implBody (start + 7)]

theorem implBlock_inherentBlock (start : Nat) :
    ImplBlock (inherentBlock start) none (typeIdentifier "type" (start + 5)) where
  kind := rfl
  isNamed := rfl
  noNameField := by
    simp [inherentBlock, Node.childByFieldName, typeIdentifier, implBody]
  traitField := by simp
  typeField := by
    simp [inherentBlock, Node.childByFieldName, typeIdentifier]
  children := by
    refine ⟨[.node ⟨"impl", false, [], start, start + 4, 0, start⟩ []], [],
      [implBody (start + 7)], rfl, ?_⟩
    simp [Node.kind, implBody]

/-- The block `impl T for A { fn f() {} }`, with another type in the place of `A`. -/
def traitBlock (start : Nat) : Node :=
  .node ⟨"impl_item", true, [], start, start + 26, 0, start⟩ [
    .node ⟨"impl", false, [], start, start + 4, 0, start⟩ [],
    typeIdentifier "trait" (start + 5),
    .node ⟨"for", false, [], start + 7, start + 10, 0, start + 7⟩ [],
    typeIdentifier "type" (start + 11),
    implBody (start + 13)]

theorem implBlock_traitBlock (start : Nat) :
    ImplBlock (traitBlock start) (some (typeIdentifier "trait" (start + 5)))
      (typeIdentifier "type" (start + 11)) where
  kind := rfl
  isNamed := rfl
  noNameField := by
    simp [traitBlock, Node.childByFieldName, typeIdentifier, implBody]
  traitField := by simp [typeIdentifier]
  typeField := by
    simp [traitBlock, Node.childByFieldName, typeIdentifier]
  children := by
    refine ⟨[.node ⟨"impl", false, [], start, start + 4, 0, start⟩ []],
      [.node ⟨"for", false, [], start + 7, start + 10, 0, start + 7⟩ []],
      [implBody (start + 13)], rfl, ?_⟩
    simp [Node.kind, implBody]

/-- The function in the body of a block of the file. -/
def methodInBody {source : List UInt8} {root impl typeNode : Node} {traitNode : Option Node}
    (start : Nat) (qualified : String) (block : ImplBlock impl traitNode typeNode)
    (body : impl.childByFieldName "body" = some (implBody start))
    (occurs : ⟨[root, impl, implBody start], functionItem (start + 2)⟩ ∈ occurrences [] root)
    (identifier : extractIdentifier sourceText source (functionItem (start + 2)) = some "f")
    (emitted : (nodeAt sourceText source Specs.rust
      ⟨[root, impl, implBody start], functionItem (start + 2)⟩).map
        ExtractedNode.qualifiedName = some qualified) :
    ImplMethod sourceText source root where
  outer := [root]
  impl := impl
  traitNode := traitNode
  typeNode := typeNode
  inner := [implBody start]
  function := functionItem (start + 2)
  name := "f"
  qualified := qualified
  occurs := occurs
  block := block
  body := body.symm
  direct := by
    intro node hNode
    rw [List.mem_singleton.mp hNode]
    exact implBody_opensScope start
  kind := rfl
  identifier := identifier
  emitted := emitted

/-- The tree of `impl A { fn f() {} } impl B { fn f() {} }`. -/
def inherentBlocks : Node :=
  .node ⟨"source_file", true, [], 0, 41, 0, 0⟩ [inherentBlock 0, inherentBlock 21]

def inherentBlocksText : List UInt8 :=
  utf8 "impl A \x7b fn f() \x7b\x7d \x7d impl B \x7b fn f() \x7b\x7d \x7d"

def inherentMethodA : ImplMethod sourceText inherentBlocksText inherentBlocks :=
  methodInBody 7 "A::f" (implBlock_inherentBlock 0) rfl
    (List.mem_of_getElem? (i := 6) rfl) (by decide) (by decide)

def inherentMethodB : ImplMethod sourceText inherentBlocksText inherentBlocks :=
  methodInBody 28 "B::f" (implBlock_inherentBlock 21) rfl
    (List.mem_of_getElem? (i := 17) rfl) (by decide) (by decide)

/-- The tree of `impl T for A { fn f() {} } impl T for B { fn f() {} }`. -/
def traitBlocks : Node :=
  .node ⟨"source_file", true, [], 0, 53, 0, 0⟩ [traitBlock 0, traitBlock 27]

def traitBlocksText : List UInt8 :=
  utf8 "impl T for A \x7b fn f() \x7b\x7d \x7d impl T for B \x7b fn f() \x7b\x7d \x7d"

def traitMethodA : ImplMethod sourceText traitBlocksText traitBlocks :=
  methodInBody 13 "T::f" (implBlock_traitBlock 0) rfl
    (List.mem_of_getElem? (i := 8) rfl) (by decide) (by decide)

def traitMethodB : ImplMethod sourceText traitBlocksText traitBlocks :=
  methodInBody 40 "T::f" (implBlock_traitBlock 27) rfl
    (List.mem_of_getElem? (i := 21) rfl) (by decide) (by decide)

/-- The receiver `(a A)`, with other names in the place of `a` and `A`. -/
def goReceiver (start : Nat) : Node :=
  .node ⟨"parameter_list", true, ["receiver"], start, start + 5, 0, start⟩ [
    .node ⟨"(", false, [], start, start + 1, 0, start⟩ [],
    .node ⟨"parameter_declaration", true, [], start + 1, start + 4, 0, start + 1⟩ [
      .node ⟨"identifier", true, ["name"], start + 1, start + 2, 0, start + 1⟩ [],
      typeIdentifier "type" (start + 3)],
    .node ⟨")", false, [], start + 4, start + 5, 0, start + 4⟩ []]

/-- The method `func (a A) F() {}`, with other names in the place of `a` and `A`. -/
def goMethod (start : Nat) : Node :=
  .node ⟨"method_declaration", true, [], start, start + 17, 0, start⟩ [
    .node ⟨"func", false, [], start, start + 4, 0, start⟩ [],
    goReceiver (start + 5),
    .node ⟨"field_identifier", true, ["name"], start + 11, start + 12, 0, start + 11⟩ [],
    .node ⟨"parameter_list", true, ["parameters"], start + 12, start + 14, 0, start + 12⟩ [],
    .node ⟨"block", true, ["body"], start + 15, start + 17, 0, start + 15⟩ []]

/-- The tree of `package p;func (a A) F() {};func (b B) F() {}`. -/
def goMethods : Node :=
  .node ⟨"source_file", true, [], 0, 45, 0, 0⟩ [
    .node ⟨"package_clause", true, [], 0, 9, 0, 0⟩ [
      .node ⟨"package", false, [], 0, 7, 0, 0⟩ [],
      .node ⟨"package_identifier", true, [], 8, 9, 0, 8⟩ []],
    .node ⟨";", false, [], 9, 10, 0, 9⟩ [],
    goMethod 10,
    .node ⟨";", false, [], 27, 28, 0, 27⟩ [],
    goMethod 28]

def goMethodsText : List UInt8 :=
  utf8 "package p;func (a A) F() \x7b\x7d;func (b B) F() \x7b\x7d"

/-- A method of the file. -/
def methodOfFile (start : Nat)
    (occurs : ⟨[goMethods], goMethod start⟩ ∈ occurrences [] goMethods)
    (identifier : extractIdentifier sourceText goMethodsText (goMethod start) = some "F")
    (emitted : (nodeAt sourceText goMethodsText Specs.go ⟨[goMethods], goMethod start⟩).map
      ExtractedNode.qualifiedName = some "F") :
    GoMethod sourceText goMethodsText goMethods where
  ancestors := [goMethods]
  method := goMethod start
  receiver := goReceiver (start + 5)
  receiverType := typeIdentifier "type" (start + 8)
  name := "F"
  qualified := "F"
  occurs := occurs
  kind := rfl
  topLevel := by decide
  receiverField := rfl
  typeInReceiver := ⟨_, List.mem_of_getElem? (i := 4) rfl, rfl⟩
  typeField := List.mem_singleton_self _
  identifier := identifier
  emitted := emitted

def goMethodA : GoMethod sourceText goMethodsText goMethods :=
  methodOfFile 10 (List.mem_of_getElem? (i := 5) rfl) (by decide) (by decide)

def goMethodB : GoMethod sourceText goMethodsText goMethods :=
  methodOfFile 28 (List.mem_of_getElem? (i := 17) rfl) (by decide) (by decide)

/-- The functions of two inherent blocks are told apart by the types, and the methods of
two receivers are not told apart. -/
theorem qualified_ne_inherentBlocks :
    inherentMethodA.qualified ≠ inherentMethodB.qualified ∧
      goMethodA.qualified = goMethodB.qualified := by
  have hOuterA : inherentMethodA.outer = [inherentBlocks] := rfl
  have hOuterB : inherentMethodB.outer = [inherentBlocks] := rfl
  have hNameA : inherentMethodA.name = "f" := rfl
  have hNameB : inherentMethodB.name = "f" := rfl
  have hTokenA : scopeTokenText sourceText inherentBlocksText inherentMethodA.traitNode
      inherentMethodA.typeNode = "A" := by decide
  have hTokenB : scopeTokenText sourceText inherentBlocksText inherentMethodB.traitNode
      inherentMethodB.typeNode = "B" := by decide
  have hRust := (qualified_ne_iff_scopeTokenText_ne sourceText inherentBlocksText
    inherentBlocks).1 inherentMethodA inherentMethodB (by rw [hOuterA, hOuterB])
    (by rw [hNameA, hNameB])
  have hGoNameA : goMethodA.name = "F" := rfl
  have hGoNameB : goMethodB.name = "F" := rfl
  have hGo := (qualified_ne_iff_scopeTokenText_ne sourceText goMethodsText goMethods).2
    goMethodA goMethodB (by rw [hGoNameA, hGoNameB])
  refine ⟨hRust.mpr ?_, hGo⟩
  rw [hTokenA, hTokenB]
  decide

/-- Two blocks for one trait give their functions one name, and so do two methods of Go
with one name. -/
theorem not_qualified_ne_traitBlocks :
    (¬∀ (utf8Text : Utf8Text) (source : List UInt8) (root : Node)
        (m m' : ImplMethod utf8Text source root), m.outer = m'.outer → m.name = m'.name →
      utf8Text m.typeNode source ≠ utf8Text m'.typeNode source → m.qualified ≠ m'.qualified) ∧
    ¬∀ (utf8Text : Utf8Text) (source : List UInt8) (root : Node)
        (g g' : GoMethod utf8Text source root), g.name = g'.name →
      utf8Text g.receiverType source ≠ utf8Text g'.receiverType source →
      g.qualified ≠ g'.qualified := by
  constructor
  · intro h
    have hOuterA : traitMethodA.outer = [traitBlocks] := rfl
    have hOuterB : traitMethodB.outer = [traitBlocks] := rfl
    have hNameA : traitMethodA.name = "f" := rfl
    have hNameB : traitMethodB.name = "f" := rfl
    have hTypeA : sourceText traitMethodA.typeNode traitBlocksText = some "A" := by decide
    have hTypeB : sourceText traitMethodB.typeNode traitBlocksText = some "B" := by decide
    have hQualifiedA : traitMethodA.qualified = "T::f" := rfl
    have hQualifiedB : traitMethodB.qualified = "T::f" := rfl
    have hNe := h sourceText traitBlocksText traitBlocks traitMethodA traitMethodB
      (by rw [hOuterA, hOuterB]) (by rw [hNameA, hNameB]) (by rw [hTypeA, hTypeB]; decide)
    exact hNe (by rw [hQualifiedA, hQualifiedB])
  · intro h
    have hNameA : goMethodA.name = "F" := rfl
    have hNameB : goMethodB.name = "F" := rfl
    have hTypeA : sourceText goMethodA.receiverType goMethodsText = some "A" := by decide
    have hTypeB : sourceText goMethodB.receiverType goMethodsText = some "B" := by decide
    have hQualifiedA : goMethodA.qualified = "F" := rfl
    have hQualifiedB : goMethodB.qualified = "F" := rfl
    have hNe := h sourceText goMethodsText goMethods goMethodA goMethodB
      (by rw [hNameA, hNameB]) (by rw [hTypeA, hTypeB]; decide)
    exact hNe (by rw [hQualifiedA, hQualifiedB])

end Parser
end CodebaseMem
