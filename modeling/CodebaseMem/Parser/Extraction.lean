import CodebaseMem.Parser.Listing
import CodebaseMem.Parser.Pool

/-!
# Extraction from a text

A caller parses a text, on some thread that has parsed other texts before, and extracts
the items of the tree with the specification of the same language.

* `extract_eq`: what `extract` returns for a tree, with its panic.
* `isSupported_of_registered`: a language with a specification has a grammar.  The
  converse fails: ruby has a grammar and no specification.
* `extract_of_parse`: the two together.  The items are the listing of the tree that a new
  parser makes of the text, whatever was parsed before and on whichever thread.

`Tree::root_node` is a parameter, as the trees are tree-sitter's.  That the tree fits the
text, so that every span lies inside it, is not assumed and not proved.
-/

namespace CodebaseMem
namespace Parser

open CodebaseMem.Core Library RoseTree

/-- The items that should be extracted: the listing of the tree, if the language has a
specification.  A build that traps overflow panics where a position overflows. -/
def extraction (profile : Profile) (utf8Text : Utf8Text) (root : Node) (source : String)
    (lang : Language) : Exec (Option (List ExtractedItem)) :=
  match Specs.registered.lookup lang with
  | none => .ok none
  | some spec =>
      if ∀ o ∈ occurrences [] root, PositionFits profile utf8Text (utf8 source) spec o then
        .ok (some (listing utf8Text (utf8 source) spec root))
      else .error .panic

theorem extract_eq (profile : Profile) (utf8Text : Utf8Text) (root : Node) (source : String)
    (lang : Language) :
    extract profile utf8Text root source lang =
      extraction profile utf8Text root source lang := by
  rw [extract, extraction, Specs.getSpec_ok, Exec.ok_bind]
  cases Specs.registered.lookup lang with
  | none => rfl
  | some spec =>
      dsimp only
      rw [withSpec, visit_eq_ite]
      split <;> rfl

theorem isSupported_of_registered {lang : Language} {spec : LanguageSpec}
    (h : Specs.registered.lookup lang = some spec) : isSupported lang = true := by
  have hAll : ∀ lang ∈ languages, (Specs.registered.lookup lang).isSome = true →
      isSupported lang = true := by decide
  exact hAll lang (Remembers.mem_languages lang) (by rw [h]; rfl)

/-- A call of `parse` after other calls answers as a new parser. -/
theorem Remembers.parse {ts : TreeSitter} {assigned : ts.TsParser → Grammar → Prop}
    {treeOf : Grammar → String → Option ts.Tree} {parsers : Parsers ts} {known : Finset Language}
    (hLaw : TreeSitterLaw ts assigned treeOf) (h : Remembers assigned parsers known)
    (source : String) (lang : Language) :
    ∃ parsers', ParserPool.parse parsers source lang =
      .ok (parsers', (grammarOf ts lang).bind fun grammar => treeOf grammar source) := by
  obtain ⟨parsers', hApply, -⟩ := h.apply hLaw (.parse source lang)
  obtain ⟨⟨found, tree⟩, hParse, hEnd⟩ := Exec.of_bind_eq_ok hApply
  obtain ⟨rfl, hTree⟩ := Prod.mk.inj (Except.ok.inj hEnd)
  rw [PoolAnswer.tree.inj hTree] at hParse
  exact ⟨found, hParse⟩

/-- Whatever the threads have parsed before, a thread that parses a text gets the tree
that a new parser gives, and `extract` makes of it the listing.  So the items depend on
the text and the language alone, and a language with a specification is never refused for
want of a grammar. -/
theorem extract_of_parse {τ : Type} [DecidableEq τ] {ts : TreeSitter}
    {assigned : ts.TsParser → Grammar → Prop} {treeOf : Grammar → String → Option ts.Tree}
    (hLaw : TreeSitterLaw ts assigned treeOf) (rootNode : ts.Tree → Node) (profile : Profile)
    (utf8Text : Utf8Text) (calls : List (τ × PoolCall)) (thread : τ) (source : String)
    (lang : Language) :
    ∃ caches answers parsers tree,
      poolRun (fun _ => HashMap.empty) calls = .ok (caches, answers) ∧
      ParserPool.parse (caches thread) source lang = .ok (parsers, tree) ∧
      tree = (grammarOf ts lang).bind (fun grammar => treeOf grammar source) ∧
      (∀ parsed, tree = some parsed →
        extract profile utf8Text (rootNode parsed) source lang =
          extraction profile utf8Text (rootNode parsed) source lang) ∧
      ∀ spec, Specs.registered.lookup lang = some spec → isSupported lang = true := by
  have hStart : ∀ _ : τ, Remembers assigned (HashMap.empty : Parsers ts) ∅ :=
    fun _ => remembers_empty
  obtain ⟨caches, hRun, hCaches⟩ := Remembers.run hLaw calls hStart
  obtain ⟨parsers, hParse⟩ := (hCaches thread).parse hLaw source lang
  exact ⟨caches, _, parsers, _, hRun, hParse, rfl, fun parsed _ => extract_eq _ _ _ _ _,
    fun spec hSpec => isSupported_of_registered hSpec⟩

/-- The root that the plain tree-sitter gives a text, which is right for an empty file. -/
def plainRoot (tree : plainTreeSitter.Tree) : Node :=
  .node ⟨"source_file", true, [], 0, tree.2.utf8ByteSize, 0, 0⟩ []

/-- A thread has parsed another file; the empty Rust file is then extracted as the file
root under the empty name. -/
theorem extract_of_parse_emptyFile :
    ∃ caches answers parsers, poolRun (fun _ : Bool => (HashMap.empty : Parsers plainTreeSitter))
        [(false, .parse "mod m;" .rust)] = .ok (caches, answers) ∧
      ParserPool.parse (caches false) "" .rust = .ok (parsers, some (.rust, "")) ∧
      extract .dev sourceText (plainRoot (.rust, "")) "" .rust =
        .ok (some [.node ⟨.namespace_, "", "source_file", 0, 0, 1, 1⟩]) := by
  obtain ⟨caches, answers, parsers, tree, hRun, hParse, rfl, hExtract, -⟩ :=
    extract_of_parse treeSitterLaw_plain plainRoot .dev sourceText
      [(false, .parse "mod m;" .rust)] false "" .rust
  refine ⟨caches, answers, parsers, hRun, hParse, (hExtract _ rfl).trans ?_⟩
  decide

end Parser
end CodebaseMem
