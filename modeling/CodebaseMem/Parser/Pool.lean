import CodebaseMem.Core.Exec
import CodebaseMem.Core.Types
import Mathlib.Data.Finset.Card

/-!
# The parser pool

Every thread keeps a map from languages to parsers, which it fills on demand and reuses.
The parsers are tree-sitter's and are changed by every parse, so it has to be shown that
reuse does not show: whatever was parsed before, and whatever the other threads do, a
text is parsed as by a new parser, and the map has one parser for each language that was
parsed since it was last cleared.

* `TreeSitter`, `TreeSitterLaw`: the parser library, and what is relied on.
* `getParserMut`, `parse`, `parseResult`: the pool, with its two paths and its `unwrap`s.
* `answerAll`: what calls should answer, without a map of parsers.
* `Remembers`: the map has a parser, set to its grammar, for each language that is known.
  `Remembers.apply` is the step lemma and `Remembers.run` the run lemma.
* `poolRun_eq_answers`: any calls of any threads.

The maps are thread-local, so calls of different threads do not meet and the order of
their steps does not matter.  All grammars are taken to be compiled in.
-/

namespace CodebaseMem
namespace Parser

open CodebaseMem.Core

/-- The grammars that are compiled in, by their crates. -/
inductive Grammar where
  | rust
  | c
  | cpp
  | go
  | javaScript
  | typeScript
  | html
  | css
  | python
  | bash
  | java
  | scala
  | kotlinNg
  | cSharp
  | swift
  | json
  | yaml
  | ruby
  | php
  | zig
  deriving DecidableEq, Repr

/-- `get_language` with the features that the match needs to be exhaustive. -/
def getLanguage : Language → Option Grammar
  | .rust => some .rust
  | .c => some .c
  | .cpp => some .cpp
  | .go => some .go
  | .javaScript => some .javaScript
  | .typeScript => some .typeScript
  | .html => some .html
  | .css => some .css
  | .python => some .python
  | .shell => some .bash
  | .java => some .java
  | .scala => some .scala
  | .kotlin => some .kotlinNg
  | .cSharp => some .cSharp
  | .swift => some .swift
  | .json => some .json
  | .yaml => some .yaml
  | .ruby => some .ruby
  | .php => some .php
  | .zig => some .zig
  | .toml | .markdown | .sql | .unknown => none

def isSupported (lang : Language) : Bool := (getLanguage lang).isSome

/-- What the pool uses of tree-sitter.  `parse` changes the parser.  Setting a language
may be refused, for a grammar of another version, and parsing may give no tree. -/
structure TreeSitter where
  TsParser : Type
  Tree : Type
  new : TsParser
  setLanguage : TsParser → Grammar → Option TsParser
  parse : TsParser → String → Option Tree × TsParser

/-- What the pool relies on: a parser keeps the language that was set, and what it makes of
a text depends on the language alone. -/
structure TreeSitterLaw (ts : TreeSitter) (assigned : ts.TsParser → Grammar → Prop)
    (treeOf : Grammar → String → Option ts.Tree) : Prop where
  setLanguage : ∀ parser grammar parser', ts.setLanguage parser grammar = some parser' →
    assigned parser' grammar
  parse : ∀ parser grammar source, assigned parser grammar →
    (ts.parse parser source).1 = treeOf grammar source ∧
      assigned (ts.parse parser source).2 grammar

inductive ParseError where
  | unsupported (lang : Language)
  | parseFailed (lang : Language)
  deriving DecidableEq, Repr

/-- The thread-local map `PARSERS`. -/
abbrev Parsers (ts : TreeSitter) := HashMap Language (Option ts.TsParser)

def languages : List Language :=
  [.rust, .c, .cpp, .go, .java, .python, .typeScript, .javaScript, .cSharp, .swift, .kotlin,
    .ruby, .scala, .php, .shell, .zig, .html, .css, .json, .yaml, .toml, .markdown, .sql,
    .unknown]

namespace ParserPool

variable {ts : TreeSitter}

/-- The entry of a language holds a parser.  An entry without one counts as no entry,
although the pool never makes such an entry. -/
def isCached (parsers : Parsers ts) (lang : Language) : Bool :=
  match parsers lang with
  | some (some _) => true
  | _ => false

/-- The parser behind the entry of a language, by two calls of `unwrap`. -/
def unwrapParser (parsers : Parsers ts) (lang : Language) : Exec ts.TsParser := do
  let entry ← expect (parsers lang)
  expect entry

/-- The map after the call, and the parser in it for a language. -/
def getParserMut (parsers : Parsers ts) (lang : Language) :
    Exec (Parsers ts × Option ts.TsParser) :=
  if isCached parsers lang then do
    let parser ← unwrapParser parsers lang
    .ok (parsers, some parser)
  else
    let needsInit := (parsers lang).all Option.isNone
    if !needsInit then do
      let parser ← unwrapParser parsers lang
      .ok (parsers, some parser)
    else
      match getLanguage lang with
      | none => .ok (parsers, none)
      | some grammar =>
          match ts.setLanguage ts.new grammar with
          | none => .ok (parsers, none)
          | some parser => do
              let parsers := parsers.insert lang (some parser)
              let parser ← unwrapParser parsers lang
              .ok (parsers, some parser)

/-- Parse a text.  The parser that is changed is the one in the map. -/
def parse (parsers : Parsers ts) (source : String) (lang : Language) :
    Exec (Parsers ts × Option ts.Tree) := do
  match ← getParserMut parsers lang with
  | (parsers, none) => .ok (parsers, none)
  | (parsers, some parser) =>
      let (tree, parser) := ts.parse parser source
      .ok (parsers.insert lang (some parser), tree)

/-- Like `parse`, with an error in the place of `None`. -/
def parseResult (parsers : Parsers ts) (source : String) (lang : Language) :
    Exec (Parsers ts × Except ParseError ts.Tree) := do
  match ← getParserMut parsers lang with
  | (parsers, none) => .ok (parsers, .error (.unsupported lang))
  | (parsers, some parser) =>
      let (tree, parser) := ts.parse parser source
      .ok (parsers.insert lang (some parser),
        match tree with
        | none => .error (.parseFailed lang)
        | some tree => .ok tree)

/-- The number of parsers in the map. -/
def cachedCount (parsers : Parsers ts) : Nat := (languages.filter (isCached parsers)).length

def clearCache (_parsers : Parsers ts) : Parsers ts := HashMap.empty

def supports (lang : Language) : Bool := isSupported lang

end ParserPool

/-! ### Runs of several threads -/

inductive PoolCall where
  | parse (source : String) (lang : Language)
  | parseResult (source : String) (lang : Language)
  | cachedCount
  | clearCache
  | supports (lang : Language)
  deriving DecidableEq, Repr

inductive PoolAnswer (Tree : Type) where
  | tree (tree : Option Tree)
  | result (result : Except ParseError Tree)
  | count (count : Nat)
  | cleared
  | supported (supported : Bool)

section Runs

variable {τ : Type} [DecidableEq τ] {ts : TreeSitter}

/-- One call, on the map of the thread that makes it. -/
def PoolCall.apply (parsers : Parsers ts) :
    PoolCall → Exec (Parsers ts × PoolAnswer ts.Tree)
  | .parse source lang => do
      let (parsers, tree) ← ParserPool.parse parsers source lang
      .ok (parsers, .tree tree)
  | .parseResult source lang => do
      let (parsers, result) ← ParserPool.parseResult parsers source lang
      .ok (parsers, .result result)
  | .cachedCount => .ok (parsers, .count (ParserPool.cachedCount parsers))
  | .clearCache => .ok (ParserPool.clearCache parsers, .cleared)
  | .supports lang => .ok (parsers, .supported (ParserPool.supports lang))

/-- Calls of several threads, in the order in which they are made.  The maps are
thread-local. -/
def poolRun (caches : τ → Parsers ts) :
    List (τ × PoolCall) → Exec ((τ → Parsers ts) × List (PoolAnswer ts.Tree))
  | [] => .ok (caches, [])
  | (t, call) :: calls => do
      let (parsers, answer) ← call.apply (caches t)
      let (caches, answers) ← poolRun (Function.update caches t parsers) calls
      .ok (caches, answer :: answers)

end Runs

/-! ### The pool without parsers -/

section Spec

variable {τ : Type} [DecidableEq τ] (ts : TreeSitter)
  (treeOf : Grammar → String → Option ts.Tree)

/-- The grammar of a language, if tree-sitter accepts it. -/
def grammarOf (lang : Language) : Option Grammar :=
  (getLanguage lang).filter fun grammar => (ts.setLanguage ts.new grammar).isSome

/-- The languages of the parsers after a call. -/
def PoolCall.remember (known : Finset Language) : PoolCall → Finset Language
  | .parse _ lang | .parseResult _ lang =>
      if (grammarOf ts lang).isSome then insert lang known else known
  | .cachedCount => known
  | .clearCache => ∅
  | .supports _ => known

/-- What a call should return: only the number of parsers depends on the calls before. -/
def PoolCall.answer (known : Finset Language) : PoolCall → PoolAnswer ts.Tree
  | .parse source lang => .tree ((grammarOf ts lang).bind fun grammar => treeOf grammar source)
  | .parseResult source lang =>
      .result (match grammarOf ts lang with
        | none => .error (.unsupported lang)
        | some grammar =>
            match treeOf grammar source with
            | none => .error (.parseFailed lang)
            | some tree => .ok tree)
  | .cachedCount => .count known.card
  | .clearCache => .cleared
  | .supports lang => .supported (getLanguage lang).isSome

/-- The languages of the parsers of each thread after some calls. -/
def rememberAll (known : τ → Finset Language) (calls : List (τ × PoolCall)) :
    τ → Finset Language :=
  calls.foldl (fun known entry =>
    Function.update known entry.1 (entry.2.remember ts (known entry.1))) known

/-- What the calls should return. -/
def answerAll (known : τ → Finset Language) : List (τ × PoolCall) → List (PoolAnswer ts.Tree)
  | [] => []
  | (t, call) :: calls =>
      call.answer ts treeOf (known t) ::
        answerAll (Function.update known t (call.remember ts (known t))) calls

end Spec

/-! ### The two agree -/

section Agreement

variable {ts : TreeSitter} {assigned : ts.TsParser → Grammar → Prop}
  {treeOf : Grammar → String → Option ts.Tree} {parsers : Parsers ts} {known : Finset Language}

/-- The map has a parser for each known language, which is set to the grammar, and nothing
for the others. -/
structure Remembers (assigned : ts.TsParser → Grammar → Prop) (parsers : Parsers ts)
    (known : Finset Language) : Prop where
  entry : ∀ lang ∈ known, ∃ grammar parser, grammarOf ts lang = some grammar ∧
    parsers lang = some (some parser) ∧ assigned parser grammar
  absent : ∀ lang, lang ∉ known → parsers lang = none

theorem remembers_empty : Remembers assigned (HashMap.empty : Parsers ts) ∅ where
  entry := by simp
  absent := fun _ _ => rfl

theorem grammarOf_eq_some_iff {lang : Language} {grammar : Grammar} :
    grammarOf ts lang = some grammar ↔ getLanguage lang = some grammar ∧
      ∃ parser, ts.setLanguage ts.new grammar = some parser := by
  rw [grammarOf, Option.filter_eq_some_iff, Option.isSome_iff_exists]

namespace Remembers

theorem mem_languages (lang : Language) : lang ∈ languages := by cases lang <;> decide

theorem isCached_iff (h : Remembers assigned parsers known) (lang : Language) :
    ParserPool.isCached parsers lang = true ↔ lang ∈ known := by
  by_cases hKnown : lang ∈ known
  · obtain ⟨grammar, parser, -, hEntry, -⟩ := h.entry lang hKnown
    simp [ParserPool.isCached, hEntry, hKnown]
  · simp [ParserPool.isCached, h.absent lang hKnown, hKnown]

theorem cachedCount_eq (h : Remembers assigned parsers known) :
    ParserPool.cachedCount parsers = known.card := by
  have hKnown : (languages.filter (ParserPool.isCached parsers)).toFinset = known := by
    ext lang
    rw [List.mem_toFinset, List.mem_filter, h.isCached_iff]
    exact and_iff_right (mem_languages lang)
  have hNodup : (languages.filter (ParserPool.isCached parsers)).Nodup :=
    List.Nodup.filter _ (by decide)
  calc ParserPool.cachedCount parsers
    _ = (languages.filter (ParserPool.isCached parsers)).length := rfl
    _ = (languages.filter (ParserPool.isCached parsers)).toFinset.card :=
      (List.toFinset_card_of_nodup hNodup).symm
    _ = known.card := by rw [hKnown]

theorem card_le (h : Remembers assigned parsers known) : known.card ≤ 20 := by
  have hSupported : known ⊆ (languages.filter isSupported).toFinset := by
    intro lang hLang
    obtain ⟨grammar, parser, hGrammar, -⟩ := h.entry lang hLang
    rw [List.mem_toFinset, List.mem_filter, isSupported, (grammarOf_eq_some_iff.mp hGrammar).1]
    exact ⟨mem_languages lang, rfl⟩
  calc known.card
    _ ≤ (languages.filter isSupported).toFinset.card := Finset.card_le_card hSupported
    _ ≤ 20 := by decide

theorem unwrapParser_eq {lang : Language} {parser : ts.TsParser}
    (hEntry : parsers lang = some (some parser)) :
    ParserPool.unwrapParser parsers lang = .ok parser := by
  rw [ParserPool.unwrapParser, hEntry]
  rfl

/-- The parser of a language may be set or replaced by one that is set to its grammar. -/
theorem store (h : Remembers assigned parsers known) {lang : Language} {grammar : Grammar}
    {parser : ts.TsParser} (hGrammar : grammarOf ts lang = some grammar)
    (hAssigned : assigned parser grammar) :
    Remembers assigned (parsers.insert lang (some parser)) (insert lang known) where
  entry := by
    intro other hOther
    by_cases hSame : other = lang
    · subst hSame
      exact ⟨grammar, parser, hGrammar, HashMap.insert_self _ _ _, hAssigned⟩
    · rw [HashMap.insert_of_ne _ hSame]
      exact h.entry other (Finset.mem_of_mem_insert_of_ne hOther hSame)
  absent := by
    intro other hOther
    rw [Finset.mem_insert, not_or] at hOther
    rw [HashMap.insert_of_ne _ hOther.1]
    exact h.absent other hOther.2

theorem getParserMut_none (h : Remembers assigned parsers known) {lang : Language}
    (hGrammar : grammarOf ts lang = none) :
    ParserPool.getParserMut parsers lang = .ok (parsers, none) := by
  have hNew : lang ∉ known := by
    intro hKnown
    obtain ⟨grammar, parser, hSome, -⟩ := h.entry lang hKnown
    rw [hGrammar] at hSome
    cases hSome
  have hAbsent := h.absent lang hNew
  have hCached : ParserPool.isCached parsers lang = false := by
    simp [ParserPool.isCached, hAbsent]
  unfold ParserPool.getParserMut
  simp only [hCached, hAbsent, Option.all_none, Bool.not_true, Bool.false_eq_true, if_false]
  cases hLanguage : getLanguage lang with
  | none => rfl
  | some grammar =>
      have hSet : ts.setLanguage ts.new grammar = none := by
        rw [grammarOf, hLanguage, Option.filter_some] at hGrammar
        simpa using hGrammar
      simp only [hSet]

/-- With a grammar there is a parser set to it, which may be changed as long as it stays
so. -/
theorem getParserMut_some (hLaw : TreeSitterLaw ts assigned treeOf)
    (h : Remembers assigned parsers known) {lang : Language} {grammar : Grammar}
    (hGrammar : grammarOf ts lang = some grammar) :
    ∃ parsers' parser, ParserPool.getParserMut parsers lang = .ok (parsers', some parser) ∧
      assigned parser grammar ∧ ∀ parser', assigned parser' grammar →
        Remembers assigned (parsers'.insert lang (some parser')) (insert lang known) := by
  by_cases hKnown : lang ∈ known
  · -- the fast path: the parser of an earlier call
    obtain ⟨grammar', parser, hSome, hEntry, hAssigned⟩ := h.entry lang hKnown
    have hSame : grammar' = grammar := Option.some_inj.mp (hSome.symm.trans hGrammar)
    subst hSame
    refine ⟨parsers, parser, ?_, hAssigned, fun parser' hParser' =>
      h.store hGrammar hParser'⟩
    rw [ParserPool.getParserMut, if_pos ((h.isCached_iff lang).mpr hKnown),
      unwrapParser_eq hEntry]
    rfl
  · -- the slow path: a new parser
    obtain ⟨hLanguage, parser, hSet⟩ := grammarOf_eq_some_iff.mp hGrammar
    have hAbsent := h.absent lang hKnown
    have hAssigned := hLaw.setLanguage _ _ _ hSet
    refine ⟨parsers.insert lang (some parser), parser, ?_, hAssigned, ?_⟩
    · have hCached : ParserPool.isCached parsers lang = false := by
        simp [ParserPool.isCached, hAbsent]
      unfold ParserPool.getParserMut
      simp only [hCached, hAbsent, Option.all_none, Bool.not_true, Bool.false_eq_true, if_false,
        hLanguage, hSet, unwrapParser_eq (HashMap.insert_self parsers lang (some parser)),
        Exec.ok_bind]
    · intro parser' hParser'
      have hInserted := (h.store hGrammar hAssigned).store hGrammar hParser'
      rwa [Finset.insert_idem] at hInserted

/-- The two ways to parse start from the same two cases: no parser, or one whose tree is
the grammar's and that is kept. -/
theorem getParserMut_cases (hLaw : TreeSitterLaw ts assigned treeOf)
    (h : Remembers assigned parsers known) (source : String) (lang : Language) :
    (grammarOf ts lang = none ∧ ParserPool.getParserMut parsers lang = .ok (parsers, none)) ∨
      ∃ grammar parsers' parser, grammarOf ts lang = some grammar ∧
        ParserPool.getParserMut parsers lang = .ok (parsers', some parser) ∧
        (ts.parse parser source).1 = treeOf grammar source ∧
        Remembers assigned (parsers'.insert lang (some (ts.parse parser source).2))
          (insert lang known) := by
  cases hGrammar : grammarOf ts lang with
  | none => exact Or.inl ⟨rfl, h.getParserMut_none hGrammar⟩
  | some grammar =>
      obtain ⟨parsers', parser, hGet, hAssigned, hKeep⟩ := h.getParserMut_some hLaw hGrammar
      obtain ⟨hTree, hStill⟩ := hLaw.parse parser grammar source hAssigned
      exact Or.inr ⟨grammar, parsers', parser, rfl, hGet, hTree, hKeep _ hStill⟩

/-- A call answers as it should and leaves the parsers it should.  The cases are the
calls; those that parse split into languages with a grammar and without. -/
theorem apply (hLaw : TreeSitterLaw ts assigned treeOf) (h : Remembers assigned parsers known)
    (call : PoolCall) :
    ∃ parsers', call.apply parsers = .ok (parsers', call.answer ts treeOf known) ∧
      Remembers assigned parsers' (call.remember ts known) := by
  cases call with
  | parse source lang =>
      unfold PoolCall.apply ParserPool.parse PoolCall.answer PoolCall.remember
      obtain ⟨hGrammar, hGet⟩ | ⟨grammar, parsers', parser, hGrammar, hGet, hTree, hKeep⟩ :=
        h.getParserMut_cases hLaw source lang
      · refine ⟨parsers, ?_, ?_⟩
        · simp [hGet, hGrammar]
        · simpa [hGrammar] using h
      · refine ⟨parsers'.insert lang (some (ts.parse parser source).2), ?_, ?_⟩
        · simp only [hGet, hGrammar, hTree, Exec.ok_bind, Option.bind_some]
        · simpa [hGrammar] using hKeep
  | parseResult source lang =>
      unfold PoolCall.apply ParserPool.parseResult PoolCall.answer PoolCall.remember
      obtain ⟨hGrammar, hGet⟩ | ⟨grammar, parsers', parser, hGrammar, hGet, hTree, hKeep⟩ :=
        h.getParserMut_cases hLaw source lang
      · refine ⟨parsers, ?_, ?_⟩
        · simp [hGet, hGrammar]
        · simpa [hGrammar] using h
      · refine ⟨parsers'.insert lang (some (ts.parse parser source).2), ?_, ?_⟩
        · simp only [hGet, hGrammar, hTree, Exec.ok_bind]
        · simpa [hGrammar] using hKeep
  | cachedCount =>
      refine ⟨parsers, ?_, h⟩
      rw [PoolCall.apply, h.cachedCount_eq]
      rfl
  | clearCache => exact ⟨HashMap.empty, rfl, remembers_empty⟩
  | supports lang => exact ⟨parsers, rfl, h⟩

/-- A run answers as it should, and each thread is left the parsers it should.  Induction
on the calls; a call changes the map of its own thread only. -/
theorem run {τ : Type} [DecidableEq τ] (hLaw : TreeSitterLaw ts assigned treeOf)
    (calls : List (τ × PoolCall)) :
    ∀ {caches : τ → Parsers ts} {known : τ → Finset Language},
      (∀ t, Remembers assigned (caches t) (known t)) →
      ∃ caches', poolRun caches calls = .ok (caches', answerAll ts treeOf known calls) ∧
        ∀ t, Remembers assigned (caches' t) (rememberAll ts known calls t) := by
  induction calls with
  | nil => exact fun {caches _} h => ⟨caches, rfl, h⟩
  | cons entry calls ih =>
      intro caches known h
      obtain ⟨t, call⟩ := entry
      obtain ⟨parsers', hApply, hParsers'⟩ := (h t).apply hLaw call
      have hNext : ∀ u, Remembers assigned (Function.update caches t parsers' u)
          (Function.update known t (call.remember ts (known t)) u) := by
        intro u
        by_cases hSame : u = t
        · subst hSame
          simpa using hParsers'
        · simpa [Function.update_of_ne hSame] using h u
      obtain ⟨caches', hRun, hCaches'⟩ := ih hNext
      refine ⟨caches', ?_, hCaches'⟩
      rw [poolRun, hApply]
      simp only [Exec.ok_bind, hRun, answerAll]

end Remembers

end Agreement

/-- Calls of any threads in any order never panic, and they answer as if every text were
parsed by a new parser.  A thread then has one parser for each language with a grammar
that it has parsed since it last cleared its map, at most twenty in all. -/
theorem poolRun_eq_answers {τ : Type} [DecidableEq τ] {ts : TreeSitter}
    {assigned : ts.TsParser → Grammar → Prop} {treeOf : Grammar → String → Option ts.Tree}
    (hLaw : TreeSitterLaw ts assigned treeOf) (calls : List (τ × PoolCall)) :
    ∃ caches, poolRun (fun _ => HashMap.empty) calls =
        .ok (caches, answerAll ts treeOf (fun _ => ∅) calls) ∧
      ∀ t, ParserPool.cachedCount (caches t) = (rememberAll ts (fun _ => ∅) calls t).card ∧
        ParserPool.cachedCount (caches t) ≤ 20 := by
  have hStart : ∀ _ : τ, Remembers assigned (HashMap.empty : Parsers ts) ∅ :=
    fun _ => remembers_empty
  obtain ⟨caches, hRun, hCaches⟩ := Remembers.run hLaw calls hStart
  refine ⟨caches, hRun, fun t => ?_⟩
  have hCount := (hCaches t).cachedCount_eq
  exact ⟨hCount, hCount.trans_le (hCaches t).card_le⟩

/-- A tree-sitter whose trees are the texts with their grammars. -/
def plainTreeSitter : TreeSitter where
  TsParser := Option Grammar
  Tree := Grammar × String
  new := none
  setLanguage _ grammar := some (some grammar)
  parse parser source := (parser.map fun grammar => (grammar, source), parser)

theorem treeSitterLaw_plain :
    TreeSitterLaw plainTreeSitter (fun parser grammar => parser = some grammar)
      (fun grammar source => some (grammar, source)) where
  setLanguage := by
    rintro parser grammar parser' ⟨⟩
    rfl
  parse := by
    rintro parser grammar source rfl
    exact ⟨rfl, rfl⟩

/-- Two threads parse, one of them a language without a grammar. -/
theorem poolRun_eq_answers_twoThreads :
    ∃ caches, poolRun (fun _ : Bool => (HashMap.empty : Parsers plainTreeSitter))
        [(false, .parse "fn main() \x7b\x7d" .rust), (true, .parseResult "select 1" .sql),
          (true, .cachedCount), (false, .cachedCount)] =
        .ok (caches, [.tree (some (.rust, "fn main() \x7b\x7d")),
          .result (.error (.unsupported .sql)), .count 0, .count 1]) ∧
      ParserPool.cachedCount (caches false) = 1 := by
  obtain ⟨caches, hRun, hCaches⟩ := poolRun_eq_answers treeSitterLaw_plain
    [(false, .parse "fn main() \x7b\x7d" .rust), (true, .parseResult "select 1" .sql),
      (true, .cachedCount), (false, .cachedCount)]
  exact ⟨caches, hRun, (hCaches false).1⟩

end Parser
end CodebaseMem
