import CodebaseMem.Core.LangSpec

/-!
# The registered specifications

One specification for each supported language, and the registry that checks and
returns them.  The tables are those of the source, row by row and in its order.

* `registered`: the languages with a specification.
* `checkSorted`: the assertion on a table, which panics on one that is not sorted.
* `getSpec_ok`: no registered specification fails it, so the lookup never panics.

The registry of the program is filled on first use, behind a lock that runs the
initialisation once.  Here every lookup checks all tables, which no caller can tell
apart since the checks pass.
-/

namespace CodebaseMem
namespace Core

namespace Specs

def cNodeRules : List NodeRule := [
  .leaf "declaration" .variable,
  .leaf "enum_specifier" .class_,
  .leaf "field_identifier" .field,
  .leaf "function_definition" .function,
  .leaf "identifier" .variable,
  .container "struct_specifier" .class_,
  .container "translation_unit" .namespace_,
  .leaf "type_definition" .typeAlias,
  .container "union_specifier" .class_]

def cEdgeRules : List EdgeRule := [
  .calls "call_expression" .fromNodeText,
  .calls "identifier" .fromNodeText,
  .uses "type_identifier" .fromNodeText,
  .uses "field_declaration" .fromNodeText]

def c : LanguageSpec where
  lang := .c
  rootKind := "translation_unit"
  qnSeparator := ""
  nodeRules := cNodeRules
  edgeRules := cEdgeRules

def cppNodeRules : List NodeRule := [
  .container "class_specifier" .class_,
  .leaf "enum_specifier" .class_,
  .leaf "field_identifier" .field,
  .leaf "function_definition" .function,
  .leaf "identifier" .variable,
  .container "namespace_definition" .namespace_,
  .container "struct_specifier" .class_,
  .container "translation_unit" .namespace_]

def cppEdgeRules : List EdgeRule := [
  .calls "call_expression" .fromNodeText,
  .calls "identifier" .fromNodeText,
  .inherits "base_class_clause" .fromChildType,
  .uses "field_declaration" .fromNodeText,
  .uses "type_identifier" .fromNodeText]

def cpp : LanguageSpec where
  lang := .cpp
  rootKind := "translation_unit"
  qnSeparator := "::"
  nodeRules := cppNodeRules
  edgeRules := cppEdgeRules

def goNodeRules : List NodeRule := [
  .leaf "function_declaration" .function,
  .leaf "identifier" .variable,
  .leaf "import_declaration" .variable,
  .leaf "method_declaration" .method,
  .container "package_clause" .namespace_,
  .container "source_file" .namespace_,
  .scopeOnly "type_declaration"]

def goEdgeRules : List EdgeRule := [
  .calls "call_expression" .fromNodeText,
  .calls "identifier" .fromNodeText,
  .imports "import_declaration" .fromNodeText]

def go : LanguageSpec where
  lang := .go
  rootKind := "source_file"
  qnSeparator := "."
  nodeRules := goNodeRules
  edgeRules := goEdgeRules

def javaNodeRules : List NodeRule := [
  .container "annotation_type_declaration" .interface,
  .container "class_declaration" .class_,
  .container "enum_declaration" .class_,
  .leaf "field_declaration" .field,
  .leaf "identifier" .variable,
  .leaf "import_declaration" .variable,
  .container "interface_declaration" .interface,
  .leaf "method_declaration" .method,
  .container "program" .namespace_,
  .container "record_declaration" .class_,
  .leaf "variable_declarator" .variable]

def javaEdgeRules : List EdgeRule := [
  .calls "method_invocation" .fromNodeText,
  .calls "identifier" .fromNodeText,
  .imports "import_declaration" .fromNodeText,
  .inherits "superclass" .fromChildType,
  .implements "super_interfaces" .fromChildType,
  .decorates "annotation" .fromNodeText,
  .decorates "marker_annotation" .fromNodeText]

def java : LanguageSpec where
  lang := .java
  rootKind := "program"
  qnSeparator := "."
  nodeRules := javaNodeRules
  edgeRules := javaEdgeRules

def kotlinNodeRules : List NodeRule := [
  .leaf "annotation" .function,
  .container "class_declaration" .class_,
  .container "companion_object" .namespace_,
  .leaf "function_declaration" .function,
  .leaf "identifier" .variable,
  .leaf "import" .variable,
  .container "object_declaration" .class_,
  .leaf "property_declaration" .field,
  .container "source_file" .namespace_,
  .leaf "type_alias" .typeAlias]

def kotlinEdgeRules : List EdgeRule := [
  .calls "call_expression" .fromNodeText,
  .calls "identifier" .fromNodeText,
  .imports "import" .fromNodeText,
  .decorates "annotation" .fromNodeText,
  .inherits "delegation_specifiers" .fromChildType]

def kotlin : LanguageSpec where
  lang := .kotlin
  rootKind := "source_file"
  qnSeparator := "."
  nodeRules := kotlinNodeRules
  edgeRules := kotlinEdgeRules

def pythonNodeRules : List NodeRule := [
  .leaf "alias" .variable,
  .leaf "assignment" .variable,
  .container "async_function_definition" .function,
  .container "class_definition" .class_,
  .leaf "decorated_definition" .function,
  .container "function_definition" .function,
  .leaf "identifier" .variable,
  .leaf "import_from_statement" .variable,
  .leaf "import_statement" .variable,
  .container "module" .namespace_,
  .leaf "type_alias" .typeAlias]

def pythonEdgeRules : List EdgeRule := [
  .calls "attribute" .fromNodeText,
  .calls "call" .fromNodeText,
  .calls "identifier" .fromNodeText,
  .imports "dotted_name" .fromNodeText,
  .imports "import_from_statement" .fromNodeText,
  .imports "import_statement" .fromNodeText,
  .inherits "argument_list" .fromNodeText,
  .inherits "class_definition" .fromChildType,
  .decorates "decorated_definition" .fromNodeText,
  .decorates "identifier" .fromNodeText]

def python : LanguageSpec where
  lang := .python
  rootKind := "module"
  qnSeparator := "."
  nodeRules := pythonNodeRules
  edgeRules := pythonEdgeRules

def rustNodeRules : List NodeRule := [
  .leaf "const_item" .variable,
  .container "enum_item" .class_,
  .leaf "field_identifier" .field,
  .leaf "function_item" .function,
  .leaf "identifier" .variable,
  .scopeOnly "impl_item",
  .container "mod_item" .namespace_,
  .leaf "scoped_identifier" .variable,
  .container "source_file" .namespace_,
  .leaf "static_item" .variable,
  .container "struct_item" .class_,
  .container "trait_item" .trait,
  .leaf "type_alias_item" .typeAlias,
  .leaf "type_item" .typeAlias,
  .container "union_item" .class_]

def rustEdgeRules : List EdgeRule := [
  .calls "call_expression" .fromNodeText,
  .calls "identifier" .fromNodeText,
  .calls "scoped_identifier" .fromNodeText,
  .imports "scoped_identifier" .fromNodeText,
  .imports "use_declaration" .fromNodeText,
  .implements "impl_item" .fromChildType,
  .inherits "generic_type" .fromChildType,
  .inherits "type_identifier" .fromChildType,
  .uses "field_identifier" .fromNodeText,
  .uses "generic_type" .fromChildType,
  .uses "type_identifier" .fromNodeText,
  .decorates "attribute_item" .fromNodeText]

def rust : LanguageSpec where
  lang := .rust
  rootKind := "source_file"
  qnSeparator := "::"
  nodeRules := rustNodeRules
  edgeRules := rustEdgeRules

def typeScriptNodeRules : List NodeRule := [
  .container "abstract_class_declaration" .class_,
  .container "class_declaration" .class_,
  .container "function_declaration" .function,
  .leaf "identifier" .variable,
  .leaf "import_statement" .variable,
  .container "interface_declaration" .interface,
  .container "program" .namespace_,
  .leaf "property_identifier" .field,
  .leaf "type_alias_declaration" .typeAlias]

def typeScriptEdgeRules : List EdgeRule := [
  .calls "call_expression" .fromNodeText,
  .calls "member_expression" .fromNodeText,
  .calls "identifier" .fromNodeText,
  .imports "import_statement" .fromNodeText,
  .inherits "extends_clause" .fromChildType,
  .inherits "extends_type_clause" .fromChildType,
  .implements "implements_clause" .fromChildType,
  .decorates "decorator" .fromNodeText]

def typeScript : LanguageSpec where
  lang := .typeScript
  rootKind := "program"
  qnSeparator := "."
  nodeRules := typeScriptNodeRules
  edgeRules := typeScriptEdgeRules

/-- The registered specifications, in the order of registration. -/
def registered : List (Language × LanguageSpec) := [
  (.c, c),
  (.cpp, cpp),
  (.go, go),
  (.java, java),
  (.kotlin, kotlin),
  (.python, python),
  (.rust, rust),
  (.typeScript, typeScript)]

/-- The node rules are strictly ascending by kind. -/
def checkSorted (spec : LanguageSpec) : Exec Unit :=
  (spec.nodeRules.zip spec.nodeRules.tail).foldlM (fun _ (rule, next) =>
    assert (strCmp rule.tsKind next.tsKind = .lt)) ()

/-- The specification of a language, `None` if none is registered.  The first
call checks all of them. -/
def getSpec (lang : Language) : Exec (Option LanguageSpec) := do
  registered.foldlM (fun _ (_, spec) => checkSorted spec) ()
  .ok (registered.lookup lang)

/-- No registered specification is misconfigured, so the assertion of `get_spec` holds
for every language and its result is the lookup alone. -/
theorem getSpec_ok (lang : Language) : getSpec lang = .ok (registered.lookup lang) := by
  have hSorted : registered.foldlM (fun _ (_, spec) => checkSorted spec) () = .ok () := by
    decide
  rw [getSpec, hSorted, Exec.ok_bind]

end Specs

end Core
end CodebaseMem
