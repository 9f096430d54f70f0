import Mathlib.Data.List.Basic

/-!
# The core types

Handles are 32-bit words.  A `NodeId` indexes the node columns, an `EdgeId` the
edge columns, and an `InternedStr` is a position in the string interner.

* `NodeLabel`, `EdgeType`, `Language`: the enumerations of the program, constructors in
  the order of the source.  The labels index the bitmaps of the label index by this
  order.
* `NodeLabel.count`, `NodeLabel.toIdx`: the constant and the cast that the label index
  uses.

The texts with which these types are displayed are left out: nothing reads them back.
-/

namespace CodebaseMem
namespace Core

structure NodeId where
  val : UInt32
  deriving DecidableEq, Repr

structure EdgeId where
  val : UInt32
  deriving DecidableEq, Repr

structure InternedStr where
  val : UInt32
  deriving DecidableEq, Repr

theorem NodeId.toNat_inj {a b : NodeId} : a.val.toNat = b.val.toNat ↔ a = b := by
  cases a
  cases b
  rw [UInt32.toNat_inj, NodeId.mk.injEq]

theorem InternedStr.toNat_inj {a b : InternedStr} : a.val.toNat = b.val.toNat ↔ a = b := by
  cases a
  cases b
  rw [UInt32.toNat_inj, InternedStr.mk.injEq]

/-- The kind of a node.  The order of the constructors is the order of the
bitmaps in the label index. -/
inductive NodeLabel where
  | project
  | package
  | directory
  | file
  | class_
  | interface
  | trait
  | function
  | method
  | typeAlias
  | variable
  | field
  | namespace_
  deriving DecidableEq, Repr

/-- Number of node kinds, `NodeLabel::COUNT`. -/
abbrev NodeLabel.count : Nat := 13

/-- `label as usize`. -/
def NodeLabel.toIdx : NodeLabel → Fin NodeLabel.count
  | .project => 0
  | .package => 1
  | .directory => 2
  | .file => 3
  | .class_ => 4
  | .interface => 5
  | .trait => 6
  | .function => 7
  | .method => 8
  | .typeAlias => 9
  | .variable => 10
  | .field => 11
  | .namespace_ => 12

inductive EdgeType where
  | contains
  | calls
  | callsHttp
  | imports
  | reExports
  | inherits
  | implements
  | decorates
  | uses
  | tests
  deriving DecidableEq, Repr

/-- The languages recognised by file extension. -/
inductive Language where
  | rust
  | c
  | cpp
  | go
  | java
  | python
  | typeScript
  | javaScript
  | cSharp
  | swift
  | kotlin
  | ruby
  | scala
  | php
  | shell
  | zig
  | html
  | css
  | json
  | yaml
  | toml
  | markdown
  | sql
  | unknown
  deriving DecidableEq, Repr

end Core
end CodebaseMem
