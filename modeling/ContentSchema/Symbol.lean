import ContentSchema.Schema.Basic

/-!
# Symbols

Documents refer to other objects by dotted names. A symbol is an object that a dotted name can stand
for; a symbol table says which names stand for which symbols.
-/
namespace ContentSchema

/-- What a dotted name stands for. -/
inductive Symbol where
  /-- A schema. -/
  | schema (s : Schema)
  /-- An invariant. -/
  | invariant (i : Invariant)
  /-- A default factory. -/
  | defaultFactory (f : DefaultFactory)
  /-- A vocabulary. -/
  | vocabulary (v : Vocabulary)
  /-- A source of terms that is only known by its name. -/
  | source
  /-- Any other object. -/
  | object

namespace Symbol

/-- The kinds of symbols. -/
inductive Kind where
  /-- Schemas. -/
  | schema
  /-- Invariants. -/
  | invariant
  /-- Default factories. -/
  | defaultFactory
  /-- Vocabularies. -/
  | vocabulary
  /-- Sources of terms. -/
  | source
  /-- Other objects. -/
  | object
deriving DecidableEq, Repr

/-- The name of a kind in messages. -/
def Kind.name : Kind → String
  | .schema => "schema"
  | .invariant => "invariant"
  | .defaultFactory => "default factory"
  | .vocabulary => "vocabulary"
  | .source => "vocabulary source"
  | .object => "object"

/-- The kind of a symbol. -/
def kind : Symbol → Kind
  | .schema _ => .schema
  | .invariant _ => .invariant
  | .defaultFactory _ => .defaultFactory
  | .vocabulary _ => .vocabulary
  | .source => .source
  | .object => .object

end Symbol

/-- What dotted names stand for, if anything. -/
abbrev Resolver := String → Option Symbol

/-- A table of symbols by dotted name. -/
abbrev SymbolTable := NameMap Symbol

/-- The name of the root schema always stands for it; other names are looked up. -/
def SymbolTable.resolve (table : SymbolTable) : Resolver := fun identifier =>
  if identifier == Schema.rootIdentifier then some (.schema Schema.root)
  else NameMap.get? table identifier

end ContentSchema
