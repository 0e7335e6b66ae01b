import ContentSchema.Field.Type
import ContentSchema.Value.Basic

/-!
# Attributes of field types

A field type declares which attributes its fields have. Each is a child element of the field's
element; its kind says how the child is read, and its default is the value it has when there is no
such child.
-/
namespace ContentSchema

/-- How the value of an attribute is written. -/
inductive AttributeKind where
  /-- One line of translatable text. -/
  | textLine
  /-- Translatable text. -/
  | text
  /-- A truth value. -/
  | bool
  /-- An integer. -/
  | int
  /-- A value of the field itself, which has to be valid. -/
  | ownType
  /-- A value of the field itself, which need not be valid. -/
  | ownTypeUnvalidated
  /-- Another field. -/
  | nestedField
  /-- The dotted name of a schema. -/
  | schemaRef
  /-- The dotted name of a default factory. -/
  | defaultFactory
  /-- Inline choice values. -/
  | values
  /-- The dotted name of a vocabulary source. -/
  | source
deriving DecidableEq, Repr

/-- The name of a kind. -/
def AttributeKind.name : AttributeKind → String
  | .textLine => "TextLine"
  | .text => "Text"
  | .bool => "Bool"
  | .int => "Int"
  | .ownType => "OwnType"
  | .ownTypeUnvalidated => "OwnTypeUnvalidated"
  | .nestedField => "NestedField"
  | .schemaRef => "SchemaRef"
  | .defaultFactory => "DefaultFactory"
  | .values => "Values"
  | .source => "Source"

/-- All kinds. -/
def AttributeKind.all : List AttributeKind :=
  [.textLine, .text, .bool, .int, .ownType, .ownTypeUnvalidated, .nestedField, .schemaRef,
    .defaultFactory, .values, .source]

/-- Attributes whose value is one of the field itself. -/
def AttributeKind.isOwnType : AttributeKind → Bool
  | .ownType | .ownTypeUnvalidated => true
  | _ => false

/-- A declared attribute. -/
structure AttributeSpec where
  /-- The name of the attribute and of its element. -/
  name : String
  /-- How its value is written. -/
  kind : AttributeKind
  /-- The value when there is no element. -/
  default : Option Value := none

/-- The attributes that a type declares, in the order of declaration. The nested fields of a mapping
and the schema of an object are not among them. -/
def FieldType.attributes (t : FieldType) : List AttributeSpec :=
  [⟨"title", .textLine, some (.text "")⟩, ⟨"description", .text, some (.text "")⟩,
    ⟨"required", .bool, some (.bool true)⟩, ⟨"readonly", .bool, some (.bool false)⟩,
    ⟨"default", .ownType, none⟩, ⟨"missing_value", .ownTypeUnvalidated, none⟩,
    ⟨"order", .int, none⟩, ⟨"defaultFactory", .defaultFactory, none⟩] ++
  (if t.isSized then [⟨"min_length", .int, some (.int 0)⟩, ⟨"max_length", .int, none⟩] else []) ++
  (if t.isOrderable then [⟨"min", .ownType, none⟩, ⟨"max", .ownType, none⟩] else []) ++
  (if t.isCollection then
    [⟨"value_type", .nestedField, none⟩, ⟨"unique", .bool, some (.bool false)⟩] else []) ++
  match t with
  | .dottedName => [⟨"min_dots", .int, some (.int 0)⟩, ⟨"max_dots", .int, none⟩]
  | .object => [⟨"validate_invariants", .bool, some (.bool true)⟩]
  | .choice =>
    [⟨"vocabulary", .textLine, none⟩, ⟨"vocabularyName", .textLine, none⟩,
      ⟨"values", .values, none⟩, ⟨"source", .source, none⟩]
  | _ => []

end ContentSchema
