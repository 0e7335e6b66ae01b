import ContentSchema.Field.Attribute
import ContentSchema.NameMap

/-!
# Codecs of fields

How fields of a type stand in documents: which attributes become elements inside the field's
element, and which of them are left out on reading or on writing. `FieldCodec.standard` gives the
codec of each standard type; codecs for other types are made from these.
-/
namespace ContentSchema

/-- When an attribute is left out. -/
inductive AttributeFilter where
  /-- On reading. -/
  | read
  /-- On writing. -/
  | write
  /-- On both. -/
  | always
deriving DecidableEq, Repr

/-- The form of a field type in documents. -/
structure FieldCodec where
  /-- The type of the fields. -/
  type : FieldType
  /-- What documents name the type by. -/
  identifier : String
  /-- The attributes, by name. -/
  attributes : NameMap AttributeSpec
  /-- The attributes that are left out, by name. -/
  filters : NameMap AttributeFilter

namespace FieldCodec

/-- Gives the type another identifier, which fields that are read keep. -/
def withIdentifier (c : FieldCodec) (identifier : String) : FieldCodec := { c with identifier }

/-- Adds an attribute, or replaces the one with its name. -/
def withAttribute (c : FieldCodec) (spec : AttributeSpec) : FieldCodec :=
  { c with attributes := c.attributes.insert spec.name spec }

/-- Sets when an attribute is left out. -/
def withFilter (c : FieldCodec) (name : String) (filter : AttributeFilter) : FieldCodec :=
  { c with filters := c.filters.insert name filter }

/-- The attributes that a type declares. A field's place and the distinctness of its items never
stand in documents, and default factories are not written. -/
def plain (type : FieldType) : FieldCodec :=
  { type
    identifier := type.identifier
    attributes := NameMap.ofList (type.attributes.map fun spec => (spec.name, spec))
    filters := NameMap.ofList
      [("order", .always), ("unique", .always), ("defaultFactory", .write)] }

/-- Mappings have fields for their keys and values. -/
def mapping : FieldCodec :=
  plain .dict
    |>.withAttribute ⟨"key_type", .nestedField, none⟩
    |>.withAttribute ⟨"value_type", .nestedField, none⟩

/-- Objects refer to a schema; their values are not written. -/
def object : FieldCodec :=
  plain .object
    |>.withAttribute ⟨"schema", .schemaRef, none⟩
    |>.withFilter "default" .write
    |>.withFilter "missing_value" .write

/-- The terms of a choice are written apart from the other attributes, and have one name only. -/
def choice : FieldCodec :=
  plain .choice
    |>.withFilter "vocabulary" .write
    |>.withFilter "values" .write
    |>.withFilter "source" .write
    |>.withFilter "vocabularyName" .always

/-- The codec of a standard type. -/
def standard : FieldType → FieldCodec
  | .dict => mapping
  | .object => object
  | .choice => choice
  | type => plain type

/-- Whether an attribute is read. -/
def reads (c : FieldCodec) (name : String) : Bool :=
  match c.filters.get? name with
  | some .read | some .always => false
  | _ => true

/-- Whether an attribute is written. -/
def writes (c : FieldCodec) (name : String) : Bool :=
  match c.filters.get? name with
  | some .write | some .always => false
  | _ => true

end FieldCodec

/-- The codecs that documents may name, by identifier. -/
abbrev Registry := NameMap FieldCodec

/-- The codecs of all standard types. -/
def Registry.standard : Registry :=
  NameMap.ofList (FieldType.all.map fun t => (t.identifier, FieldCodec.standard t))

end ContentSchema
