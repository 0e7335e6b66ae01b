import ContentSchema.Document.Context

/-!
# Primary fields in documents

An attribute on the element of a field says whether the field is primary.
-/
namespace ContentSchema.Document.PrimaryField

open Markup (Element qualified)

/-- The namespace of the attribute. -/
def marshalNamespace : String := "http://namespaces.plone.org/supermodel/marshal"

/-- The attribute. -/
def attributeName : String := qualified "primary" marshalNamespace

/-- Marks the field as primary if its element says so. -/
def read (e : Element) (field : String) (s : Schema) : Except Fault Schema :=
  match e.get? attributeName with
  | none | some "false" => .ok s
  | some "true" => (s.markPrimary [field]).mapError .model
  | some v => .error (.invalidAttribute "field" "marshal:primary" v)

/-- Says on the element of a field that the field is primary. -/
def write (_ : Schema) (f : Field) (e : Element) : Except Fault Element :=
  .ok (if f.provides Schema.primaryMarker then e.set attributeName "true" else e)

/-- The handler of the attribute. -/
def handler : FieldHandler :=
  { uri := some marshalNamespace, xmlPrefix := some "marshal", read, write }

end ContentSchema.Document.PrimaryField
