import ContentSchema.Document.Content
import ContentSchema.Document.FieldCodec
import ContentSchema.Document.FieldReader

/-!
# Writing fields

The element of a field names its type and holds an element for each attribute that differs from its
default, in the order of their names. The default and the missing value of the field are written
even where they equal the missing value. A choice ends with its terms.
-/
namespace ContentSchema.Document

open Markup (Element)

/-- The attributes whose values are written even when they equal the field's missing value. -/
def isForced (name : String) : Bool := name == "default" || name == "missing_value"

/-! ## Terms -/

/-- The text of a term's value, whose token has to be the default one. -/
def termText (f : Field) (t : Term) : Except Fault String := do
  let text ← match t.value with
    | .text s => .ok s
    | .int n => .ok (int64Text n)
    | v => .error (.notSupported (.termKind f.name v.kind))
  if t.token == tokenFor t.value then return text
  else throw (.notSupported (.termToken f.name t.token))

/-- Whether a term needs a key: it has a title of its own, or its token differs from its text. -/
def needsKey (t : Term) (text : String) : Bool :=
  t.title.any (fun title => title.plainText? != some text) || t.token != text

/-- The item of a term. A key goes with the title, or with the text of a term that has none. -/
def writeTerm (keyed : Bool) (t : Term) (text : String) : Except Fault Element :=
  if keyed then do
    let e ← encode true (Field.ofType .text) itemTag (t.title.getD (.text text))
    return e.set keyAttribute t.token
  else .ok { tag := itemTag, text := some text }

/-- The element of a vocabulary. -/
def writeVocabulary (f : Field) (v : Vocabulary) : Except Fault Element := do
  let texts ← v.terms.mapM (termText f)
  let terms := v.terms.zip texts
  let keyed := terms.any fun t => needsKey t.1 t.2
  return { tag := "values", children := ← terms.mapM fun t => writeTerm keyed t.1 t.2 }

/-- The element of the terms of a choice. -/
def writeTerms (f : Field) : Except Fault Element :=
  match f.vocabulary with
  | some (.named name) => encode true (Field.ofType .textLine) "vocabulary" (.text name)
  | some (.inline v) => writeVocabulary f v
  | some (.source identifier) => .error (.notSupported (.sourceTerms f.name identifier))
  | none => .error (.notSupported (.noTerms f.name))

/-! ## Fields -/

/-- The element of an attribute that holds a value, if it has to be written. -/
def writeValue (f : Field) (spec : AttributeSpec) (v : Option Value) :
    Except Fault (Option Element) :=
  if v == spec.default then .ok none
  else
    let typed := if spec.kind.isOwnType then f else attributeField spec.kind
    return some (← encodeOptional (isForced spec.name) typed spec.name v)

/-- The nested field of an attribute, written as `write` says by the codec of its type. -/
def writeNested (registry : Registry) (name : String) (nested : Field)
    (write : FieldCodec → Except Fault Element) : Except Fault Element :=
  match registry.get? nested.typeIdentifier with
  | some codec => write codec
  | none => .error (.unsupportedNestedType nested.typeIdentifier name)

/-- The element of an attribute, if it has to be written; `key` and `item` are those of the nested
fields. -/
def writeAttribute (f : Field) (key item : Option (Except Fault Element)) (spec : AttributeSpec) :
    Except Fault (Option Element) :=
  match f.attribute? spec.name with
  | some (.field (some _)) => do
    match if spec.name == "key_type" then key else item with
    | some e => return some (← e)
    | none => return none
  | some (.value v) => writeValue f spec v
  | _ => .ok none

/-- The element of a field, for an element with a tag. -/
def writeField (registry : Registry) (f : Field) (codec : FieldCodec) (name : Option String)
    (tag : String) : Except Fault Element :=
  match f with
  | { keyType, valueType, .. } => do
    let key := match keyType with
      | some g => some (writeNested registry "key_type" g fun c =>
        writeField registry g c none "key_type")
      | none => none
    let item := match valueType with
      | some g => some (writeNested registry "value_type" g fun c =>
        writeField registry g c none "value_type")
      | none => none
    let specs := codec.attributes.values.filter fun spec => codec.writes spec.name
    let written ← specs.mapM (writeAttribute f key item)
    let terms ← if codec.type = .choice then (writeTerms f).map ([·]) else .ok []
    let named := match name with
      | some n => [("name", n)]
      | none => []
    return { tag
             attributes := named ++ [("type", f.typeIdentifier)]
             children := written.filterMap id ++ terms }

end ContentSchema.Document
