import ContentSchema.Document.Content
import ContentSchema.Document.FieldCodec
import ContentSchema.Document.Reading

/-!
# Reading fields

A field is read from its element in two rounds. First come the attributes that describe it, in the
order of their elements. Then those that hold a value of the field itself are read with the field so
far: the least and the greatest value, the default and the missing value. Only the first element of
each of these counts.
-/
namespace ContentSchema.Document

open Markup (Element)

/-- What the reading of fields looks things up in. -/
structure Scope extends Surroundings where
  /-- The registered field types. -/
  registry : Registry

/-- The field by which the value of an attribute is read and written that is not of the field's own
type. -/
def attributeField (kind : AttributeKind) : Field :=
  Field.ofType (match kind with
    | .text => .text
    | .bool => .bool
    | .int => .int
    | .schemaRef => .interfaceField
    | .defaultFactory | .source => .dottedName
    | _ => .textLine)

/-- The dotted name in an element. -/
def dottedName (e : Element) : String := Text.trim (e.text.getD "")

/-! ## Terms -/

/-- The term of an item with a key, which is the token of its value. A title that repeats the value
is none. -/
def readKeyedTerm (s : Scope) (e : Element) : Except Fault Term := do
  match e.get? keyAttribute with
  | none => throw (.missingAttribute itemTag keyAttribute)
  | some key =>
    let value := (Token.unescape? key).getD key
    let title ← decode s.toSurroundings false (Field.ofType .text) e
    let titled := title.filter fun t => t.plainText? != some value
    return { Term.ofValue (.text value) with title := titled }

/-- The vocabulary of the items inside an element. If any has a key, all of them need one. -/
def readVocabulary (s : Scope) (e : Element) : Reading Vocabulary := do
  let items := e.modelChildren itemTag
  let keyed := items.any fun i => (i.get? keyAttribute).isSome
  let terms ← items.mapM fun i => Reading.within i.line <| Reading.ofExcept <|
    if keyed then readKeyedTerm s i else .ok (Term.ofValue (.text (i.text.getD "")))
  Reading.ofModel ((Vocabulary.ofTerms terms).mapError .duplicateTerm)

/-! ## Attributes -/

/-- The vocabulary or source that a dotted name stands for. -/
def resolveTerms (resolve : Resolver) (identifier : String) : Except Fault TermSource := do
  match ← Field.resolveName resolve identifier with
  | .vocabulary v => return .inline v
  | .source => return .source identifier
  | other => throw (.wrongSymbol identifier .source other.kind)

/-- Reads an attribute that is neither a nested field nor a value of the field's own type. -/
def readAttribute (s : Scope) (f : Field) (spec : AttributeSpec) (e : Element) : Reading Field :=
  match spec.kind with
  | .schemaRef => do
    let identifier := dottedName e
    match ← Field.resolveName s.resolve identifier with
    | .schema _ => Reading.ofModel (f.assign spec.name (some (.dotted identifier)))
    | other => throw (.wrongSymbol identifier .schema other.kind)
  | .defaultFactory => do
    let identifier := dottedName e
    match ← Field.resolveName s.resolve identifier with
    | .defaultFactory factory => return { f with defaultFactory := some factory }
    | other => throw (.wrongSymbol identifier .defaultFactory other.kind)
  | .values => do
    let vocabulary ← readVocabulary s e
    Reading.ofModel (f.setVocabulary (.inline vocabulary))
  | .source => do
    let source ← resolveTerms s.resolve (dottedName e)
    Reading.ofModel (f.setVocabulary source)
  | kind => do
    let v ← decode s.toSurroundings true (attributeField kind) e
    Reading.ofModel (f.assign spec.name v)

/-- The codec of the nested field that an element holds. -/
def nestedCodec (s : Scope) (spec : AttributeSpec) (e : Element) : Except Fault FieldCodec :=
  match e.get? "type" with
  | none => .error (.missingAttribute spec.name "type")
  | some type => match s.registry.get? type with
    | some codec => .ok codec
    | none => .error (.unsupportedNestedType type spec.name)

/-- The attribute that an element inside a field's element holds, if it is read. -/
def attributeOf? (codec : FieldCodec) (e : Element) : Option AttributeSpec :=
  if e.isModelElement && codec.reads e.localName then codec.attributes.get? e.localName else none

/-- The attributes with values of the field's own type, in the order in which they are read. -/
def ownTypeAttributes : List String := ["min", "max", "default", "missing_value"]

/-- Reads an attribute with a value of the field's own type from the first of the elements that
holds it. -/
def readOwnType (s : Scope) (codec : FieldCodec) (children : List Element) (f : Field)
    (name : String) : Reading Field :=
  let own := children.filter fun c => (attributeOf? codec c).any (·.kind.isOwnType)
  match own.find? (·.localName == name) with
  | none => return f
  | some e => Reading.within e.line do
    let validate := (codec.attributes.get? name).any (·.kind == .ownType)
    let v ← decode s.toSurroundings validate f e
    Reading.ofModel (f.assign name v)

/-- A new field of a codec, without attributes. -/
def newField (codec : FieldCodec) (name : String) (order : Nat) : Field :=
  { name, order, type := codec.type
    typeName := if codec.identifier == codec.type.identifier then none else some codec.identifier }

mutual

/-- The field of an element. -/
def readField (s : Scope) (codec : FieldCodec) : Element → Reading Field
  | ⟨tag, attributes, children, text, line, namespaces⟩ => do
    let e : Element := ⟨tag, attributes, children, text, line, namespaces⟩
    let f := newField codec ((e.get? "name").getD "") (← Reading.takeNumber)
    let f ← readAttributes s codec f children
    let f ← ownTypeAttributes.foldlM (readOwnType s codec children) f
    Reading.ofModel f.finish

/-- Reads the attributes of a field that come first, from the elements inside its element. -/
def readAttributes (s : Scope) (codec : FieldCodec) (f : Field) : List Element → Reading Field
  | [] => return f
  | e :: es => do
    match attributeOf? codec e with
    | none => readAttributes s codec f es
    | some spec =>
      if spec.kind.isOwnType then readAttributes s codec f es
      else
        let f ← Reading.within e.line <|
          if spec.kind = .nestedField then do
            let nested ← readField s (← nestedCodec s spec e) e
            Reading.ofModel (f.setNested spec.name (some nested))
          else readAttribute s f spec e
        readAttributes s codec f es

end

end ContentSchema.Document
