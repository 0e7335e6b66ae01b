import ContentSchema.Document.Context
import ContentSchema.Document.FieldWriter
import ContentSchema.Markup.Writer
import ContentSchema.Model
import ContentSchema.Schema.Inheritance

/-!
# Writing models

A schema is written with its bases, its invariants, the fields of its own that no fieldset lists,
and its fieldsets with their fields. The message domain that is met first goes to the root
element, and elements name a domain only where it is another one.
-/
namespace ContentSchema.Document

open Markup (Element i18nNamespace i18nPrefix modelNamespace)

/-- The element of a field of a schema. -/
def fieldElement (c : Context) (schema : Schema) (f : Field) : Except Fault Element :=
  match c.registry.get? f.typeIdentifier with
  | none => .error (.unknownFieldType f.typeIdentifier f.name)
  | some codec => do
    let e ← writeField c.registry f codec (some f.name) "field"
    c.fieldHandlers.foldlM (fun e h => h.write schema f e) e

/-- An attribute, if it has a value that is not empty. -/
def optionalAttribute (name : String) (value : Option String) : List (String × String) :=
  match value.filter (!·.isEmpty) with
  | some v => [(name, v)]
  | none => []

/-- The element of a fieldset. -/
def fieldsetElement (c : Context) (schema : Schema) (s : Fieldset) : Except Fault Element := do
  let children ← s.fields.mapM fun name => do
    fieldElement c schema (← (schema.require name).mapError .model)
  let order := if s.order = Fieldset.defaultOrder then [] else [("order", int64Text s.order)]
  return { tag := "fieldset"
           attributes := ("name", s.name) :: optionalAttribute "label" s.label ++
             optionalAttribute "description" s.description ++ order
           children }

/-- The fields of a schema that no fieldset lists. -/
def ungroupedFields (schema : Schema) : List Field :=
  schema.fieldsInOrder.filter fun f => !schema.fieldsets.any (·.fields.contains f.name)

/-- The element of a schema under a name. -/
def schemaElement (c : Context) (name : String) (schema : Schema) : Except Fault Element := do
  let bases := (schema.bases.filter (!·.isRoot)).map (·.identifier)
  let invariants := schema.invariants.map fun i =>
    ({ tag := "invariant", text := some i.identifier } : Element)
  let fields ← (ungroupedFields schema).mapM (fieldElement c schema)
  let fieldsets ← schema.fieldsets.mapM (fieldsetElement c schema)
  let basedOn := if bases.isEmpty then [] else [("based-on", " ".intercalate bases)]
  let e : Element :=
    { tag := "schema"
      attributes := optionalAttribute "name" (some name) ++ basedOn
      children := invariants ++ fields ++ fieldsets }
  c.schemaHandlers.foldlM (fun e h => h.write schema e) e

/-! ## The root element -/

/-- The prefixes that handlers announce for their namespaces, in the order of the prefixes. Of
several namespaces for one prefix the last one counts; the prefix of the attributes of messages is
taken. -/
def announcedPrefixes (c : Context) : NameMap String :=
  let announced := c.schemaHandlers.map (fun h => (h.xmlPrefix, h.uri)) ++
    c.fieldHandlers.map fun h => (h.xmlPrefix, h.uri)
  announced.foldl (fun prefixes a =>
    match a with
    | (some xmlPrefix, some uri) =>
      if xmlPrefix == i18nPrefix then prefixes else prefixes.insert xmlPrefix uri
    | _ => prefixes) ∅

/-- Takes the domain of an element that holds a message. The first domain is that of the root
element, and an element with the same domain does not name it. -/
def takeDomain (e : Element) (rootDomain : Option String) : Element × Option String :=
  if (e.get? translateAttribute).isNone then (e, rootDomain)
  else
    let domain := (e.get? domainAttribute).orElse fun _ => rootDomain
    let rootDomain := rootDomain.orElse fun _ => domain
    (if domain == rootDomain then e.erase domainAttribute else e, rootDomain)

/-- Moves the message domain to the root element. -/
def hoistDomain (root : Element) : Element :=
  let (children, domain) := Element.walkAll takeDomain (root.get? domainAttribute) root.children
  let root := { root with children }
  match domain.filter (!·.isEmpty) with
  | some d => root.set domainAttribute d
  | none => root

/-- The root element of a document with schemas under names. -/
def modelElement (c : Context) (schemas : List (String × Schema)) : Except Fault Element := do
  let root : Element := { tag := "model" }
  let root := root.declare (some i18nPrefix) i18nNamespace
  let root := (announcedPrefixes c).entries.foldl (fun e p => e.declare (some p.1) p.2) root
  let root := root.declare none modelNamespace
  let children ← schemas.mapM fun s => schemaElement c s.1 s.2
  return hoistDomain { root with children }

/-- The document of a model. -/
def Context.write (c : Context) (pretty : Bool) (m : Model) : Except Fault String := do
  let root ← modelElement c m.entries
  (root.write pretty).mapError .markup

/-- The document of one schema under a name. -/
def Context.writeSchema (c : Context) (pretty : Bool) (name : String) (s : Schema) :
    Except Fault String := do
  let root ← modelElement c [(name, s)]
  (root.write pretty).mapError .markup

end ContentSchema.Document
