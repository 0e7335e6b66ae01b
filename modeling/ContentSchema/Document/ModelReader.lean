import ContentSchema.Diagnostic
import ContentSchema.Document.Context
import ContentSchema.Markup.Reader
import ContentSchema.Model
import ContentSchema.Schema.Inheritance

/-!
# Reading models

A model document has a schema for each `schema` element inside its root element. A schema element
names its bases and holds fields, fieldsets and invariants in any order; elements that are not of
the model are passed over. A field whose name a base knows takes the place of that base's field.

`Context.parse` reads a document and gives a diagnostic with the innermost element that was being
read when something went wrong.
-/
namespace ContentSchema.Document

open Markup (Element)

/-- What the elements of a schema hold. -/
structure SchemaParts where
  /-- The fields by name. -/
  fields : NameMap Field := ∅
  /-- The element of each field; the last one of a name. -/
  elements : NameMap Element := ∅
  /-- The fieldsets. -/
  fieldsets : List Fieldset := []
  /-- The invariants. -/
  invariants : List Invariant := []

/-- The places of the fields that bases know, by name; later bases win. -/
def inheritedOrders (bases : List Schema) : NameMap Nat :=
  bases.foldl (fun orders b =>
    b.allFields.entries.foldl (fun orders e => orders.insert e.1 e.2.order) orders) ∅

/-- An attribute that an element has to have. -/
def requireAttribute (e : Element) (name : String) : Except Fault String :=
  match e.get? name with
  | some v => .ok v
  | none => .error (.missingAttribute e.localName name)

/-- The field of a `field` element, under its name. -/
def readNamedField (s : Scope) (orders : NameMap Nat) (e : Element) : Reading (String × Field) := do
  let name ← requireAttribute e "name"
  let type ← requireAttribute e "type"
  match s.registry.get? type with
  | none => throw (.unknownFieldType type name)
  | some codec =>
    let f ← readField s codec e
    return (name, { f with order := (orders.get? name).getD f.order })

/-- Takes up the field of an element; a field of the same name gives way. -/
def SchemaParts.addField (parts : SchemaParts) (name : String) (f : Field) (e : Element) :
    SchemaParts :=
  { parts with fields := parts.fields.insert name f, elements := parts.elements.insert name e }

/-- The order of a fieldset element. -/
def readFieldsetOrder (e : Element) : Except Fault Int64 :=
  match e.get? "order" with
  | none => .ok Fieldset.defaultOrder
  | some text => match readInt64 (Text.trim text) with
    | .ok n => .ok n
    | .error _ => .error (.invalidAttribute "fieldset" "order" text)

/-- The fieldset that a fieldset element describes, without its fields. -/
def newFieldset (name : String) (e : Element) : Except Fault Fieldset :=
  return { name, label := some ((e.get? "label").getD name), description := e.get? "description"
           order := ← readFieldsetOrder e }

/-- Takes up the fields of a fieldset element. The first element with a name describes the fieldset;
further ones only add fields. -/
def readFieldset (s : Scope) (schemaName : String) (orders : NameMap Nat) (parts : SchemaParts)
    (e : Element) : Reading SchemaParts :=
  match e.get? "name" with
  | none => throw (.unnamedFieldset schemaName)
  | some name => do
    let parts ← if parts.fieldsets.any (·.name == name) then pure parts
      else pure { parts with fieldsets := parts.fieldsets ++ [← newFieldset name e] }
    (e.modelChildren "field").foldlM (fun parts child => Reading.within child.line do
      let (field, f) ← readNamedField s orders child
      let parts := parts.addField field f child
      return { parts with
        fieldsets := Schema.mergeFieldset { name, fields := [field] } parts.fieldsets }) parts

/-- The invariant that a dotted name stands for. -/
def resolveInvariant (resolve : Resolver) (identifier : String) : Except Fault Invariant := do
  match ← Field.resolveName resolve identifier with
  | .invariant i => return i
  | other => throw (.wrongSymbol identifier .invariant other.kind)

/-- The schema that a dotted name stands for. -/
def resolveSchema (resolve : Resolver) (identifier : String) : Except Fault Schema := do
  match ← Field.resolveName resolve identifier with
  | .schema s => return s
  | other => throw (.wrongSymbol identifier .schema other.kind)

/-- Takes up what an element inside a schema element holds. -/
def readPart (s : Scope) (schemaName : String) (orders : NameMap Nat) (parts : SchemaParts)
    (e : Element) : Reading SchemaParts :=
  if !e.isModelElement then return parts
  else Reading.within e.line do
    match e.localName with
    | "field" => do
      let (name, f) ← readNamedField s orders e
      return parts.addField name f e
    | "fieldset" => readFieldset s schemaName orders parts e
    | "invariant" => do
      let i ← resolveInvariant s.resolve (dottedName e)
      return { parts with invariants := parts.invariants ++ [i] }
    | _ => return parts

/-- The schema of what a schema element holds, with the name, module and further bases that the
policy decides on. Every schema ends its bases with the root schema. -/
def SchemaParts.toSchema (parts : SchemaParts) (policy : Policy) (name : String) (root : Element)
    (bases : List Schema) : Schema :=
  let empty : Schema :=
    { name := policy.name name root
      module := policy.module name root
      bases := bases ++ policy.bases name root ++ [Schema.root]
      fieldsets := parts.fieldsets
      invariants := parts.invariants }
  parts.fields.values.foldl Schema.insertField empty

/-- Gives the element of a field to the handlers. -/
def handleField (handlers : List FieldHandler) (elements : NameMap Element) (schema : Schema)
    (name : String) : Reading Schema :=
  match elements.get? name with
  | none => return schema
  | some e => Reading.within e.line <|
    handlers.foldlM (fun schema h => Reading.ofExcept (h.read e name schema)) schema

/-- The schema of a schema element, with its name in the document. -/
def readSchema (c : Context) (s : Scope) (policy : Policy) (root e : Element) :
    Reading (String × Schema) := do
  let name := (e.get? "name").getD ""
  let bases ← (Text.words ((e.get? "based-on").getD "")).mapM fun identifier =>
    Reading.ofExcept (resolveSchema s.resolve identifier)
  let parts ← e.children.foldlM (readPart s name (inheritedOrders bases)) {}
  let schema := parts.toSchema policy name root bases
  let names := schema.fieldsInOrder.map (·.name)
  let schema ← if c.fieldHandlers.isEmpty then pure schema
    else names.foldlM (handleField c.fieldHandlers parts.elements) schema
  let schema ← c.schemaHandlers.foldlM (fun schema h => Reading.ofExcept (h.read e schema)) schema
  return (name, schema)

/-- The model of a root element. -/
def readRoot (c : Context) (policy : Policy) (root : Element) : Reading Model :=
  Reading.within root.line do
    if !root.isModelElement || root.localName != "model" then
      throw (.wrongRoot root.localName)
    let s := c.scope (root.get? domainAttribute)
    (root.modelChildren "schema").foldlM (fun model e => Reading.within e.line do
      let (name, schema) ← readSchema c s policy root e
      return model.insert name schema) Model.empty

/-- The model of a document. -/
def readModel (c : Context) (policyName document : String) : Reading Model := do
  let policy ← c.policy policyName
  let root ← Reading.ofExcept ((Element.read document).mapError .markup)
  readRoot c policy root

/-- The model of a document under a policy, or what is wrong with the document and where. Fields are
numbered from `first`; the number after the last one goes with the answer. -/
def Context.parse (c : Context) (file : Option String) (policy document : String) (first : Nat) :
    Except Diagnostic Model × Nat :=
  let (result, progress) := (readModel c policy document).start { nextNumber := first }
  let located (cause : Fault) := Diagnostic.locate ⟨cause, none⟩ file progress.line? document
  (result.mapError located, progress.nextNumber)

end ContentSchema.Document
