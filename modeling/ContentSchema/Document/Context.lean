import ContentSchema.Document.FieldReader

/-!
# Contexts

What documents are read and written with: the registered field types, the symbols, handlers for
markup beyond that of models, and policies, which shape the schemas of a document.
-/
namespace ContentSchema.Document

open Markup (Element)

/-- A handler of further markup on schemas. -/
structure SchemaHandler where
  /-- The namespace of the markup. -/
  uri : Option String := none
  /-- The prefix for the namespace in written documents. -/
  xmlPrefix : Option String := none
  /-- Takes the markup of an element into its schema. -/
  read : Element → Schema → Except Fault Schema
  /-- Adds the markup of a schema to its element. -/
  write : Schema → Element → Except Fault Element

/-- A handler of further markup on fields. -/
structure FieldHandler where
  /-- The namespace of the markup. -/
  uri : Option String := none
  /-- The prefix for the namespace in written documents. -/
  xmlPrefix : Option String := none
  /-- Takes the markup of the element of a named field into the field's schema. -/
  read : Element → (field : String) → Schema → Except Fault Schema
  /-- Adds the markup of a field of a schema to its element. -/
  write : Schema → Field → Element → Except Fault Element

/-- What a policy decides about a schema, from its name in the document and the root element. -/
structure Policy where
  /-- The module. -/
  module : String → Element → String
  /-- The bases behind those that the document names. -/
  bases : String → Element → List Schema
  /-- The name. -/
  name : String → Element → String

/-- The policy that keeps names and adds no bases. -/
def Policy.default : Policy where
  module := fun _ _ => "ironmodel.generated"
  bases := fun _ _ => []
  name := fun name _ => name

/-- The policy that puts a text before names and adds fixed bases. In the text for the module the
word `name` in braces stands for the name in the document and `root` for the local name of the root
element. -/
def Policy.ofTemplate (module before : String) (bases : List Schema) : Policy where
  module name root :=
    (module.replace "\x7bname\x7d" name).replace "\x7broot\x7d" root.localName
  bases _ _ := bases
  name name _ := before ++ name

/-- A context. -/
structure Context where
  /-- The registered field types. -/
  registry : Registry := Registry.standard
  /-- What dotted names stand for. -/
  resolve : Resolver := SymbolTable.resolve ∅
  /-- The handlers of schemas, in the order of their turns. -/
  schemaHandlers : List SchemaHandler := []
  /-- The handlers of fields, in the order of their turns. -/
  fieldHandlers : List FieldHandler := []
  /-- The policies by name; the default one has the empty name. -/
  policies : NameMap Policy := NameMap.ofList [("", Policy.default)]

namespace Context

instance : Inhabited Context := ⟨{}⟩

/-- The policy with a name. -/
def policy (c : Context) (name : String) : Except Fault Policy :=
  match c.policies.get? name with
  | some p => .ok p
  | none => .error (.unknownPolicy name)

/-- What the fields of a document with a message domain are read in. -/
def scope (c : Context) (domain : Option String) : Scope :=
  { resolve := c.resolve, domain, registry := c.registry }

end Context
end ContentSchema.Document
