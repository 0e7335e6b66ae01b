import ContentSchema.Field.Basic

/-!
# Schemas

A schema is a named set of fields. It may build on other schemas, its bases, and it carries tagged
values, fieldsets, which group its fields, and invariants, which join several of them. This module
holds the parts of a single schema; `Schema.Inheritance` adds what comes from the bases.
-/
namespace ContentSchema

/-- The order of fieldsets for which none is given. -/
def Fieldset.defaultOrder : Int64 := 9999

/-- A named group of fields. -/
structure Fieldset where
  /-- The name. -/
  name : String
  /-- What the group is called on screen. -/
  label : Option String := some name
  /-- What the group is for. -/
  description : Option String := none
  /-- The place among fieldsets. -/
  order : Int64 := Fieldset.defaultOrder
  /-- The names of its fields. -/
  fields : List String := []
deriving DecidableEq, Repr

namespace Fieldset

/-- Adds field names that are not yet in the group. -/
def addFields (s : Fieldset) (names : List String) : Fieldset :=
  { s with fields := names.foldl (fun fs n => if fs.contains n then fs else fs ++ [n]) s.fields }

end Fieldset

/-- A rule about the values of several fields. -/
structure Invariant where
  /-- The dotted name. -/
  identifier : String
  /-- What is wrong with the values, if anything is. -/
  failure? : NameMap Value → Option String

namespace Invariant

/-- One value does not come after another; the rule holds while one of them is absent. -/
def notAfter (identifier first second : String) : Invariant where
  identifier := identifier
  failure? data :=
    match data.get? first, data.get? second with
    | some v, some w => if v.compare w == .gt then some s!"{first} after {second}" else none
    | _, _ => none

/-- A value is present. -/
def present (identifier field : String) : Invariant where
  identifier := identifier
  failure? data := if data.contains field then none else some s!"{field} is required"

/-- A rule that fails with a text, or never. -/
def constant (identifier : String) (text : Option String) : Invariant where
  identifier := identifier
  failure? _ := text

end Invariant

/-- A schema. -/
structure Schema where
  /-- The name. -/
  name : String
  /-- The module that the schema belongs to. -/
  module : String
  /-- The schemas that it builds on. -/
  bases : List Schema := []
  /-- Its own fields. -/
  fields : NameMap Field := ∅
  /-- Its own tagged values. -/
  tags : NameMap Value := ∅
  /-- Its fieldsets, as declared. -/
  fieldsets : List Fieldset := []
  /-- Its own invariants. -/
  invariants : List Invariant := []

namespace Schema

instance : Inhabited Schema := ⟨{ name := "", module := "" }⟩

/-- The dotted name of a module's member. -/
def identifierOf (module name : String) : String :=
  if module.isEmpty then name else module ++ "." ++ name

/-- The dotted name. -/
def identifier (s : Schema) : String := identifierOf s.module s.name

/-- What tells schemas apart. -/
def key (s : Schema) : String × String := (s.name, s.module)

/-- Whether two are the same schema, which they are when their names and modules agree. -/
def sameAs (s t : Schema) : Bool := s.key == t.key

/-- The identifier of the root schema. -/
def rootIdentifier : String := "ironmodel.model.Schema"

/-- The schema that all schemas of documents build on. -/
def root : Schema := { name := "Schema", module := "ironmodel.model" }

/-- Whether this is the root schema. -/
def isRoot (s : Schema) : Bool := s.identifier == rootIdentifier

/-! ## Fields -/

/-- Adds a field under its name, or replaces the one there; it belongs to this schema then. -/
def insertField (s : Schema) (f : Field) : Schema :=
  { s with fields := s.fields.insert f.name { f with interface := some s.identifier } }

/-- Removes a field. -/
def eraseField (s : Schema) (name : String) : Schema := { s with fields := s.fields.erase name }

/-- Changes a field of the schema's own, which stays under its key. -/
def changeField (s : Schema) (name : String) (change : Field → Except ModelError Field) :
    Except ModelError Schema :=
  match s.fields.get? name with
  | none => .error (.fieldNotFound s.identifier name)
  | some f => return { s with fields := s.fields.insert name (← change f) }

/-- The fields in the order of their places. -/
def fieldsInOrder (s : Schema) : List Field := Field.sortByOrder (·.order) s.fields.values

/-- The marker of a primary field. -/
def primaryMarker : String := "ironmodel.interfaces.IPrimaryField"

/-- Marks fields as primary. They all have to be fields of the schema itself. -/
def markPrimary (s : Schema) (names : List String) : Except ModelError Schema :=
  match names.find? fun n => !s.fields.contains n with
  | some missing => .error (.fieldNotFound s.identifier missing)
  | none =>
    .ok { s with fields := names.foldl (fun fs n => fs.modify n (·.mark primaryMarker)) s.fields }

/-- The first field that is marked as primary. -/
def primaryField? (s : Schema) : Option Field := s.fieldsInOrder.find? (·.provides primaryMarker)

/-! ## Tagged values -/

/-- Sets a tagged value. -/
def setTag (s : Schema) (key : String) (v : Value) : Schema :=
  { s with tags := s.tags.insert key v }

/-! ## Fieldsets -/

/-- The fieldset with a name. -/
def fieldset? (s : Schema) (name : String) : Option Fieldset := s.fieldsets.find? (·.name == name)

/-- Adds a fieldset to a list; one with the same name takes up its fields instead. -/
def mergeFieldset (added : Fieldset) : List Fieldset → List Fieldset
  | [] => [added]
  | s :: ss => if s.name == added.name then s.addFields added.fields :: ss
    else s :: mergeFieldset added ss

/-- Adds a fieldset, or its fields to the fieldset of its name. -/
def addFieldset (s : Schema) (added : Fieldset) : Schema :=
  { s with fieldsets := mergeFieldset added s.fieldsets }

/-- The fieldsets by their order; those with the same order stay as declared. -/
def sortedFieldsets (s : Schema) : List Fieldset :=
  s.fieldsets.mergeSort fun a b => a.order ≤ b.order

end Schema
end ContentSchema
