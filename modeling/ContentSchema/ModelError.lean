import ContentSchema.Field.Rejection
import ContentSchema.Vocabulary.Basic

/-!
# Errors of models

What can go wrong when fields, schemas and vocabularies are put together or asked.
-/
namespace ContentSchema

/-- What the value of a field's attribute has to be. -/
inductive AttributeShape where
  /-- A text or a message. -/
  | text
  /-- A truth value. -/
  | bool
  /-- An integer. -/
  | int
  /-- A text or a dotted name. -/
  | name
deriving DecidableEq, Repr

/-- What the shape is called in messages. -/
def AttributeShape.label : AttributeShape → String
  | .text => "text"
  | .bool => "bool"
  | .int => "int"
  | .name => "name"

/-- What tagged values have to be to be merged. -/
inductive MergeShape where
  /-- Lists and tuples, which are joined. -/
  | list
  /-- Dicts, whose entries are united. -/
  | dict
deriving DecidableEq, Repr

/-- What the shape is called in messages. -/
def MergeShape.label : MergeShape → String
  | .list => "list"
  | .dict => "dict"

/-- An error of a model. -/
inductive ModelError where
  /-- A field type has no attribute of this name. -/
  | unknownAttribute (fieldType name : String)
  /-- An attribute was given a value of the wrong kind. -/
  | attributeType (name : String) (expected : AttributeShape) (actual : Value.Kind)
  /-- Neither a schema nor its bases have a field of this name. -/
  | fieldNotFound (schema field : String)
  /-- Two terms of a vocabulary share a value or a token. -/
  | duplicateTerm (repeated : Repetition)
  /-- A choice has no terms. -/
  | missingVocabulary (field : String)
  /-- A choice was given terms from two places. -/
  | conflictingVocabulary (field : String)
  /-- A tagged value cannot be merged with others. -/
  | taggedValueShape (key schema : String) (expected : MergeShape)
  /-- A field rejects the value of one of its attributes. -/
  | invalid (field : String) (cause : Rejection)

/-- The word that tells this error from others. -/
def ModelError.code : ModelError → String
  | .unknownAttribute .. => "UnknownAttribute"
  | .attributeType .. => "AttributeType"
  | .fieldNotFound .. => "FieldNotFound"
  | .duplicateTerm _ => "DuplicateTerm"
  | .missingVocabulary _ => "MissingVocabulary"
  | .conflictingVocabulary _ => "ConflictingVocabulary"
  | .taggedValueShape .. => "TaggedValueShape"
  | .invalid .. => "Invalid"

/-- The text of the error. -/
def ModelError.message : ModelError → String
  | .unknownAttribute fieldType name =>
    s!"field type {fieldType} has no attribute '{name}'"
  | .attributeType name expected actual =>
    s!"attribute '{name}' expects {expected.label}, got {actual.name}"
  | .fieldNotFound schema field => s!"field '{field}' not found in schema '{schema}'"
  | .duplicateTerm (.value v) => s!"duplicate term value '{v.shown}' in vocabulary"
  | .duplicateTerm (.token t) => s!"duplicate term token '{t}' in vocabulary"
  | .missingVocabulary field =>
    s!"choice field '{field}' needs values, a named vocabulary or a source"
  | .conflictingVocabulary field =>
    s!"choice field '{field}' cannot combine several vocabulary sources"
  | .taggedValueShape key schema expected =>
    s!"tagged value '{key}' on schema '{schema}' is not a {expected.label}"
  | .invalid field cause => s!"invalid value for field '{field}': {cause.message}"

end ContentSchema
