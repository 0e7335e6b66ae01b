import ContentSchema.Calendar.Text
import ContentSchema.Markup.DocumentError
import ContentSchema.ModelError
import ContentSchema.Number.Binary64.Reader
import ContentSchema.Number.Decimal.Reader
import ContentSchema.Symbol

/-!
# Faults

What can go wrong when model documents are read and written. A fault is a cause; `Diagnostic` adds
the place.
-/
namespace ContentSchema

/-- Why a text is no value of a field's type. -/
inductive ConversionError where
  /-- It is no integer. -/
  | integer (cause : IntegerError)
  /-- It is no floating point number. -/
  | float (cause : Binary64.ReadError)
  /-- It is no decimal. -/
  | decimal (cause : Decimal.ReadError)
  /-- It is no day, or no day with a time. -/
  | calendar (cause : Calendar.ReadError)
  /-- The values of the type have no text. -/
  | container
  /-- An item is empty, and empty items have no value. -/
  | emptyItem

/-- The text of the error. -/
def ConversionError.message : ConversionError → String
  | .integer cause => cause.message
  | .float cause => cause.message
  | .decimal cause => cause.message
  | .calendar cause => cause.message
  | .container => "no text form for container values"
  | .emptyItem => "item element holds no value"

/-- What documents cannot express. -/
inductive Unsupported where
  /-- A value of an object field. -/
  | objectValue (field : String)
  /-- Bytes that are no text. -/
  | binary (field : String) (cause : Text.Utf8Error)
  /-- A value without a text, for a field of the given type. -/
  | textless (kind : Value.Kind) (fieldType : String)
  /-- A choice without terms. -/
  | noTerms (field : String)
  /-- A choice whose terms are only known to a source. -/
  | sourceTerms (field source : String)
  /-- A term that is neither a text nor an integer. -/
  | termKind (field : String) (kind : Value.Kind)
  /-- A term whose token is not that of its value. -/
  | termToken (field token : String)
  /-- Something else, in the words of whoever found it. -/
  | other (text : String)

/-- The text of the limitation. -/
def Unsupported.message : Unsupported → String
  | .objectValue field => s!"values of object field '{field}' cannot be written as text"
  | .binary field cause => s!"bytes of '{field}' are not valid UTF-8: {cause.message}"
  | .textless kind fieldType => s!"{kind.name} value cannot be written as text for {fieldType}"
  | .noTerms field => s!"choice field '{field}' has no vocabulary to export"
  | .sourceTerms field source =>
    s!"choice field '{field}' takes its terms from source '{source}', which cannot be exported"
  | .termKind field kind =>
    s!"choice field '{field}' has a {kind.name} term; only text and integer terms can be exported"
  | .termToken field token =>
    s!"choice field '{field}' has term token '{token}' that does not derive from its value"
  | .other text => text

/-- Why a file cannot be read as text. -/
inductive FileError where
  /-- There is no such file. -/
  | notFound
  /-- It is a directory. -/
  | isDirectory
  /-- A file stands where a directory is needed. -/
  | notDirectory
  /-- Its bytes are not UTF-8. -/
  | notText
deriving DecidableEq, Repr

/-- The text of the error. -/
def FileError.message : FileError → String
  | .notFound => "No such file or directory (os error 2)"
  | .isDirectory => "Is a directory (os error 21)"
  | .notDirectory => "Not a directory (os error 20)"
  | .notText => "stream did not contain valid UTF-8"

/-- Why a model document cannot be read or written. -/
inductive Fault where
  /-- The markup. -/
  | markup (cause : Markup.DocumentError)
  /-- The file. -/
  | file (cause : FileError)
  /-- An element lacks an attribute. -/
  | missingAttribute (element name : String)
  /-- An attribute has a value that means nothing. -/
  | invalidAttribute (element name value : String)
  /-- A field has a type that is not registered. -/
  | unknownFieldType (fieldType field : String)
  /-- A nested field has a type that is not registered. -/
  | unsupportedNestedType (fieldType name : String)
  /-- A fieldset has no name. -/
  | unnamedFieldset (schema : String)
  /-- There is no such policy. -/
  | unknownPolicy (name : String)
  /-- A dotted name stands for nothing. -/
  | unresolved (identifier : String)
  /-- A dotted name stands for a symbol of the wrong kind. -/
  | wrongSymbol (identifier : String) (expected actual : Symbol.Kind)
  /-- A text is no value of a field's type. -/
  | invalidValue (fieldType text : String) (cause : ConversionError)
  /-- A field rejects a value. -/
  | rejected (field : String) (cause : Rejection)
  /-- A document cannot express the model. -/
  | notSupported (cause : Unsupported)
  /-- The root element is another one than that of a model. -/
  | wrongRoot (found : String)
  /-- The model itself does not fit together. -/
  | model (cause : ModelError)

namespace Fault

/-- The word that tells this kind of fault from others. -/
def code : Fault → String
  | .markup (.malformed ..) => "Syntax"
  | .markup (.badReference _) => "Escape"
  | .markup _ | .wrongRoot _ => "InvalidStructure"
  | .file _ => "Io"
  | .missingAttribute .. => "MissingAttribute"
  | .invalidAttribute .. => "InvalidAttribute"
  | .unknownFieldType .. => "UnknownFieldType"
  | .unsupportedNestedType .. => "UnsupportedNestedType"
  | .unnamedFieldset _ => "UnnamedFieldset"
  | .unknownPolicy _ => "UnknownPolicy"
  | .unresolved _ => "Unresolved"
  | .wrongSymbol .. => "MissingCapability"
  | .invalidValue .. => "InvalidValue"
  | .rejected .. => "Validation"
  | .notSupported _ => "NotSupported"
  | .model _ => "Model"

/-- The word for the model error or rejection behind the fault. -/
def causeCode? : Fault → Option String
  | .model cause => some cause.code
  | .rejected _ cause => some cause.code
  | _ => none

/-- The text of the fault. -/
def message : Fault → String
  | .markup cause => cause.message
  | .file cause => s!"IO error: {cause.message}"
  | .missingAttribute element name =>
    s!"missing required attribute '{name}' on element '{element}'"
  | .invalidAttribute element name value =>
    s!"invalid value '{value}' for attribute '{name}' on element '{element}'"
  | .unknownFieldType fieldType field => s!"unknown field type '{fieldType}' for field '{field}'"
  | .unsupportedNestedType fieldType name =>
    s!"unsupported type '{fieldType}' for nested attribute '{name}'"
  | .unnamedFieldset schema => s!"fieldset in schema '{schema}' has no name"
  | .unknownPolicy name => s!"unknown schema policy '{name}'"
  | .unresolved identifier => s!"cannot resolve '{identifier}'"
  | .wrongSymbol identifier expected actual =>
    s!"'{identifier}' is a {actual.name}, expected a {expected.name}"
  | .invalidValue fieldType text cause =>
    s!"cannot convert '{text}' for {fieldType}: {cause.message}"
  | .rejected field cause => s!"invalid value for '{field}': {cause.message}"
  | .notSupported cause => s!"not supported: {cause.message}"
  | .wrongRoot found =>
    s!"invalid model structure: expected a <model> root element, found <{found}>"
  | .model cause => cause.message

/-- The line that the fault itself names: that of an error in the markup. -/
def line? : Fault → Option Nat
  | .markup (.malformed line _) => some line
  | _ => none

end Fault
end ContentSchema
