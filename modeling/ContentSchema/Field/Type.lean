/-!
# Field types

The 25 standard types of fields, their identifiers, and the classes that decide which attributes a
field has and how its values are checked.
-/
namespace ContentSchema

/-- A standard field type. -/
inductive FieldType where
  /-- Raw bytes. -/
  | bytes
  /-- ASCII text. -/
  | ascii
  /-- One line of bytes. -/
  | bytesLine
  /-- One line of ASCII text. -/
  | asciiLine
  /-- Text. -/
  | text
  /-- One line of text. -/
  | textLine
  /-- A truth value. -/
  | bool
  /-- An integer. -/
  | int
  /-- A floating point number. -/
  | float
  /-- An exact decimal. -/
  | decimal
  /-- An immutable sequence. -/
  | tuple
  /-- A sequence. -/
  | list
  /-- A set. -/
  | set
  /-- An immutable set. -/
  | frozenSet
  /-- One line of secret text. -/
  | password
  /-- A mapping. -/
  | dict
  /-- A day with a time. -/
  | datetime
  /-- A day. -/
  | date
  /-- Source code. -/
  | sourceText
  /-- A URI. -/
  | uri
  /-- A URI or a dotted name. -/
  | id
  /-- A dotted name. -/
  | dottedName
  /-- A reference to a schema. -/
  | interfaceField
  /-- A reference to an object that provides a schema. -/
  | object
  /-- A value of a vocabulary. -/
  | choice
deriving DecidableEq, Repr, Inhabited

namespace FieldType

/-- All standard types, in the order in which they are listed. -/
def all : List FieldType :=
  [.bytes, .ascii, .bytesLine, .asciiLine, .text, .textLine, .bool, .int, .float, .decimal, .tuple,
    .list, .set, .frozenSet, .password, .dict, .datetime, .date, .sourceText, .uri, .id,
    .dottedName, .interfaceField, .object, .choice]

theorem mem_all (t : FieldType) : t ∈ all := by cases t <;> decide

/-- The last part of the identifier. -/
def shortName : FieldType → String
  | .bytes => "Bytes"
  | .ascii => "ASCII"
  | .bytesLine => "BytesLine"
  | .asciiLine => "ASCIILine"
  | .text => "Text"
  | .textLine => "TextLine"
  | .bool => "Bool"
  | .int => "Int"
  | .float => "Float"
  | .decimal => "Decimal"
  | .tuple => "Tuple"
  | .list => "List"
  | .set => "Set"
  | .frozenSet => "FrozenSet"
  | .password => "Password"
  | .dict => "Dict"
  | .datetime => "Datetime"
  | .date => "Date"
  | .sourceText => "SourceText"
  | .uri => "URI"
  | .id => "Id"
  | .dottedName => "DottedName"
  | .interfaceField => "InterfaceField"
  | .object => "Object"
  | .choice => "Choice"

/-- The identifier that documents name the type by. -/
def identifier (t : FieldType) : String := "zope.schema." ++ t.shortName

/-- The type with an identifier. -/
def ofIdentifier? (identifier : String) : Option FieldType :=
  all.find? (·.identifier == identifier)

/-- Sequences and sets. -/
def isCollection : FieldType → Bool
  | .tuple | .list | .set | .frozenSet => true
  | _ => false

/-- Types with a least and a greatest value. -/
def isOrderable : FieldType → Bool
  | .int | .float | .decimal | .date | .datetime => true
  | _ => false

/-- Types whose values are texts. -/
def isTextual : FieldType → Bool
  | .ascii | .asciiLine | .text | .textLine | .password | .sourceText | .uri | .id
  | .dottedName => true
  | _ => false

/-- Types with a least and a greatest length. -/
def isSized (t : FieldType) : Bool :=
  t.isTextual || t.isCollection ||
    match t with
    | .bytes | .bytesLine | .dict => true
    | _ => false

/-- Types whose values hold no line break. -/
def isLine : FieldType → Bool
  | .bytesLine | .asciiLine | .textLine | .password | .uri | .id | .dottedName => true
  | _ => false

/-- What the values of the type are called in messages. -/
def valueName : FieldType → String
  | .bytes | .bytesLine => "bytes"
  | .ascii | .asciiLine => "ASCII text"
  | .bool => "bool"
  | .int => "int"
  | .float => "float"
  | .decimal => "decimal"
  | .tuple => "tuple"
  | .list => "list"
  | .set | .frozenSet => "set"
  | .dict => "dict"
  | .datetime => "datetime"
  | .date => "date"
  | .interfaceField | .object => "dotted name"
  | .choice => "scalar"
  | .text | .textLine | .password | .sourceText | .uri | .id | .dottedName => "text"

end FieldType
end ContentSchema
