import ContentSchema.Fault
import ContentSchema.Field.Validation

/-!
# Fields and text

A scalar value of a field is written as text. `Field.valueOfText` reads such a text by the type of
the field and `Field.textOfValue` writes a value.
-/
namespace ContentSchema.Field

/-- The fault of a text that is no value of the field's type. -/
def invalidText (f : Field) (text : String) (cause : ConversionError) : Fault :=
  .invalidValue f.typeIdentifier text cause

/-- What a reader of numbers or dates makes of a text without the white space around it. -/
def readTrimmed {ε α : Type} (f : Field) (text : String) (read : String → Except ε α)
    (value : α → Value) (cause : ε → ConversionError) : Except Fault Value :=
  match read (Text.trim text) with
  | .ok a => .ok (value a)
  | .error e => .error (f.invalidText text (cause e))

/-- What a dotted name stands for, which has to be something. -/
def resolveName (resolve : Resolver) (identifier : String) : Except Fault Symbol :=
  match resolve identifier with
  | some symbol => .ok symbol
  | none => .error (.unresolved identifier)

/-- Whether the terms of a choice are integers, going by the first of them. -/
def hasIntegerTerms (f : Field) : Bool :=
  match f.vocabulary with
  | some (.inline vocabulary) => (vocabulary.terms.head?.bind (·.value.int?)).isSome
  | _ => false

/-- The value that a text stands for, which need not be valid. -/
def parseText (f : Field) (resolve : Resolver) (text : String) : Except Fault Value :=
  match f.type with
  | .ascii | .asciiLine | .text | .textLine | .password | .sourceText | .uri | .id
  | .dottedName => .ok (.text text)
  | .bytes | .bytesLine => .ok (.bytes text.toUTF8)
  | .bool => .ok (.bool (text == "True" || text == "true" || text == "on"))
  | .int => f.readTrimmed text readInt64 .int .integer
  | .float => f.readTrimmed text Binary64.read .float .float
  | .decimal => f.readTrimmed text Decimal.read .decimal .decimal
  | .date => f.readTrimmed text Calendar.readDate .date .calendar
  | .datetime => f.readTrimmed text Calendar.readDatetime .datetime .calendar
  | .interfaceField => do
    let identifier := Text.trim text
    match ← resolveName resolve identifier with
    | .schema _ => return .dotted identifier
    | other => throw (.wrongSymbol identifier .schema other.kind)
  | .object => do
    let identifier := Text.trim text
    let _ ← resolveName resolve identifier
    return .dotted identifier
  | .choice =>
    if f.hasIntegerTerms then f.readTrimmed text readInt64 .int .integer else .ok (.text text)
  | .tuple | .list | .set | .frozenSet | .dict => .error (f.invalidText text .container)

/-- A value, if the field does not reject it or is not asked. -/
def accept (f : Field) (validate : Bool) (v : Value) : Except Fault Value :=
  if validate then
    match f.validate v with
    | .ok () => .ok v
    | .error r => .error (.rejected f.name r)
  else .ok v

/-- The value that a text stands for. -/
def valueOfText (f : Field) (resolve : Resolver) (validate : Bool) (text : String) :
    Except Fault Value := do
  f.accept validate (← f.parseText resolve text)

/-- The text of bytes, which have to be UTF-8. -/
def textOfBytes (f : Field) (b : ByteArray) : Except Fault String :=
  let bytes := b.data.toList
  match Text.utf8Error? bytes with
  | some e => .error (.notSupported (.binary f.name e))
  | none => .ok (String.ofList (Text.utf8Lossy bytes))

/-- The text of a scalar value. The values of object fields have none. -/
def textOfValue (f : Field) (v : Value) : Except Fault String :=
  if f.type = .object then .error (.notSupported (.objectValue f.name))
  else match v with
    | .bytes b => f.textOfBytes b
    | v => match v.text? with
      | some text => .ok text
      | none => .error (.notSupported (.textless v.kind f.typeIdentifier))

end ContentSchema.Field
