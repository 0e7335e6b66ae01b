import ContentSchema.Field.Type
import ContentSchema.Value.Text

/-!
# Why a field rejects a value
-/
namespace ContentSchema

/-- Why a field rejects a value. -/
inductive Rejection where
  /-- The value is of a kind that the field's type does not admit. -/
  | wrongType (expected : FieldType) (actual : Value.Kind)
  /-- There is no value, and the field requires one. -/
  | requiredMissing
  /-- The value lies below the least one. -/
  | tooSmall (value min : Value)
  /-- The value lies above the greatest one. -/
  | tooBig (value max : Value)
  /-- The value is shorter than allowed. -/
  | tooShort (length : Nat) (minLength : Int64)
  /-- The value is longer than allowed. -/
  | tooLong (length : Nat) (maxLength : Int64)
  /-- A single line holds a line break. -/
  | notALine
  /-- A text holds a character outside ASCII. -/
  | notAscii (text : String)
  /-- A text is not a URI. -/
  | invalidUri (text : String)
  /-- A text is not a dotted name, or has too few or too many dots. -/
  | invalidDottedName (text : String)
  /-- A text is neither a URI nor a dotted name. -/
  | invalidId (text : String)
  /-- The value is not one of the vocabulary. -/
  | notInVocabulary (value : Value)
  /-- A collection of distinct items repeats one. -/
  | notUnique (item : Value)

/-- The word that tells this rejection from others. -/
def Rejection.code : Rejection → String
  | .wrongType .. => "WrongType"
  | .requiredMissing => "RequiredMissing"
  | .tooSmall .. => "TooSmall"
  | .tooBig .. => "TooBig"
  | .tooShort .. => "TooShort"
  | .tooLong .. => "TooLong"
  | .notALine => "NotALine"
  | .notAscii _ => "NotAscii"
  | .invalidUri _ => "InvalidUri"
  | .invalidDottedName _ => "InvalidDottedName"
  | .invalidId _ => "InvalidId"
  | .notInVocabulary _ => "NotInVocabulary"
  | .notUnique _ => "NotUnique"

/-- The text of the rejection. -/
def Rejection.message : Rejection → String
  | .wrongType expected actual => s!"expected {expected.valueName}, got {actual.name}"
  | .requiredMissing => "required value is missing"
  | .tooSmall value min => s!"value {value.shown} is smaller than the minimum {min.shown}"
  | .tooBig value max => s!"value {value.shown} is bigger than the maximum {max.shown}"
  | .tooShort length minLength =>
    s!"length {length} is shorter than the minimum length {int64Text minLength}"
  | .tooLong length maxLength =>
    s!"length {length} is longer than the maximum length {int64Text maxLength}"
  | .notALine => "value contains a line break"
  | .notAscii text => s!"value '{text}' is not ASCII"
  | .invalidUri text => s!"'{text}' is not a valid URI"
  | .invalidDottedName text => s!"'{text}' is not a valid dotted name"
  | .invalidId text => s!"'{text}' is not a valid id"
  | .notInVocabulary value => s!"value '{value.shown}' is not in the vocabulary"
  | .notUnique item => s!"collection contains duplicate item '{item.shown}'"

end ContentSchema
