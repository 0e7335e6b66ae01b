import ContentSchema.Field.Basic
import ContentSchema.Text.Pieces
import ContentSchema.Text.Space

/-!
# Validation

`Field.validate` checks a value against a field in five steps, and the first one that fails gives
the reason: the kind of the value, its bounds, its length, the form of a text, and the items. Items
are checked in their order, and the value of an entry after its key.
-/
namespace ContentSchema.Field

/-- Whether the type of a field admits the kind of a value. -/
def admits (type : FieldType) (v : Value) : Bool :=
  match type with
  | .bytes | .bytesLine => v.kind == .bytes
  | .ascii | .asciiLine | .uri | .id | .dottedName => v.kind == .text
  | .text | .textLine | .password | .sourceText => v.kind == .text || v.kind == .message
  | .bool => v.kind == .bool
  | .int => v.kind == .int
  | .float => v.kind == .float
  | .decimal => v.kind == .decimal
  | .tuple => v.kind == .tuple
  | .list => v.kind == .list
  | .set | .frozenSet => v.kind == .set
  | .dict => v.kind == .dict
  | .datetime => v.kind == .datetime
  | .date => v.kind == .date
  | .interfaceField | .object => v.kind == .dotted
  | .choice => !v.isContainer

/-- Checks only the kind of a value. -/
def validateType (f : Field) (v : Value) : Except Rejection Unit :=
  if admits f.type v then .ok () else .error (.wrongType f.type v.kind)

/-- Checks that a value is neither below the least nor above the greatest one. -/
def validateBounds (f : Field) (v : Value) : Except Rejection Unit := do
  if let some min := f.min then
    if v.compareBound? min == some .lt then throw (.tooSmall v min)
  if let some max := f.max then
    if v.compareBound? max == some .gt then throw (.tooBig v max)

/-- Checks the length of a value, if the type of the field bounds lengths. -/
def validateLength (f : Field) (v : Value) : Except Rejection Unit :=
  match v.length? with
  | some length =>
    if !f.type.isSized then .ok ()
    else if (length : Int) < f.minLength.toInt then .error (.tooShort length f.minLength)
    else match f.maxLength with
      | some maxLength =>
        if maxLength.toInt < length then .error (.tooLong length maxLength) else .ok ()
      | none => .ok ()
  | none => .ok ()

/-! ## The form of texts -/

/-- Whether a value holds a line break: a line feed in bytes, a line feed or carriage return in what
is shown of a text. -/
def hasLineBreak : Value → Bool
  | .bytes b => b.data.toList.contains 10
  | v => match v.displayText? with
    | some s => s.toList.any fun c => c == '\n' || c == '\r'
    | none => false

/-- ASCII letters and digits. -/
def isAlphanumeric (c : Char) : Bool := c.isAlpha || c.isDigit

/-- Whether a text is a URI: a scheme of letters, digits, plus signs, points and hyphens, a colon,
and anything without white space. -/
def isUri (s : String) : Bool :=
  let cs := s.toList
  let scheme := cs.takeWhile (· != ':')
  let rest := cs.dropWhile (· != ':')
  !rest.isEmpty && !scheme.isEmpty &&
    scheme.all (fun c => isAlphanumeric c || c == '+' || c == '.' || c == '-') &&
    !(rest.drop 1).any Text.isSpace

/-- Whether a text may stand between the points of a dotted name: a letter, then letters, digits and
underscores. -/
def isSegment : List Char → Bool
  | [] => false
  | c :: cs => c.isAlpha && cs.all fun d => isAlphanumeric d || d == '_'

/-- Whether a text is a dotted name: its pieces between points are all segments. -/
def isDottedName (s : String) : Bool := (Text.pieces '.' s.toList).all isSegment

/-- Whether the number of points in a text is within the bounds of the field. -/
def dotsWithin (f : Field) (s : String) : Bool :=
  let dots : Int := s.toList.count '.'
  f.minDots.toInt ≤ dots && f.maxDots.all fun maxDots => dots ≤ maxDots.toInt

/-- Checks the form of a text. -/
def validateText (f : Field) (v : Value) : Except Rejection Unit :=
  if f.type.isLine && hasLineBreak v then .error .notALine
  else match v.plainText? with
    | none => .ok ()
    | some s =>
      match f.type with
      | .ascii | .asciiLine =>
        if s.toList.all fun c => c.toNat < 128 then .ok () else .error (.notAscii s)
      | .uri => if isUri s then .ok () else .error (.invalidUri s)
      | .id => if isUri s || isDottedName s then .ok () else .error (.invalidId s)
      | .dottedName =>
        if isDottedName s && f.dotsWithin s then .ok () else .error (.invalidDottedName s)
      | _ => .ok ()

/-! ## Items -/

/-- The first item that equals an earlier one. -/
def repeated? (earlier : List Value) : List Value → Option Value
  | [] => none
  | v :: vs => if earlier.any (v == ·) then some v else repeated? (earlier ++ [v]) vs

/-- Checks that no item of a sequence is repeated, if the field asks for that. -/
def validateDistinct (f : Field) (items : List Value) : Except Rejection Unit :=
  if f.unique then
    match repeated? [] items with
    | some v => .error (.notUnique v)
    | none => .ok ()
  else .ok ()

/-- Checks that a value is one of the terms, if the terms are known. -/
def validateTerm (f : Field) (v : Value) : Except Rejection Unit :=
  match f.type, f.vocabulary with
  | .choice, some (.inline vocabulary) =>
    if vocabulary.contains v then .ok () else .error (.notInVocabulary v)
  | _, _ => .ok ()

/-- Checks all of a value but its items. -/
def validateShallow (f : Field) (v : Value) : Except Rejection Unit := do
  f.validateType v
  f.validateBounds v
  f.validateLength v
  f.validateText v

mutual

/-- Checks a value against a field. -/
def validate (f : Field) (v : Value) : Except Rejection Unit :=
  match v with
  | .list items => do
    f.validateShallow (.list items)
    validateItems f.valueType items
    f.validateDistinct items
  | .tuple items => do
    f.validateShallow (.tuple items)
    validateItems f.valueType items
    f.validateDistinct items
  | .set items => do
    f.validateShallow (.set items)
    validateItems f.valueType items
  | .dict entries => do
    f.validateShallow (.dict entries)
    validateEntries f.keyType f.valueType entries
  | v => do
    f.validateShallow v
    f.validateTerm v

/-- Checks each item against the field of the items, if there is one. -/
def validateItems (item : Option Field) (items : List Value) : Except Rejection Unit :=
  match items with
  | [] => .ok ()
  | v :: vs => do
    match item with
    | some g => g.validate v
    | none => pure ()
    validateItems item vs

/-- Checks each key and value against their fields, if there are any. -/
def validateEntries (key item : Option Field) (entries : List (Value × Value)) :
    Except Rejection Unit :=
  match entries with
  | [] => .ok ()
  | (k, v) :: es => do
    match key with
    | some g => g.validate k
    | none => pure ()
    match item with
    | some g => g.validate v
    | none => pure ()
    validateEntries key item es

end

/-- Checks a value that may be absent: nothing and the missing value are fine unless the field is
required. -/
def validateOptional (f : Field) (v : Option Value) : Except Rejection Unit :=
  match v with
  | some v =>
    if f.missingValue == some v then
      if f.required then .error .requiredMissing else .ok ()
    else f.validate v
  | none => if f.required then .error .requiredMissing else .ok ()

/-- Sets an attribute of a finished field: a default has to be valid, and a bound has to be of the
kind of the field's values. -/
def setAttribute (f : Field) (name : String) (v : Option Value) : Except ModelError Field := do
  match name, v with
  | "default", some d =>
    if let .error r := f.validate d then throw (.invalid f.name r)
  | "min", some b | "max", some b =>
    if let .error r := f.validateType b then throw (.invalid f.name r)
  | _, _ => pure ()
  f.assign name v

end ContentSchema.Field
