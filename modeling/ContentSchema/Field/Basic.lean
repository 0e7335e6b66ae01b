import ContentSchema.Field.Attribute
import ContentSchema.ModelError
import ContentSchema.NameMap

/-!
# Fields

A field is one named, typed slot of a schema. Which attributes it has is decided by its type, but
every field carries the data of all of them. A field under construction is a field too:
`Field.assign` sets an attribute without checking the value against the field, and `Field.finish`
checks what only a complete field can answer.
-/
namespace ContentSchema

/-- A named way to compute a default. -/
structure DefaultFactory where
  /-- The dotted name. -/
  identifier : String
  /-- Whether the factory asks for the object that gets the default. -/
  contextAware : Bool := false
  /-- What the factory gives. -/
  product : Value

/-- A field of a schema. -/
structure Field where
  /-- The name. -/
  name : String := ""
  /-- The type. -/
  type : FieldType
  /-- The identifier that replaces the one of the type. -/
  typeName : Option String := none
  /-- The title shown to users. -/
  title : Value := .text ""
  /-- The help text. -/
  description : Value := .text ""
  /-- Whether a value has to be given. -/
  required : Bool := true
  /-- Whether the value stays as it was given first. -/
  readonly : Bool := false
  /-- The default. -/
  default : Option Value := none
  /-- The value that stands for none. -/
  missingValue : Option Value := none
  /-- What computes the default when there is none. -/
  defaultFactory : Option DefaultFactory := none
  /-- The place among fields: the number of the field's creation, unless one was set. -/
  order : Nat := 0
  /-- The identifier of the schema that the field belongs to. -/
  interface : Option String := none
  /-- The markers. -/
  markers : NameSet := ∅
  /-- The least value. -/
  min : Option Value := none
  /-- The greatest value. -/
  max : Option Value := none
  /-- The least length. -/
  minLength : Int64 := 0
  /-- The greatest length. -/
  maxLength : Option Int64 := none
  /-- The least number of dots. -/
  minDots : Int64 := 0
  /-- The greatest number of dots. -/
  maxDots : Option Int64 := none
  /-- Whether the items have to be distinct. -/
  unique : Bool := false
  /-- The field of the keys. -/
  keyType : Option Field := none
  /-- The field of the items or values. -/
  valueType : Option Field := none
  /-- The schema that objects have to provide. -/
  schema : Option String := none
  /-- Whether the invariants of objects count. -/
  validateInvariants : Bool := true
  /-- Where the terms of a choice come from. -/
  vocabulary : Option TermSource := none

/-- What an attribute of a field holds. -/
inductive AttributeValue where
  /-- A value, or none. -/
  | value (v : Option Value)
  /-- A nested field, or none. -/
  | field (f : Option Field)

namespace Field

/-- The field of a type with all attributes at their defaults and no place among fields. -/
def ofType (type : FieldType) : Field := { type }

instance : Inhabited Field := ⟨ofType .textLine⟩

/-- The identifier that documents name the field's type by. -/
def typeIdentifier (f : Field) : String := f.typeName.getD f.type.identifier

/-- Whether the field has a marker. -/
def provides (f : Field) (marker : String) : Bool := f.markers.contains marker

/-- The field with one more marker. -/
def mark (f : Field) (marker : String) : Field := { f with markers := NameSet.add f.markers marker }

/-- The place of the field as an integer; places beyond the 64-bit range count as the last of it. -/
def orderInt (f : Field) : Int64 :=
  if f.order < int64Bound then Int64.ofInt f.order else Int64.maxValue

/-- The value of an attribute; `none` if no field has an attribute of that name. -/
def attribute? (f : Field) (name : String) : Option AttributeValue :=
  match name with
  | "title" => some (.value (some f.title))
  | "description" => some (.value (some f.description))
  | "required" => some (.value (some (.bool f.required)))
  | "readonly" => some (.value (some (.bool f.readonly)))
  | "default" => some (.value f.default)
  | "missing_value" => some (.value f.missingValue)
  | "order" => some (.value (some (.int f.orderInt)))
  | "defaultFactory" => some (.value (f.defaultFactory.map fun d => .dotted d.identifier))
  | "min" => some (.value f.min)
  | "max" => some (.value f.max)
  | "min_length" => some (.value (some (.int f.minLength)))
  | "max_length" => some (.value (f.maxLength.map .int))
  | "min_dots" => some (.value (some (.int f.minDots)))
  | "max_dots" => some (.value (f.maxDots.map .int))
  | "unique" => some (.value (some (.bool f.unique)))
  | "validate_invariants" => some (.value (some (.bool f.validateInvariants)))
  | "schema" => some (.value (f.schema.map .dotted))
  | "key_type" => some (.field f.keyType)
  | "value_type" => some (.field f.valueType)
  | "vocabulary" | "vocabularyName" =>
    match f.vocabulary with
    | some (.named n) => some (.value (some (.text n)))
    | _ => some (.value none)
  | "values" =>
    match f.vocabulary with
    | some (.inline v) => some (.value (some (.list (v.terms.map (·.value)))))
    | _ => some (.value none)
  | "source" =>
    match f.vocabulary with
    | some (.source i) => some (.value (some (.dotted i)))
    | _ => some (.value none)
  | _ => none

/-! ## Setting attributes -/

/-- The error for an attribute that the field does not have. -/
def unknownAttribute (f : Field) (name : String) : ModelError :=
  .unknownAttribute f.typeIdentifier name

/-- A text or message; the empty text when there is none. -/
def expectText (name : String) : Option Value → Except ModelError Value
  | none => .ok (.text "")
  | some (.text s) => .ok (.text s)
  | some (.message m) => .ok (.message m)
  | some v => .error (.attributeType name .text v.kind)

/-- A truth value; the default of the attribute when there is none. -/
def expectBool (name : String) (fallback : Bool) : Option Value → Except ModelError Bool
  | none => .ok fallback
  | some (.bool b) => .ok b
  | some v => .error (.attributeType name .bool v.kind)

/-- An integer, if there is one. -/
def expectInt (name : String) : Option Value → Except ModelError (Option Int64)
  | none => .ok none
  | some (.int n) => .ok (some n)
  | some v => .error (.attributeType name .int v.kind)

/-- A text or dotted name, if there is one. -/
def expectName (name : String) : Option Value → Except ModelError (Option String)
  | none => .ok none
  | some (.text s) | some (.dotted s) => .ok (some s)
  | some v => .error (.attributeType name .name v.kind)

/-- Sets where the terms come from, unless they come from another place already. -/
def setVocabulary (f : Field) (source : TermSource) : Except ModelError Field :=
  match f.vocabulary with
  | some old => if old == source then .ok { f with vocabulary := some source }
    else .error (.conflictingVocabulary f.name)
  | none => .ok { f with vocabulary := some source }

/-- Sets an attribute. The value has to be of the kind of the attribute, but values of the field's
own type are taken as they are. A place below zero becomes zero. -/
def assign (f : Field) (name : String) (v : Option Value) : Except ModelError Field :=
  match name with
  | "title" => return { f with title := ← expectText name v }
  | "description" => return { f with description := ← expectText name v }
  | "required" => return { f with required := ← expectBool name true v }
  | "readonly" => return { f with readonly := ← expectBool name false v }
  | "unique" => return { f with unique := ← expectBool name false v }
  | "validate_invariants" => return { f with validateInvariants := ← expectBool name true v }
  | "default" => .ok { f with default := v }
  | "missing_value" => .ok { f with missingValue := v }
  | "min" => .ok { f with min := v }
  | "max" => .ok { f with max := v }
  | "order" => return { f with order := ((← expectInt name v).getD 0).toInt.toNat }
  | "min_length" => return { f with minLength := (← expectInt name v).getD 0 }
  | "max_length" => return { f with maxLength := ← expectInt name v }
  | "min_dots" => return { f with minDots := (← expectInt name v).getD 0 }
  | "max_dots" => return { f with maxDots := ← expectInt name v }
  | "schema" => return { f with schema := ← expectName name v }
  | "vocabulary" | "vocabularyName" => do
    match ← expectName name v with
    | some n => f.setVocabulary (.named n)
    | none => return f
  | _ => .error (f.unknownAttribute name)

/-- Sets a nested field. -/
def setNested (f : Field) (name : String) (nested : Option Field) : Except ModelError Field :=
  match name with
  | "key_type" => .ok { f with keyType := nested }
  | "value_type" => .ok { f with valueType := nested }
  | _ => .error (f.unknownAttribute name)

/-- The field once it is complete: a choice has terms. -/
def finish (f : Field) : Except ModelError Field :=
  if f.type = .choice ∧ f.vocabulary.isNone then .error (.missingVocabulary f.name) else .ok f

/-- The default, or what the default factory gives. -/
def defaultValue? (f : Field) : Option Value :=
  f.default.orElse fun _ => f.defaultFactory.map (·.product)

/-- Fields in the order of their places; fields in one place stay in the given order. -/
def sortByOrder {α : Type} (order : α → Nat) (fields : List α) : List α :=
  fields.mergeSort fun a b => order a ≤ order b

end Field
end ContentSchema
