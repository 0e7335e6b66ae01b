import ContentSchema.Calendar.Basic
import ContentSchema.Number.Binary64.Basic
import ContentSchema.Number.Decimal.Basic

/-!
# Values

A value is anything a field can hold: defaults, bounds, missing values, vocabulary terms and tagged
values are all values. Sets and dicts are kept as lists in the order of values, without repeated
members or keys; `Value.Order` builds them so.
-/
namespace ContentSchema

/-- A translatable message. -/
structure Message where
  /-- What the message is looked up by. -/
  id : String
  /-- The text to show when no catalogue has the message. -/
  default : Option String := none
  /-- The domain of the catalogues that have the message. -/
  domain : Option String := none
deriving DecidableEq, Repr

/-- The text shown when no catalogue has the message. -/
def Message.text (m : Message) : String := m.default.getD m.id

/-- A value. -/
inductive Value where
  /-- A truth value. -/
  | bool (b : Bool)
  /-- A signed 64-bit integer. -/
  | int (n : Int64)
  /-- A floating point number. -/
  | float (x : Binary64)
  /-- An exact decimal number. -/
  | decimal (d : Decimal)
  /-- A text. -/
  | text (s : String)
  /-- A translatable message. -/
  | message (m : Message)
  /-- Raw bytes. -/
  | bytes (b : ByteArray)
  /-- A day. -/
  | date (d : Date)
  /-- A day with a time. -/
  | datetime (t : Datetime)
  /-- The dotted name of an object. -/
  | dotted (name : String)
  /-- A sequence. -/
  | list (items : List Value)
  /-- An immutable sequence. -/
  | tuple (items : List Value)
  /-- Distinct values, in the order of values. -/
  | set (items : List Value)
  /-- Keys with their values, in the order of the keys. -/
  | dict (entries : List (Value × Value))

namespace Value

instance : Inhabited Value := ⟨.bool false⟩

/-- The kinds of values. -/
inductive Kind where
  /-- Truth values. -/
  | bool
  /-- Integers. -/
  | int
  /-- Floating point numbers. -/
  | float
  /-- Exact decimals. -/
  | decimal
  /-- Texts. -/
  | text
  /-- Translatable messages. -/
  | message
  /-- Raw bytes. -/
  | bytes
  /-- Days. -/
  | date
  /-- Days with a time. -/
  | datetime
  /-- Dotted names. -/
  | dotted
  /-- Sequences. -/
  | list
  /-- Immutable sequences. -/
  | tuple
  /-- Sets. -/
  | set
  /-- Mappings. -/
  | dict
deriving DecidableEq, Repr

/-- The name of a kind in messages. -/
def Kind.name : Kind → String
  | .bool => "bool"
  | .int => "int"
  | .float => "float"
  | .decimal => "decimal"
  | .text => "text"
  | .message => "message"
  | .bytes => "bytes"
  | .date => "date"
  | .datetime => "datetime"
  | .dotted => "dotted name"
  | .list => "list"
  | .tuple => "tuple"
  | .set => "set"
  | .dict => "dict"

/-- The place of a kind in the order of values. -/
def Kind.rank : Kind → Nat
  | .bool => 0
  | .int => 1
  | .float => 2
  | .decimal => 3
  | .text => 4
  | .message => 5
  | .bytes => 6
  | .date => 7
  | .datetime => 8
  | .dotted => 9
  | .list => 10
  | .tuple => 11
  | .set => 12
  | .dict => 13

/-- The kind of a value. -/
def kind : Value → Kind
  | .bool _ => .bool
  | .int _ => .int
  | .float _ => .float
  | .decimal _ => .decimal
  | .text _ => .text
  | .message _ => .message
  | .bytes _ => .bytes
  | .date _ => .date
  | .datetime _ => .datetime
  | .dotted _ => .dotted
  | .list _ => .list
  | .tuple _ => .tuple
  | .set _ => .set
  | .dict _ => .dict

/-- Whether a value holds other values. -/
def isContainer : Value → Bool
  | .list _ | .tuple _ | .set _ | .dict _ => true
  | _ => false

/-- The text of a text value. -/
def plainText? : Value → Option String
  | .text s => some s
  | _ => none

/-- What is shown of a text or a message. -/
def displayText? : Value → Option String
  | .text s => some s
  | .message m => some m.text
  | _ => none

/-- The number of an integer value. -/
def int? : Value → Option Int64
  | .int n => some n
  | _ => none

/-- The truth value of a truth value. -/
def bool? : Value → Option Bool
  | .bool b => some b
  | _ => none

/-- The length that length bounds speak of: characters of a text, bytes, or items. -/
def length? : Value → Option Nat
  | .text s => some s.length
  | .message m => some m.text.length
  | .bytes b => some b.size
  | .list items | .tuple items | .set items => some items.length
  | .dict entries => some entries.length
  | _ => none

/-- Whether a value has a length and it is zero. -/
def isEmpty (v : Value) : Bool := v.length? == some 0

end Value
end ContentSchema
