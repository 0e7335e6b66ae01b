import ContentSchema.Value.Basic

/-!
# The order of values

Values are totally ordered: first by kind, then within the kind. Sequences, sets and dicts compare
item by item. Two values are equal when they compare as equal, so the scale of a decimal does not
count. Sets and dicts are built through this order. Bounds use `Value.compareBound?`, which compares
numbers as numbers and otherwise only values of one kind.
-/
namespace ContentSchema

/-- Messages compare by identifier, default and domain; what is absent comes first. -/
def Message.compare (a b : Message) : Ordering :=
  (Ord.compare a.id b.id).then
    ((Ord.compare a.default b.default).then (Ord.compare a.domain b.domain))

/-- Byte sequences compare byte by byte; a start comes before the whole. -/
def compareBytes (a b : ByteArray) : Ordering := Ord.compare a.data.toList b.data.toList

namespace Value

mutual

/-- The order of values. -/
def compare : Value → Value → Ordering
  | .bool a, .bool b => Ord.compare a b
  | .int a, .int b => Ord.compare a b
  | .float a, .float b => a.totalCompare b
  | .decimal a, .decimal b => a.compare b
  | .text a, .text b => Ord.compare a b
  | .message a, .message b => a.compare b
  | .bytes a, .bytes b => compareBytes a b
  | .date a, .date b => a.compare b
  | .datetime a, .datetime b => a.compare b
  | .dotted a, .dotted b => Ord.compare a b
  | .list a, .list b => compareItems a b
  | .tuple a, .tuple b => compareItems a b
  | .set a, .set b => compareItems a b
  | .dict a, .dict b => compareEntries a b
  | a, b => Ord.compare a.kind.rank b.kind.rank

/-- Items compare from the front; a start comes before the whole. -/
def compareItems : List Value → List Value → Ordering
  | [], [] => .eq
  | [], _ :: _ => .lt
  | _ :: _, [] => .gt
  | a :: as, b :: bs => (compare a b).then (compareItems as bs)

/-- Entries compare from the front, each by its key and then by its value. -/
def compareEntries : List (Value × Value) → List (Value × Value) → Ordering
  | [], [] => .eq
  | [], _ :: _ => .lt
  | _ :: _, [] => .gt
  | (k, v) :: as, (l, w) :: bs => ((compare k l).then (compare v w)).then (compareEntries as bs)

end

/-- Equality of values: they compare as equal. -/
instance : BEq Value := ⟨fun a b => compare a b == .eq⟩

/-- How a value compares with a bound, if at all: an integer and a floating point number compare as
floating point numbers, and otherwise the kinds have to agree. -/
def compareBound? : Value → Value → Option Ordering
  | .int a, .float b => (Binary64.ofInt a.toInt).compare? b
  | .float a, .int b => a.compare? (Binary64.ofInt b.toInt)
  | .float a, .float b => a.compare? b
  | a, b => if a.kind = b.kind then some (compare a b) else none

/-! ## Sets and dicts -/

/-- Puts a value into its place among ordered distinct values, where it takes the place of an equal
one. -/
def insertItem (v : Value) : List Value → List Value
  | [] => [v]
  | w :: ws =>
    match compare v w with
    | .lt => v :: w :: ws
    | .eq => v :: ws
    | .gt => w :: insertItem v ws

/-- The set of the given values; of several equal ones the last is the member. -/
def setOf (items : List Value) : Value := .set (items.foldl (fun s v => insertItem v s) [])

/-- Puts an entry into its place among entries with ordered distinct keys; under an equal key only
the value is replaced. -/
def insertEntry (k v : Value) : List (Value × Value) → List (Value × Value)
  | [] => [(k, v)]
  | (l, w) :: es =>
    match compare k l with
    | .lt => (k, v) :: (l, w) :: es
    | .eq => (l, v) :: es
    | .gt => (l, w) :: insertEntry k v es

/-- The dict of the given entries; of several with equal keys the last value counts. -/
def dictOf (entries : List (Value × Value)) : Value :=
  .dict (entries.foldl (fun d e => insertEntry e.1 e.2 d) [])

end Value
end ContentSchema
