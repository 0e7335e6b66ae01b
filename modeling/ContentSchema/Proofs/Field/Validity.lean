import ContentSchema.Proofs.Field.Form
import ContentSchema.Proofs.Value.Equality

/-!
# Valid values

`Field.Valid` says rule by rule what a valid value of a field is, at every depth, and `Field.Rejects`
says how a value is rejected that breaks a rule: for the first one that it breaks, where the rules are
those of its kind, its bounds, its length, its form, its parts in their order, and then those of
distinct items and of terms.

The parts of a value are what its nested fields have to let pass (`Field.valid_iff`), and they are
smaller than the value (`Field.sizeOf_lt_of_mem_parts`).
-/
namespace ContentSchema

/-! ## Rules -/

/-- The kinds of the values of a type. -/
def FieldType.kinds : FieldType → List Value.Kind
  | .bytes | .bytesLine => [.bytes]
  | .ascii | .asciiLine | .uri | .id | .dottedName => [.text]
  | .text | .textLine | .password | .sourceText => [.text, .message]
  | .bool => [.bool]
  | .int => [.int]
  | .float => [.float]
  | .decimal => [.decimal]
  | .tuple => [.tuple]
  | .list => [.list]
  | .set | .frozenSet => [.set]
  | .dict => [.dict]
  | .datetime => [.datetime]
  | .date => [.date]
  | .interfaceField | .object => [.dotted]
  | .choice =>
    [.bool, .int, .float, .decimal, .text, .message, .bytes, .date, .datetime, .dotted]

namespace Value

/-- The items of a list, a tuple or a set. -/
def items : Value → List Value
  | .list items | .tuple items | .set items => items
  | _ => []

/-- The keys of a dict with their values. -/
def entries : Value → List (Value × Value)
  | .dict entries => entries
  | _ => []

/-- Whether no two positions hold equal items. -/
def Distinct (items : List Value) : Prop := items.Pairwise fun a b => (a == b) = false

theorem distinct_snoc {v : Value} {items : List Value} :
    Distinct (items ++ [v]) ↔ Distinct items ∧ ∀ y ∈ items, (y == v) = false := by
  simp [Distinct, List.pairwise_append]

theorem Distinct.of_append {items more : List Value} (h : Distinct (items ++ more)) :
    Distinct items :=
  (List.pairwise_append.1 h).1

/-- Whether a value holds no line break: no line feed in bytes, and neither a line feed nor a carriage
return in what is shown of a text. -/
def IsLine (v : Value) : Prop :=
  (∀ b, v = .bytes b → 10 ∉ b.data.toList) ∧
    ∀ s, v.displayText? = some s → '\n' ∉ s.toList ∧ '\r' ∉ s.toList

end Value

namespace Field

section Rules

variable (f : Field) (v : Value)

/-- Whether a value is neither below the least nor above the greatest one. -/
def WithinBounds : Prop :=
  (∀ b, f.min = some b → v.compareBound? b ≠ some .lt) ∧
    ∀ b, f.max = some b → v.compareBound? b ≠ some .gt

/-- Whether a value is neither too short nor too long, if the type bounds lengths. -/
def LengthFits : Prop :=
  f.type.isSized = true → ∀ n, v.length? = some n →
    f.minLength.toInt ≤ n ∧ ∀ m, f.maxLength = some m → (n : Int) ≤ m.toInt

/-- Whether a text has the form that the type asks for. Only the type of dotted names bounds the number
of points. -/
def TextFits (s : String) : Prop :=
  match f.type with
  | .ascii | .asciiLine => ∀ c ∈ s.toList, c.toNat < 128
  | .uri => IsUri s
  | .id => IsUri s ∨ ∃ points, IsDottedName points s
  | .dottedName => ∃ points, IsDottedName points s ∧ f.minDots.toInt ≤ points ∧
      ∀ m, f.maxDots = some m → (points : Int) ≤ m.toInt
  | _ => True

/-- Whether a value satisfies what the field asks of it apart from its items. -/
structure Fits : Prop where
  /-- The type admits the kind. -/
  kind : v.kind ∈ f.type.kinds
  /-- The value lies within the bounds. -/
  bounds : f.WithinBounds v
  /-- It has one of the lengths that are allowed. -/
  length : f.LengthFits v
  /-- It is a line if the type asks for that. -/
  line : f.type.isLine = true → v.IsLine
  /-- A text has the form of the type. -/
  text : ∀ s, v = .text s → f.TextFits s

/-- Whether no two positions of a list or tuple hold equal items, if the field asks for that. -/
def ItemsDiffer : Prop :=
  f.unique = true → v.kind = .list ∨ v.kind = .tuple →
    Value.Distinct v.items

/-- Whether a value is that of a term, if the field is a choice that has its terms with it. -/
def IsTerm : Prop :=
  f.type = .choice → ∀ vocabulary, f.vocabulary = some (.inline vocabulary) →
    ∃ t ∈ vocabulary.terms, (t.value == v) = true

end Rules

/-- Whether a value is valid for a field. -/
inductive Valid : Field → Value → Prop
  /-- The value satisfies all rules, and what it holds is valid for the nested fields. -/
  | intro {f : Field} {v : Value} (fits : f.Fits v)
    (items : ∀ g, f.valueType = some g → ∀ x ∈ v.items, Valid g x)
    (keys : ∀ g, f.keyType = some g → ∀ e ∈ v.entries, Valid g e.1)
    (values : ∀ g, f.valueType = some g → ∀ e ∈ v.entries, Valid g e.2)
    (distinct : f.ItemsDiffer v) (term : f.IsTerm v) : Valid f v

/-! ## Rejections -/

/-- What a value holds that has to be valid for a nested field, in the order in which it is checked. -/
def parts (f : Field) : Value → List (Field × Value)
  | .list items | .tuple items | .set items =>
    items.flatMap fun x => f.valueType.toList.map (·, x)
  | .dict entries =>
    entries.flatMap fun e => f.keyType.toList.map (·, e.1) ++ f.valueType.toList.map (·, e.2)
  | _ => []

/-- How a value is rejected that lies beyond a bound. -/
inductive OutOfBounds (f : Field) (v : Value) : Rejection → Prop
  /-- It lies below the least one. -/
  | small {b : Value} (hb : f.min = some b) (h : v.compareBound? b = some .lt) :
    OutOfBounds f v (.tooSmall v b)
  /-- It lies above the greatest one. -/
  | big {b : Value} (hmin : ∀ b, f.min = some b → v.compareBound? b ≠ some .lt)
    (hb : f.max = some b) (h : v.compareBound? b = some .gt) : OutOfBounds f v (.tooBig v b)

/-- How a value of another length is rejected. -/
inductive WrongLength (f : Field) (v : Value) : Rejection → Prop
  /-- It is too short. -/
  | short {n : Nat} (hs : f.type.isSized = true) (hn : v.length? = some n)
    (h : (n : Int) < f.minLength.toInt) : WrongLength f v (.tooShort n f.minLength)
  /-- It is too long. -/
  | long {n : Nat} {m : Int64} (hs : f.type.isSized = true) (hn : v.length? = some n)
    (hmin : f.minLength.toInt ≤ n) (hm : f.maxLength = some m) (h : m.toInt < n) :
    WrongLength f v (.tooLong n m)

/-- How a text of another form is rejected. -/
def formRejection (type : FieldType) (s : String) : Rejection :=
  match type with
  | .uri => .invalidUri s
  | .id => .invalidId s
  | .dottedName => .invalidDottedName s
  | _ => .notAscii s

/-- How a value of another form is rejected. -/
inductive WrongForm (f : Field) (v : Value) : Rejection → Prop
  /-- It holds a line break. -/
  | line (hl : f.type.isLine = true) (h : ¬ v.IsLine) : WrongForm f v .notALine
  /-- It is a text that the type does not admit. -/
  | text {s : String} (hl : f.type.isLine = true → v.IsLine) (hs : v = .text s)
    (h : ¬ f.TextFits s) : WrongForm f v (formRejection f.type s)

/-- How a field rejects a value. -/
inductive Rejects : Field → Value → Rejection → Prop
  /-- The type does not admit the kind. -/
  | kind {f : Field} {v : Value} (h : v.kind ∉ f.type.kinds) :
    Rejects f v (.wrongType f.type v.kind)
  /-- The kind is admitted, but the value lies beyond a bound. -/
  | bounds {f : Field} {v : Value} {r : Rejection} (hk : v.kind ∈ f.type.kinds)
    (h : OutOfBounds f v r) : Rejects f v r
  /-- The value lies within the bounds, but is too short or too long. -/
  | length {f : Field} {v : Value} {r : Rejection} (hk : v.kind ∈ f.type.kinds)
    (hb : f.WithinBounds v) (h : WrongLength f v r) : Rejects f v r
  /-- The value has one of the lengths that are allowed, but not the form. -/
  | form {f : Field} {v : Value} {r : Rejection} (hk : v.kind ∈ f.type.kinds)
    (hb : f.WithinBounds v) (hl : f.LengthFits v) (h : WrongForm f v r) : Rejects f v r
  /-- The value has the form, but a part of it is rejected, and those before are valid. -/
  | part {f g : Field} {v x : Value} {r : Rejection} {before after : List (Field × Value)}
    (fits : f.Fits v) (hparts : f.parts v = before ++ (g, x) :: after)
    (hbefore : ∀ p ∈ before, Valid p.1 p.2) (h : Rejects g x r) : Rejects f v r
  /-- All parts are valid, but an item equals one of those before, which differ. -/
  | repeated {f : Field} {v x : Value} {before after : List Value} (fits : f.Fits v)
    (hparts : ∀ p ∈ f.parts v, Valid p.1 p.2) (hu : f.unique = true)
    (hk : v.kind = .list ∨ v.kind = .tuple) (hitems : v.items = before ++ x :: after)
    (hbefore : Value.Distinct before) (h : ∃ y ∈ before, (y == x) = true) :
    Rejects f v (.notUnique x)
  /-- The value is not that of a term. -/
  | term {f : Field} {v : Value} (fits : f.Fits v) (h : ¬ f.IsTerm v) :
    Rejects f v (.notInVocabulary v)

/-! ## Parts -/

section Parts

variable {f : Field} {v : Value}

theorem mem_parts_iff {p : Field × Value} : p ∈ f.parts v ↔
    f.valueType = some p.1 ∧ p.2 ∈ v.items ∨
      ∃ e ∈ v.entries, f.keyType = some p.1 ∧ p.2 = e.1 ∨ f.valueType = some p.1 ∧ p.2 = e.2 := by
  obtain ⟨g, x⟩ := p
  cases v with
  | list items | tuple items | set items =>
    simp [parts, Value.items, Value.entries, and_comm]
  | dict entries =>
    simp [parts, Value.items, Value.entries, eq_comm (a := x)]
  | _ => simp [parts, Value.items, Value.entries]

theorem sizeOf_lt_of_mem_parts {p : Field × Value} (hp : p ∈ f.parts v) : sizeOf p.2 < sizeOf v := by
  rcases mem_parts_iff.1 hp with ⟨-, h⟩ | ⟨⟨key, value⟩, he, h⟩
  · cases v with
    | list items | tuple items | set items =>
      have := List.sizeOf_lt_of_mem h
      simp only [Value.items] at this
      simp only [Value.list.sizeOf_spec, Value.tuple.sizeOf_spec, Value.set.sizeOf_spec]
      omega
    | _ => cases h
  · cases v with
    | dict entries =>
      have := List.sizeOf_lt_of_mem he
      simp only [Value.entries, Prod.mk.sizeOf_spec] at this
      simp only [Value.dict.sizeOf_spec]
      rcases h with ⟨-, h⟩ | ⟨-, h⟩ <;> simp only [h] <;> omega
    | _ => cases he

theorem valid_iff : Valid f v ↔
    f.Fits v ∧ (∀ p ∈ f.parts v, Valid p.1 p.2) ∧ f.ItemsDiffer v ∧ f.IsTerm v := by
  constructor
  · rintro ⟨fits, items, keys, values, distinct, term⟩
    refine ⟨fits, fun p hp => ?_, distinct, term⟩
    rcases mem_parts_iff.1 hp with ⟨hg, hx⟩ | ⟨e, he, ⟨hg, hx⟩ | ⟨hg, hx⟩⟩
    · exact items p.1 hg p.2 hx
    · rw [hx]
      exact keys p.1 hg e he
    · rw [hx]
      exact values p.1 hg e he
  · rintro ⟨fits, hparts, distinct, term⟩
    exact .intro fits (fun g hg x hx => hparts (g, x) (mem_parts_iff.2 (.inl ⟨hg, hx⟩)))
      (fun g hg e he => hparts (g, e.1) (mem_parts_iff.2 (.inr ⟨e, he, .inl ⟨hg, rfl⟩⟩)))
      (fun g hg e he => hparts (g, e.2) (mem_parts_iff.2 (.inr ⟨e, he, .inr ⟨hg, rfl⟩⟩)))
      distinct term

theorem mem_kinds_iff {type : FieldType} : v.kind ∈ type.kinds ↔ admits type v = true := by
  cases type <;> simp only [FieldType.kinds, admits, List.mem_cons, List.not_mem_nil, or_false,
    Bool.or_eq_true, beq_iff_eq]
  case choice => cases v <;> simp [Value.kind, Value.isContainer]

/-- A choice has no containers among its values. -/
theorem isTerm_of_isContainer (hk : v.kind ∈ f.type.kinds) (hc : v.isContainer = true) :
    f.IsTerm v := fun htype => by
  rw [htype, mem_kinds_iff, admits, hc] at hk
  cases hk

theorem parts_of_scalar (h : v.isContainer = false) : f.parts v = [] := by
  cases v <;> first | rfl | cases h

end Parts

end Field
end ContentSchema
