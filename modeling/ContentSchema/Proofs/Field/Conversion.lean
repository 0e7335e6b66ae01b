import ContentSchema.Field.Conversion
import ContentSchema.Proofs.Calendar.Text
import ContentSchema.Proofs.Lists
import ContentSchema.Proofs.Number.Decimals
import ContentSchema.Proofs.Text.Utf8

/-!
# Scalars read back

`Field.PlainScalar` says which values of a field are expressible as a text. Each of them has a text,
and that text reads back as the value for every field of the same type with the same vocabulary
(`Field.PlainScalar.exists_text`).
-/
namespace ContentSchema

theorem trim_int64Text (n : Int64) : Text.trim (int64Text n) = int64Text n := by
  have hdigit (c : Char) (hc : c ∈ Nat.toDigits 10 n.toInt.natAbs) : Text.isSpace c = false :=
    Text.isSpace_of_isDigit (Nat.isDigit_of_mem_toDigits (b := 10) (by decide) (by decide) hc)
  refine Text.trim_of_forall fun c hc => ?_
  split at hc
  · rcases List.mem_cons.1 hc with rfl | hc
    · decide
    · exact hdigit c hc
  · exact hdigit c hc

theorem int64Text_ne_empty (n : Int64) : int64Text n ≠ "" := by
  rw [int64Text, Ne, String.ofList_eq_empty_iff]
  split
  · exact List.cons_ne_nil _ _
  · exact Nat.toDigits_ne_nil

namespace Field

/-- The scalars that a field's documents can express, messages apart. Texts of types that are not
textual and bytes are not empty, times are no leap seconds and have no parts below the millionth of
a second, and dotted names stand for schemas. -/
inductive PlainScalar (resolve : Resolver) (f : Field) : Value → Prop
  /-- A text. -/
  | text {s : String} (ht : f.type.isTextual = true) : PlainScalar resolve f (.text s)
  /-- A truth value. -/
  | bool {b : Bool} (ht : f.type = .bool) : PlainScalar resolve f (.bool b)
  /-- An integer. -/
  | int {n : Int64} (ht : f.type = .int) : PlainScalar resolve f (.int n)
  /-- An exact decimal. -/
  | decimal {d : Decimal} (ht : f.type = .decimal) : PlainScalar resolve f (.decimal d)
  /-- A day. -/
  | date {d : Date} (ht : f.type = .date) : PlainScalar resolve f (.date d)
  /-- A time of whole microseconds. -/
  | datetime {t : Datetime} (ht : f.type = .datetime) (hleap : t.nanos < 1000000000)
    (hmicros : t.nanos % 1000 = 0) : PlainScalar resolve f (.datetime t)
  /-- The bytes of a text. -/
  | bytes {s : String} (ht : f.type = .bytes ∨ f.type = .bytesLine) (hs : s ≠ "") :
    PlainScalar resolve f (.bytes s.toUTF8)
  /-- The dotted name of a schema. -/
  | dotted {name : String} {schema : Schema} (ht : f.type = .interfaceField) (hname : name ≠ "")
    (htrim : Text.trim name = name) (hresolve : resolve name = some (.schema schema)) :
    PlainScalar resolve f (.dotted name)
  /-- The text of a term. -/
  | choice {s : String} (ht : f.type = .choice) (hs : s ≠ "") (hterms : f.hasIntegerTerms = false) :
    PlainScalar resolve f (.text s)

theorem PlainScalar.congr {resolve : Resolver} {f g : Field} {v : Value} (ht : g.type = f.type)
    (hv : g.vocabulary = f.vocabulary) (h : f.PlainScalar resolve v) : g.PlainScalar resolve v := by
  cases h with
  | text h => exact .text (by rwa [ht])
  | bool h => exact .bool (by rwa [ht])
  | int h => exact .int (by rwa [ht])
  | decimal h => exact .decimal (by rwa [ht])
  | date h => exact .date (by rwa [ht])
  | datetime h hleap hmicros => exact .datetime (by rwa [ht]) hleap hmicros
  | bytes h hs => exact .bytes (by rwa [ht]) hs
  | dotted h hname htrim hresolve => exact .dotted (by rwa [ht]) hname htrim hresolve
  | choice h hs hterms => exact .choice (by rwa [ht]) hs (by rwa [hasIntegerTerms, hv])

theorem readTrimmed_ok {ε α : Type} (f : Field) {text : String} {read : String → Except ε α}
    {value : α → Value} {cause : ε → ConversionError} {a : α} (htrim : Text.trim text = text)
    (hread : read text = .ok a) : f.readTrimmed text read value cause = .ok (value a) := by
  rw [readTrimmed, htrim, hread]

/-- A value is written as its text, except in object fields. Bytes have to be UTF-8 for that. -/
theorem textOfValue_eq_ok_iff {f : Field} {v : Value} {text : String} :
    f.textOfValue v = .ok text ↔ f.type ≠ .object ∧ v.text? = some text ∧
      ∀ b, v = .bytes b → Text.utf8Error? b.data.toList = none := by
  unfold textOfValue
  by_cases ht : f.type = .object
  · rw [if_pos ht]
    exact iff_of_false nofun fun h => h.1 ht
  · rw [if_neg ht]
    cases v with
    | bytes b =>
      simp only [textOfBytes]
      cases hvalid : Text.utf8Error? b.data.toList <;> simp [Value.text?, ht, hvalid]
    | _ => simp [Value.text?, ht]

theorem textOfValue_of_text? {f : Field} {v : Value} {text : String} (ht : f.type ≠ .object)
    (hb : v.kind ≠ .bytes) (hv : v.text? = some text) : f.textOfValue v = .ok text :=
  textOfValue_eq_ok_iff.2 ⟨ht, hv, fun _ h => absurd (congrArg Value.kind h) hb⟩

theorem textOfValue_toUTF8 {f : Field} (ht : f.type ≠ .object) (s : String) :
    f.textOfValue (.bytes s.toUTF8) = .ok s := by
  refine textOfValue_eq_ok_iff.2 ⟨ht, ?_, fun b hb => ?_⟩
  · rw [Value.text?, Text.utf8Lossy_toUTF8]
  · cases hb
    exact Text.utf8Error?_toUTF8 s

theorem text?_of_textOfValue {f : Field} {v : Value} {text : String}
    (h : f.textOfValue v = .ok text) : v.text? = some text := (textOfValue_eq_ok_iff.1 h).2.1

theorem parseText_of_isTextual {f : Field} (ht : f.type.isTextual = true) (resolve : Resolver)
    (s : String) : f.parseText resolve s = .ok (.text s) := by
  unfold parseText
  cases h : f.type <;> simp [h, FieldType.isTextual] at ht <;> rfl

/-- An expressible scalar has a text, which reads back as the scalar. -/
theorem PlainScalar.exists_text {resolve : Resolver} {f : Field} {v : Value}
    (h : PlainScalar resolve f v) :
    ∃ text, f.textOfValue v = .ok text ∧ (text.isEmpty && !f.type.isTextual) = false ∧
      ∀ {g : Field}, g.type = f.type → g.vocabulary = f.vocabulary →
        g.parseText resolve text = .ok v := by
  have nonempty {s : String} (hs : s ≠ "") : (s.isEmpty && !f.type.isTextual) = false := by
    simp [hs]
  cases h with
  | @text s ht =>
    refine ⟨s, ?_, by simp [ht], fun htype _ => parseText_of_isTextual (by rw [htype, ht]) _ _⟩
    exact textOfValue_of_text? (fun h => by simp [h, FieldType.isTextual] at ht) nofun rfl
  | @bool b ht =>
    refine ⟨if b then "True" else "False", ?_, ?_, fun htype _ => ?_⟩
    · exact textOfValue_of_text? (by simp [ht]) nofun rfl
    · cases b <;> rfl
    · rw [parseText, htype, ht]
      cases b <;> rfl
  | @int n ht =>
    refine ⟨int64Text n, ?_, nonempty (int64Text_ne_empty n), fun htype _ => ?_⟩
    · exact textOfValue_of_text? (by simp [ht]) nofun rfl
    · rw [parseText, htype, ht]
      exact readTrimmed_ok _ (trim_int64Text n) (readInt64_int64Text n)
  | @decimal d ht =>
    refine ⟨d.text, ?_, nonempty d.text_ne_empty, fun htype _ => ?_⟩
    · exact textOfValue_of_text? (by simp [ht]) nofun rfl
    · rw [parseText, htype, ht]
      exact readTrimmed_ok _ d.trim_text d.read_text
  | @date d ht =>
    refine ⟨Calendar.dateText d, ?_, nonempty (Calendar.dateText_ne_empty d), fun htype _ => ?_⟩
    · exact textOfValue_of_text? (by simp [ht]) nofun rfl
    · rw [parseText, htype, ht]
      exact readTrimmed_ok _ (Calendar.trim_dateText d) (Calendar.readDate_dateText d)
  | @datetime t ht hleap hmicros =>
    refine ⟨Calendar.datetimeText t, ?_, nonempty (Calendar.datetimeText_ne_empty t),
      fun htype _ => ?_⟩
    · exact textOfValue_of_text? (by simp [ht]) nofun rfl
    · rw [parseText, htype, ht]
      exact readTrimmed_ok _ (Calendar.trim_datetimeText t)
        (Calendar.readDatetime_of_wholeMicros t hleap hmicros)
  | @bytes s ht hs =>
    refine ⟨s, ?_, nonempty hs, fun htype _ => ?_⟩
    · exact textOfValue_toUTF8 (fun h => by simp [h] at ht) s
    · rcases ht with ht | ht <;> rw [parseText, htype, ht]
  | @dotted name schema ht hname htrim hresolve =>
    refine ⟨name, ?_, nonempty hname, fun htype _ => ?_⟩
    · exact textOfValue_of_text? (by simp [ht]) nofun rfl
    · rw [parseText, htype, ht]
      simp only [htrim, resolveName, hresolve, bind, Except.bind]
      rfl
  | @choice s ht hs hterms =>
    refine ⟨s, ?_, nonempty hs, fun {g} htype hvocabulary => ?_⟩
    · exact textOfValue_of_text? (by simp [ht]) nofun rfl
    · have hg : g.hasIntegerTerms = false := by
        rw [hasIntegerTerms, hvocabulary]
        exact hterms
      rw [parseText, htype, ht]
      simp only [hg]
      rfl

/-! ## What texts stand for -/

/-- The values that texts stand for, whatever the field. -/
inductive IsParsed : Value → Prop
  /-- A text. -/
  | text (s : String) : IsParsed (.text s)
  /-- The bytes of a text. -/
  | bytes (s : String) : IsParsed (.bytes s.toUTF8)
  /-- A truth value. -/
  | bool (b : Bool) : IsParsed (.bool b)
  /-- An integer. -/
  | int (n : Int64) : IsParsed (.int n)
  /-- A floating point number. -/
  | float (x : Binary64) : IsParsed (.float x)
  /-- An exact decimal. -/
  | decimal (d : Decimal) : IsParsed (.decimal d)
  /-- A day. -/
  | date (d : Date) : IsParsed (.date d)
  /-- A time. -/
  | datetime (t : Datetime) : IsParsed (.datetime t)
  /-- The dotted name of an object. -/
  | dotted (name : String) : IsParsed (.dotted name)

theorem of_readTrimmed {ε α : Type} {f : Field} {text : String} {read : String → Except ε α}
    {value : α → Value} {cause : ε → ConversionError} {v : Value}
    (h : f.readTrimmed text read value cause = .ok v) : ∃ a, v = value a := by
  unfold readTrimmed at h
  split at h
  · rename_i a _
    exact ⟨a, (Except.ok.inj h).symm⟩
  · cases h

theorem isParsed_of_parseText {f : Field} {resolve : Resolver} {text : String} {v : Value}
    (h : f.parseText resolve text = .ok v) : IsParsed v := by
  cases ht : f.type <;> simp only [parseText, ht] at h
  case int | float | decimal | date | datetime =>
    obtain ⟨a, rfl⟩ := of_readTrimmed h
    constructor
  case interfaceField =>
    obtain ⟨symbol, -, h⟩ := exists_of_bind h
    cases symbol <;> cases h
    exact .dotted _
  case object =>
    obtain ⟨symbol, -, h⟩ := exists_of_bind h
    cases h
    exact .dotted _
  case choice =>
    split at h
    · obtain ⟨n, rfl⟩ := of_readTrimmed h
      exact .int n
    · cases h
      exact .text text
  case tuple | list | set | frozenSet | dict => cases h
  all_goals
    cases h
    constructor

/-- What a text stands for has a text again, unless it is a value of an object field. -/
theorem IsParsed.exists_text {v : Value} (h : IsParsed v) {f : Field} (ht : f.type ≠ .object) :
    ∃ text, f.textOfValue v = .ok text := by
  cases h with
  | bytes s => exact ⟨s, textOfValue_toUTF8 ht s⟩
  | _ => exact ⟨_, textOfValue_of_text? ht (by simp [Value.kind]) rfl⟩

end Field
end ContentSchema
