import ContentSchema.Proofs.Field.Times
import ContentSchema.Proofs.Number.Binary64.Text
import ContentSchema.Proofs.Value.Order

/-!
# Values with one text

The text of a value does not say all of it: the kind is not in it, nor are the default and the domain
of a message, what lies below the millionth of a second, and which NaN a number is. Values that
differ in nothing else are written alike (`Value.WrittenAlike`). To read a text back may lose more:
white space around a name, the form of an integer, and some of the leap seconds
(`Field.ReadAlike`).

Results: two values that are not equal have one text just if they are written alike
(`Field.textOfValue_eq_iff`), and their texts are read as equal values just if they are read alike
(`Field.compare_read_iff`).
-/
namespace ContentSchema

open Std (LawfulEqCmp ReflCmp)

/-! ## Equality of floating point numbers and times -/

theorem Binary64.eq_of_totalCompare {x y : Binary64} (h : x.totalCompare y = .eq) : x = y := by
  have hkey : x.totalKey = y.totalKey := compare_eq_iff_eq.1 h
  rw [← ofMagnitude_magnitude x, ← ofMagnitude_magnitude y]
  simp only [totalKey] at hkey
  cases hx : x.isNegative <;> cases hy : y.isNegative <;>
    simp only [hx, hy, if_true, if_false, Bool.false_eq_true] at hkey
  · rw [Int.ofNat_inj.1 hkey]
  · omega
  · omega
  · rw [show x.magnitude = y.magnitude by omega]

theorem Date.eq_of_compare {d e : Date} (h : d.compare e = .eq) : d = e := by
  obtain ⟨year, month, day, _⟩ := d
  simp only [Date.compare, Ordering.then_eq_eq, compare_eq_iff_eq] at h
  obtain ⟨rfl, rfl, rfl⟩ := h
  rfl

theorem Datetime.eq_of_compare {t u : Datetime} (h : t.compare u = .eq) : t = u := by
  simp only [Datetime.compare, Ordering.then_eq_eq, compare_eq_iff_eq, secondOfDay] at h
  obtain ⟨hdate, htime, hnanos⟩ := h
  have hdate := Date.eq_of_compare hdate
  obtain ⟨-, htm, hts, -⟩ := t.timeExists
  obtain ⟨-, hum, hus, -⟩ := u.timeExists
  have hhour : t.hour = u.hour := by omega
  have hminute : t.minute = u.minute := by omega
  have hsecond : t.second = u.second := by omega
  cases t
  cases u
  rw [Datetime.mk.injEq]
  exact ⟨hdate, hhour, hminute, hsecond, hnanos⟩

namespace Value

/-! ## Written alike -/

/-- Whether two values have one text although they may differ. -/
inductive WrittenAlike : Value → Value → Prop
  /-- Messages with one identifier. -/
  | messages {m n : Message} (h : m.id = n.id) : WrittenAlike (.message m) (.message n)
  /-- Times that agree up to the millionth of a second. -/
  | times {t u : Datetime} (h : Calendar.Datetime.toMicros t = Calendar.Datetime.toMicros u) :
    WrittenAlike (.datetime t) (.datetime u)
  /-- Two NaNs. -/
  | nans {x y : Binary64} (hx : x.isNaN = true) (hy : y.isNaN = true) :
    WrittenAlike (.float x) (.float y)
  /-- Values of two kinds. -/
  | kinds {v w : Value} {text : String} (hkind : v.kind ≠ w.kind) (hv : v.text? = some text)
    (hw : w.text? = some text) : WrittenAlike v w

theorem WrittenAlike.text?_eq {v w : Value} (h : WrittenAlike v w) : v.text? = w.text? := by
  cases h with
  | messages h => exact congrArg some h
  | times h => exact congrArg some ((Calendar.datetimeText_inj _ _).2 h)
  | nans hx hy => exact congrArg some ((Binary64.text_inj _ _).2 (.inr ⟨hx, hy⟩))
  | kinds _ hv hw => rw [hv, hw]

end Value

namespace Field

variable {f : Field} {v w : Value} {s t : String}

theorem toUTF8_of_textOfValue {b : ByteArray} (h : f.textOfValue (.bytes b) = .ok s) :
    s.toUTF8 = b := by
  obtain ⟨-, htext, hvalid⟩ := textOfValue_eq_ok_iff.1 h
  cases htext
  exact Text.toUTF8_utf8Lossy (hvalid b rfl)

/-- What is read back from its text has the text to itself. -/
theorem eq_of_readBack {ε α : Type} {text : α → String} {read : String → Except ε α}
    (hread : ∀ a, read (text a) = .ok a) {a b : α} (h : text a = text b) : a = b := by
  have hb := hread b
  rw [← h, hread] at hb
  exact Except.ok.inj hb

/-- Values of one kind with one text are the same or written alike. -/
theorem eq_or_writtenAlike (hkind : v.kind = w.kind) (hv : f.textOfValue v = .ok s)
    (hw : f.textOfValue w = .ok s) : v = w ∨ v.WrittenAlike w := by
  have htext : v.text? = w.text? := by
    rw [text?_of_textOfValue hv, text?_of_textOfValue hw]
  cases v with
  | bool a =>
    cases w with
    | bool b =>
      cases a <;> cases b <;> first | exact .inl rfl | exact absurd (Option.some.inj htext) (by decide)
    | _ => cases hkind
  | int n =>
    cases w with
    | int k =>
      rw [eq_of_readBack readInt64_int64Text (Option.some.inj htext)]
      exact .inl rfl
    | _ => cases hkind
  | float x =>
    cases w with
    | float y =>
      rcases (Binary64.text_inj x y).1 (Option.some.inj htext) with rfl | ⟨hx, hy⟩
      · exact .inl rfl
      · exact .inr (.nans hx hy)
    | _ => cases hkind
  | decimal d =>
    cases w with
    | decimal e =>
      rw [eq_of_readBack Decimal.read_text (Option.some.inj htext)]
      exact .inl rfl
    | _ => cases hkind
  | text a =>
    cases w with
    | text b =>
      rw [Option.some.inj htext]
      exact .inl rfl
    | _ => cases hkind
  | message m =>
    cases w with
    | message n => exact .inr (.messages (Option.some.inj htext))
    | _ => cases hkind
  | bytes b =>
    cases w with
    | bytes c =>
      rw [← toUTF8_of_textOfValue hv, toUTF8_of_textOfValue hw]
      exact .inl rfl
    | _ => cases hkind
  | date d =>
    cases w with
    | date e =>
      rw [eq_of_readBack Calendar.readDate_dateText (Option.some.inj htext)]
      exact .inl rfl
    | _ => cases hkind
  | datetime a =>
    cases w with
    | datetime b =>
      exact .inr (.times ((Calendar.datetimeText_inj a b).1 (Option.some.inj htext)))
    | _ => cases hkind
  | dotted a =>
    cases w with
    | dotted b =>
      rw [Option.some.inj htext]
      exact .inl rfl
    | _ => cases hkind
  | list _ | tuple _ | set _ | dict _ => cases text?_of_textOfValue hv

/-- Two values that are not equal have one text just if they are written alike. -/
theorem textOfValue_eq_iff (hv : f.textOfValue v = .ok s) (hw : f.textOfValue w = .ok t)
    (hne : Value.compare v w ≠ .eq) : s = t ↔ v.WrittenAlike w := by
  constructor
  · rintro rfl
    by_cases hkind : v.kind = w.kind
    · refine (eq_or_writtenAlike hkind hv hw).resolve_left ?_
      rintro rfl
      exact hne ReflCmp.compare_self
    · exact .kinds hkind (text?_of_textOfValue hv) (text?_of_textOfValue hw)
  · intro h
    have htext := h.text?_eq
    rw [text?_of_textOfValue hv, text?_of_textOfValue hw] at htext
    exact Option.some.inj htext

/-- The types with values that may be written alike: those of texts that may be messages, and those
whose texts do not say everything or do not tell the kind. -/
def sharingTypes : List FieldType :=
  [.text, .textLine, .password, .sourceText, .float, .datetime, .choice]

/-- The other types have values of one kind, and none that share a text. -/
theorem exists_kind_of_admits {t : FieldType} (ht : t ∉ sharingTypes) :
    ∃ k : Value.Kind, k ≠ .message ∧ k ≠ .float ∧ k ≠ .datetime ∧
      ∀ v, admits t v = true → v.kind = k := by
  cases t <;> first
    | exact absurd (by decide) ht
    | refine ⟨_, ?_, ?_, ?_, fun v h => beq_iff_eq.1 h⟩ <;> decide

theorem not_writtenAlike (ht : f.type ∉ sharingTypes) (hv : admits f.type v = true)
    (hw : admits f.type w = true) : ¬ v.WrittenAlike w := by
  obtain ⟨k, hmessage, hfloat, hdatetime, hkind⟩ := exists_kind_of_admits ht
  intro h
  cases h with
  | messages => exact hmessage (hkind _ hv).symm
  | times => exact hdatetime (hkind _ hv).symm
  | nans => exact hfloat (hkind _ hv).symm
  | kinds hne => exact hne ((hkind v hv).trans (hkind w hw).symm)

/-! ## Read alike -/

/-- Whether two values have texts that a field reads as one value, although they may differ. -/
inductive ReadAlike (f : Field) : Value → Value → Prop
  /-- Values with one text. -/
  | written {v w : Value} (h : v.WrittenAlike w) : ReadAlike f v w
  /-- Times that are read as one; a leap second is read as another time. -/
  | times {t u : Datetime} (ht : f.type = .datetime)
    (h : Calendar.Datetime.asRead t = Calendar.Datetime.asRead u) :
    ReadAlike f (.datetime t) (.datetime u)
  /-- Names that differ in the white space around them. -/
  | names {a b : String} (ht : f.type = .interfaceField) (h : Text.trim a = Text.trim b) :
    ReadAlike f (.dotted a) (.dotted b)
  /-- Terms of a choice of integers whose texts are those of one integer. -/
  | numbers {v w : Value} {a b : String} {n : Int64} (ht : f.type = .choice)
    (hterms : f.hasIntegerTerms = true) (hv : v.text? = some a) (hw : w.text? = some b)
    (ha : readInt64 (Text.trim a) = .ok n) (hb : readInt64 (Text.trim b) = .ok n) : ReadAlike f v w

/-- Only few types read more values alike than are written alike. -/
theorem readAlike_iff_writtenAlike (hdatetime : f.type ≠ .datetime)
    (hinterface : f.type ≠ .interfaceField)
    (hchoice : f.type = .choice → f.hasIntegerTerms = false) :
    f.ReadAlike v w ↔ v.WrittenAlike w := by
  refine ⟨fun h => ?_, .written⟩
  cases h with
  | written h => exact h
  | times ht => exact absurd ht hdatetime
  | names ht => exact absurd ht hinterface
  | numbers ht hterms =>
    rw [hchoice ht] at hterms
    cases hterms

theorem not_readAlike (ht : f.type ∉ sharingTypes) (hinterface : f.type ≠ .interfaceField)
    (hv : admits f.type v = true) (hw : admits f.type w = true) : ¬ f.ReadAlike v w := by
  rw [readAlike_iff_writtenAlike (fun h => ht (by rw [h]; decide)) hinterface
    fun h => absurd (by rw [h]; decide) ht]
  exact not_writtenAlike ht hv hw

variable {resolve : Resolver} {v' w' : Value}

/-- The types whose values are read from their texts as they are. -/
def exactTypes : List FieldType := [.bytes, .bytesLine, .bool, .int, .decimal, .date]

theorem parseText_of_exact (ht : f.type ∈ exactTypes) (hadmits : admits f.type v = true)
    (hv : f.textOfValue v = .ok s) : f.parseText resolve s = .ok v := by
  have plain (h : f.PlainScalar resolve v) : f.parseText resolve s = .ok v := by
    obtain ⟨text, htext, -, hparse⟩ := h.exists_text
    rw [hv] at htext
    cases htext
    exact hparse rfl rfl
  simp only [exactTypes, List.mem_cons, List.not_mem_nil, or_false] at ht
  rcases ht with ht | ht | ht | ht | ht | ht <;> rw [ht] at hadmits
  · cases v <;> cases hadmits
    rw [parseText, ht, toUTF8_of_textOfValue hv]
  · cases v <;> cases hadmits
    rw [parseText, ht, toUTF8_of_textOfValue hv]
  · cases v <;> cases hadmits
    exact plain (.bool ht)
  · cases v <;> cases hadmits
    exact plain (.int ht)
  · cases v <;> cases hadmits
    exact plain (.decimal ht)
  · cases v <;> cases hadmits
    exact plain (.date ht)

theorem type_cases (t : FieldType) :
    t.isTextual = true ∨ t ∈ exactTypes ∨ t = .float ∨ t = .datetime ∨ t = .interfaceField ∨
      t = .choice ∨ t = .object ∨ t.isCollection = true ∨ t = .dict := by
  cases t <;> decide

theorem parseText_of_container (ht : f.type.isCollection = true ∨ f.type = .dict) :
    f.parseText resolve s = .error (f.invalidText s .container) := by
  cases h : f.type <;> simp [h, FieldType.isCollection] at ht <;> simp only [parseText, h]

theorem parseText_float (ht : f.type = .float) (resolve : Resolver) (x : Binary64) :
    f.parseText resolve x.text = .ok (.float x.asRead) := by
  rw [parseText, ht]
  exact readTrimmed_ok f x.trim_text x.read_text

theorem of_parseText_interfaceField (ht : f.type = .interfaceField)
    (h : f.parseText resolve s = .ok v) : v = .dotted (Text.trim s) := by
  simp only [parseText, ht] at h
  obtain ⟨symbol, -, h⟩ := exists_of_bind h
  cases symbol <;> cases h
  rfl

theorem of_parseText_integerTerm (ht : f.type = .choice) (hterms : f.hasIntegerTerms = true)
    (h : f.parseText resolve s = .ok v) : ∃ n, readInt64 (Text.trim s) = .ok n ∧ v = .int n := by
  simp only [parseText, ht, hterms, if_true, readTrimmed] at h
  split at h
  · rename_i n hn
    cases h
    exact ⟨n, hn, rfl⟩
  · cases h

section Read

variable (hv : f.textOfValue v = .ok s) (hw : f.textOfValue w = .ok t)
  (hread : f.parseText resolve s = .ok v') (hread' : f.parseText resolve t = .ok w')

include hv hw hread hread'

theorem compare_read_of_writtenAlike (h : v.WrittenAlike w) : Value.compare v' w' = .eq := by
  have htext := h.text?_eq
  rw [text?_of_textOfValue hv, text?_of_textOfValue hw] at htext
  cases htext
  rw [hread] at hread'
  cases hread'
  exact ReflCmp.compare_self

/-- Values are read alike just if they are written alike, where other texts are read as other
values. -/
theorem compare_read_iff_of_text (hne : Value.compare v w ≠ .eq) (hdatetime : f.type ≠ .datetime)
    (hinterface : f.type ≠ .interfaceField)
    (hchoice : f.type = .choice → f.hasIntegerTerms = false)
    (h : Value.compare v' w' = .eq → s = t) : Value.compare v' w' = .eq ↔ f.ReadAlike v w := by
  rw [readAlike_iff_writtenAlike hdatetime hinterface hchoice]
  exact ⟨fun heq => (textOfValue_eq_iff hv hw hne).1 (h heq),
    compare_read_of_writtenAlike hv hw hread hread'⟩

theorem compare_read_iff_datetime (ht : f.type = .datetime) (hadmits : admits f.type v = true)
    (hadmits' : admits f.type w = true) : Value.compare v' w' = .eq ↔ f.ReadAlike v w := by
  have hsame := compare_read_of_writtenAlike hv hw hread hread'
  rw [ht] at hadmits hadmits'
  cases v <;> cases hadmits
  cases w <;> cases hadmits'
  cases text?_of_textOfValue hv
  cases text?_of_textOfValue hw
  rw [parseText_datetimeText ht] at hread hread'
  cases hread
  cases hread'
  refine ⟨fun h => .times ht (Datetime.eq_of_compare h), fun h => ?_⟩
  cases h with
  | written h => exact hsame h
  | times _ h =>
    rw [h]
    exact ReflCmp.compare_self
  | numbers hchoice => cases ht.symm.trans hchoice

theorem compare_read_iff_interfaceField (ht : f.type = .interfaceField)
    (hadmits : admits f.type v = true) (hadmits' : admits f.type w = true) :
    Value.compare v' w' = .eq ↔ f.ReadAlike v w := by
  have hsame := compare_read_of_writtenAlike hv hw hread hread'
  rw [ht] at hadmits hadmits'
  cases v <;> cases hadmits
  cases w <;> cases hadmits'
  cases text?_of_textOfValue hv
  cases text?_of_textOfValue hw
  obtain rfl := of_parseText_interfaceField ht hread
  obtain rfl := of_parseText_interfaceField ht hread'
  constructor
  · intro h
    rw [Value.compare] at h
    exact .names ht (LawfulEqCmp.eq_of_compare h)
  · intro h
    cases h with
    | written h => exact hsame h
    | names _ h =>
      rw [h]
      exact ReflCmp.compare_self
    | numbers hchoice => cases ht.symm.trans hchoice

theorem compare_read_iff_integerTerms (ht : f.type = .choice) (hterms : f.hasIntegerTerms = true) :
    Value.compare v' w' = .eq ↔ f.ReadAlike v w := by
  have hsame := compare_read_of_writtenAlike hv hw hread hread'
  have hs := text?_of_textOfValue hv
  have ht' := text?_of_textOfValue hw
  obtain ⟨n, hn, rfl⟩ := of_parseText_integerTerm ht hterms hread
  obtain ⟨k, hk, rfl⟩ := of_parseText_integerTerm ht hterms hread'
  constructor
  · intro h
    rw [Value.compare] at h
    obtain rfl : n = k := LawfulEqCmp.eq_of_compare h
    exact .numbers ht hterms hs ht' hn hk
  · intro h
    cases h with
    | written h => exact hsame h
    | times hdatetime => cases ht.symm.trans hdatetime
    | names hinterface => cases ht.symm.trans hinterface
    | numbers _ _ hv hw hn' hk' =>
      cases hs.symm.trans hv
      cases ht'.symm.trans hw
      cases hn.symm.trans hn'
      cases hk.symm.trans hk'
      exact ReflCmp.compare_self

/-- The texts of two values that are not equal are read as equal values just if the values are read
alike. -/
theorem compare_read_iff (hadmits : admits f.type v = true) (hadmits' : admits f.type w = true)
    (hne : Value.compare v w ≠ .eq) : Value.compare v' w' = .eq ↔ f.ReadAlike v w := by
  have hplain := compare_read_iff_of_text hv hw hread hread' hne
  obtain ht | ht | ht | ht | ht | ht | ht | ht := type_cases f.type
  · -- a text is read as it is
    refine hplain (fun h => by simp [h, FieldType.isTextual] at ht)
      (fun h => by simp [h, FieldType.isTextual] at ht)
      (fun h => by simp [h, FieldType.isTextual] at ht) fun h => ?_
    rw [parseText_of_isTextual ht] at hread hread'
    cases hread
    cases hread'
    rw [Value.compare] at h
    exact LawfulEqCmp.eq_of_compare h
  · refine hplain (fun h => by simp [h, exactTypes] at ht) (fun h => by simp [h, exactTypes] at ht)
      (fun h => by simp [h, exactTypes] at ht) fun h => ?_
    rw [parseText_of_exact ht hadmits hv] at hread
    rw [parseText_of_exact ht hadmits' hw] at hread'
    cases hread
    cases hread'
    exact absurd h hne
  · refine hplain (by simp [ht]) (by simp [ht]) (by simp [ht]) fun h => ?_
    rw [ht] at hadmits hadmits'
    cases v <;> cases hadmits
    cases w <;> cases hadmits'
    cases text?_of_textOfValue hv
    cases text?_of_textOfValue hw
    rw [parseText_float ht] at hread hread'
    cases hread
    cases hread'
    rw [← Binary64.text_asRead, Binary64.eq_of_totalCompare h, Binary64.text_asRead]
  · exact compare_read_iff_datetime hv hw hread hread' ht hadmits hadmits'
  · exact compare_read_iff_interfaceField hv hw hread hread' ht hadmits hadmits'
  · cases hterms : f.hasIntegerTerms with
    | true => exact compare_read_iff_integerTerms hv hw hread hread' ht hterms
    | false =>
      refine hplain (by simp [ht]) (by simp [ht]) (fun _ => hterms) fun h => ?_
      simp only [parseText, ht, hterms, Bool.false_eq_true, if_false] at hread hread'
      cases hread
      cases hread'
      rw [Value.compare] at h
      exact LawfulEqCmp.eq_of_compare h
  · -- values of object fields have no text
    exact absurd hv (by simp [textOfValue, ht])
  · rw [parseText_of_container ht] at hread
    cases hread

end Read

end Field
end ContentSchema
