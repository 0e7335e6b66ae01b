import ContentSchema.Proofs.Field.Conversion
import ContentSchema.Proofs.Field.Validation

/-!
# Times as values of fields

Every time has a text, and a field without bounds reads every such text. The time that is read is
the one that was written, without what lies below a millionth of a second, exactly when that is no
leap second (`Field.valueOfText_textOfValue_datetime`).
-/
namespace ContentSchema.Field

variable {f : Field}

/-- A field for times that has no bounds admits every time. -/
theorem validate_datetime (ht : f.type = .datetime) (hmin : f.min = none) (hmax : f.max = none)
    (t : Datetime) : f.validate (.datetime t) = .ok () := by
  rw [validate_ok_iff_of_scalar rfl, validateShallow_ok_iff, validateBounds_ok_iff]
  refine ⟨⟨?_, ⟨fun b hb => ?_, fun b hb => ?_⟩, rfl, ?_⟩, ?_⟩
  · rw [validateType, ht]
    rfl
  · cases hmin.symm.trans hb
  · cases hmax.symm.trans hb
  · rw [validateText, ht]
    rfl
  · rw [validateTerm, ht]

theorem parseText_datetimeText (ht : f.type = .datetime) (resolve : Resolver) (t : Datetime) :
    f.parseText resolve (Calendar.datetimeText t) =
      .ok (.datetime (Calendar.Datetime.asRead t)) := by
  rw [parseText, ht]
  exact readTrimmed_ok f (Calendar.trim_datetimeText t) (Calendar.readDatetime_datetimeText t)

theorem valueOfText_datetimeText (ht : f.type = .datetime) (hmin : f.min = none)
    (hmax : f.max = none) (resolve : Resolver) (validate : Bool) (t : Datetime) :
    f.valueOfText resolve validate (Calendar.datetimeText t) =
      .ok (.datetime (Calendar.Datetime.asRead t)) := by
  rw [valueOfText, parseText_datetimeText ht]
  simp only [bind, Except.bind, accept, validate_datetime ht hmin hmax, ite_self]

theorem textOfValue_datetime (ht : f.type = .datetime) (t : Datetime) :
    f.textOfValue (.datetime t) = .ok (Calendar.datetimeText t) :=
  textOfValue_of_text? (by simp [ht]) nofun rfl

/-- Every time has a text, and a field for times without bounds reads it as `Datetime.asRead` says:
that is the time without what lies below a millionth of a second, unless it is a leap second. -/
theorem valueOfText_textOfValue_datetime (ht : f.type = .datetime) (hmin : f.min = none)
    (hmax : f.max = none) (resolve : Resolver) (validate : Bool) (t : Datetime) :
    ∃ text, (Value.datetime t).text? = some text ∧ f.textOfValue (.datetime t) = .ok text ∧
      f.valueOfText resolve validate text = .ok (.datetime (Calendar.Datetime.asRead t)) ∧
      (Calendar.Datetime.asRead t = Calendar.Datetime.toMicros t ↔ t.nanos < 1000000000) :=
  ⟨Calendar.datetimeText t, rfl, textOfValue_datetime ht t,
    valueOfText_datetimeText ht hmin hmax resolve validate t,
    Calendar.Datetime.asRead_eq_toMicros_iff t⟩

/-- Half a second into the leap second at the end of 2016. -/
def leapSecond : Datetime := ⟨⟨2016, 12, 31, by decide⟩, 23, 59, 59, 1500000000, by decide⟩

theorem valueOfText_textOfValue_datetime_leapSecond :
    (Field.ofType .datetime).type = .datetime ∧ (Field.ofType .datetime).min = none ∧
      (Field.ofType .datetime).max = none ∧
      ∃ text, (Value.datetime leapSecond).text? = some text ∧
        (Field.ofType .datetime).textOfValue (.datetime leapSecond) = .ok text ∧
        (Field.ofType .datetime).valueOfText (fun _ => none) true text =
          .ok (.datetime (Calendar.Datetime.asRead leapSecond)) ∧
        (Calendar.Datetime.asRead leapSecond = Calendar.Datetime.toMicros leapSecond ↔
          leapSecond.nanos < 1000000000) :=
  ⟨rfl, rfl, rfl, valueOfText_textOfValue_datetime rfl rfl rfl (fun _ => none) true leapSecond⟩

theorem datetimeText_leapSecond :
    Calendar.datetimeText leapSecond = "2016-12-31 23:59:60.1500000" := by
  decide +kernel

/-- The middle of a leap second is written with seven decimals, and read as 0.15 seconds into it. -/
theorem valueOfText_textOfValue_ne_leapSecond :
    (Field.ofType .datetime).textOfValue (.datetime leapSecond) =
        .ok "2016-12-31 23:59:60.1500000" ∧
      (Field.ofType .datetime).valueOfText (fun _ => none) true "2016-12-31 23:59:60.1500000" =
        .ok (.datetime ⟨leapSecond.date, 23, 59, 59, 1150000000, by decide⟩) ∧
      Calendar.Datetime.toMicros leapSecond = leapSecond ∧ leapSecond.nanos = 1500000000 := by
  rw [← datetimeText_leapSecond, textOfValue_datetime rfl, valueOfText_datetimeText rfl rfl rfl]
  exact ⟨rfl, rfl, rfl, rfl⟩

end ContentSchema.Field
