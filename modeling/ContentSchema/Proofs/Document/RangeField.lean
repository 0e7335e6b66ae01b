import ContentSchema.Proofs.Document.Field

/-!
# Bounds read back

A range is a field of numbers, days or times with bounds and a missing value, and with its defaults
otherwise. Its bounds need no message domain to be written and read. Each of them reads back unless
it equals the missing value, which makes its element empty (`bounds_of_rangeField`).
-/
namespace ContentSchema.Document

open FieldCodec (standard)
open Markup (Element)

variable {t : FieldType} {min max missing : Option Value}

/-- A regular element without messages holds its own content in every document. -/
theorem Regular.sameContent_empty {e : Element} (h : Regular ∅ e) (domain : Option String) :
    SameContent domain e e := by
  induction h with
  | @intro e names distinct undeclared marked tags children ih =>
    refine ⟨rfl, fun hm => ?_, fun _ => rfl, sameElements_refl ih⟩
    obtain ⟨_, hdomain, -⟩ := marked hm
    exact hdomain.elim

/-- A range has an element, which reads back as the range without the bounds that equal the missing
value. -/
theorem exists_rangeElement {s : Scope} (hr : s.registry = Registry.standard)
    (ht : t.isOrderable = true) (h : ExpressibleRange t s.resolve min max missing) (name : String)
    (order : Nat) (interface label : Option String) (tag : String) (m : Nat) :
    ∃ e n g,
      writeField s.registry { rangeField t min max missing with name, order, interface } (standard t)
        label tag = .ok e ∧
      (readField s (standard t) e).Succeeds m n g ∧
      g.type = t ∧ g.missingValue = missing ∧ g.default = none ∧
      g.min = (rangeField t min max missing).boundAsRead min ∧
      g.max = (rangeField t min max missing).boundAsRead max := by
  obtain ⟨e, he, -, hstands⟩ := exists_fieldElement (h.field ht ∅ name order interface) label tag
  obtain ⟨n, g, -, hread, -, -, hbare⟩ :=
    hstands.read m rfl hr rfl (hstands.regular.sameContent_empty s.domain)
  have hown : g.bare.type = g.type ∧ g.bare.default = g.default := by
    rw [Field.bare_eq]
    exact ⟨rfl, rfl⟩
  obtain ⟨hmin, hmax, hmissing⟩ := min_bare g
  rw [hbare, Field.reread_eq] at hown hmin hmax hmissing
  exact ⟨e, n, g, by rw [hr]; exact he, hread, hown.1.symm, hmissing.symm, hown.2.symm, hmin.symm,
    hmax.symm⟩

/-- A range is written, and read with its missing value and without a default. A bound is read back
exactly if it does not equal the missing value. -/
theorem bounds_of_rangeField {s : Scope} (hr : s.registry = Registry.standard)
    (ht : t.isOrderable = true) (h : ExpressibleRange t s.resolve min max missing) (name : String)
    (order : Nat) (interface label : Option String) (tag : String) (m : Nat) :
    ∃ e n g,
      writeField s.registry { rangeField t min max missing with name, order, interface } (standard t)
        label tag = .ok e ∧
      (readField s (standard t) e).Succeeds m n g ∧
      g.type = t ∧ g.missingValue = missing ∧ g.default = none ∧
      (g.min = min ↔ ∀ b, min = some b → (missing == some b) = false) ∧
      (g.max = max ↔ ∀ b, max = some b → (missing == some b) = false) := by
  obtain ⟨e, n, g, he, hread, htype, hmissing, hdefault, hmin, hmax⟩ :=
    exists_rangeElement hr ht h name order interface label tag m
  refine ⟨e, n, g, he, hread, htype, hmissing, hdefault, ?_, ?_⟩
  · rw [hmin]
    exact Field.boundAsRead_eq_iff _ min
  · rw [hmax]
    exact Field.boundAsRead_eq_iff _ max

/-- A day of February 2024. -/
def february (day : Nat) (h : DayExists 2024 2 day) : Value := .date ⟨2024, 2, day, h⟩

/-- The field of the days of February 2024, with a missing value. -/
def februaryField (day : Nat) (h : DayExists 2024 2 day) : Field :=
  { rangeField .date (some (february 1 (by decide))) (some (february 29 (by decide)))
      (some (february day h)) with name := "day", order := 3 }

theorem expressible_february (resolve : Resolver) {day : Nat} (hday : DayExists 2024 2 day) :
    ExpressibleRange .date resolve (some (february 1 (by decide))) (some (february 29 (by decide)))
      (some (february day hday)) where
  values v hv := by
    rcases hv with hv | hv | hv <;> cases hv <;> exact .date rfl
  bounds a b ha hb := by
    cases ha
    cases hb
    decide

theorem bounds_of_rangeField_february :
    ∃ e n g,
      writeField Registry.standard (februaryField 15 (by decide)) (standard .date) (some "day")
        "field" = .ok e ∧
      (readField ⟨⟨fun _ => none, none⟩, Registry.standard⟩ (standard .date) e).Succeeds 1 n g ∧
      g.min = some (february 1 (by decide)) ∧ g.max = some (february 29 (by decide)) := by
  obtain ⟨e, n, g, he, hread, -, -, -, hmin, hmax⟩ :=
    bounds_of_rangeField (s := ⟨⟨fun _ => none, none⟩, Registry.standard⟩) rfl rfl
      (expressible_february _ (show DayExists 2024 2 15 by decide)) "day" 3 none (some "day")
      "field" 1
  refine ⟨e, n, g, he, hread, hmin.2 fun b hb => ?_, hmax.2 fun b hb => ?_⟩ <;>
    · cases hb
      decide

/-- A greatest value that equals the missing value is lost. -/
theorem bounds_of_rangeField_max_missingValue :
    (februaryField 29 (by decide)).max = some (february 29 (by decide)) ∧
      ∃ e n g,
        writeField Registry.standard (februaryField 29 (by decide)) (standard .date) (some "day")
          "field" = .ok e ∧
        (readField ⟨⟨fun _ => none, none⟩, Registry.standard⟩ (standard .date) e).Succeeds 1 n g ∧
        g.max = none := by
  obtain ⟨e, n, g, he, hread, -, -, -, -, hmax⟩ :=
    exists_rangeElement (s := ⟨⟨fun _ => none, none⟩, Registry.standard⟩) rfl rfl
      (expressible_february _ (show DayExists 2024 2 29 by decide)) "day" 3 none (some "day")
      "field" 1
  exact ⟨rfl, e, n, g, he, hread, hmax⟩

end ContentSchema.Document
