import ContentSchema.Field.Validation

/-!
# What a valid value satisfies

A value is valid when each step of the validation lets it pass: `Field.validateShallow_ok_iff` and
`Field.validate_ok_iff_of_scalar`. The text that is shown for a valid message is valid too, unless
it lies beyond the bounds of the field (`Field.validate_messageText`).

`Field.Looser` compares fields by what they check: a value that is valid for a field is valid for
every looser one (`Field.Looser.validate`).
-/
namespace ContentSchema

/-- One check after another lets pass what both let pass. -/
theorem seq_ok_iff {ε : Type} {a b : Except ε Unit} :
    (a >>= fun _ => b) = .ok () ↔ a = .ok () ∧ b = .ok () := by
  cases a with
  | error e => simp [bind, Except.bind]
  | ok u => simp [bind, Except.bind]

/-- The types that have messages among their values. -/
def admitsMessages : FieldType → Bool
  | .text | .textLine | .password | .sourceText => true
  | _ => false

theorem isTextual_of_admitsMessages {type : FieldType} (h : admitsMessages type = true) :
    type.isTextual = true := by
  cases type <;> first | rfl | exact absurd h (by decide)

namespace Field

variable {f : Field} {v : Value}

theorem validateShallow_ok_iff :
    f.validateShallow v = .ok () ↔
      f.validateType v = .ok () ∧ f.validateBounds v = .ok () ∧ f.validateLength v = .ok () ∧
        f.validateText v = .ok () := by
  rw [validateShallow, seq_ok_iff, seq_ok_iff, seq_ok_iff]

theorem validateBounds_ok_iff :
    f.validateBounds v = .ok () ↔
      (∀ b, f.min = some b → v.compareBound? b ≠ some .lt) ∧
        ∀ b, f.max = some b → v.compareBound? b ≠ some .gt := by
  unfold validateBounds
  have below (b : Value) : (v.compareBound? b == some .lt) = true ↔ v.compareBound? b = some .lt :=
    beq_iff_eq
  have above (b : Value) : (v.compareBound? b == some .gt) = true ↔ v.compareBound? b = some .gt :=
    beq_iff_eq
  cases f.min with
  | none =>
    cases f.max with
    | none => simp [pure, Except.pure]
    | some max => by_cases h : v.compareBound? max = some .gt <;> simp [above, h, pure, Except.pure]
  | some min =>
    by_cases hmin : v.compareBound? min = some .lt
    · simp [hmin, bind, Except.bind]
    · cases f.max with
      | none => simp [below, hmin, pure, Except.pure]
      | some max =>
        by_cases h : v.compareBound? max = some .gt <;>
          simp [below, hmin, above, h, pure, Except.pure]

theorem validate_ok_iff_of_scalar (h : v.isContainer = false) :
    f.validate v = .ok () ↔ f.validateShallow v = .ok () ∧ f.validateTerm v = .ok () := by
  cases v <;> first | exact Bool.noConfusion h | simp only [validate, seq_ok_iff]

theorem validateShallow_of_validate (h : f.validate v = .ok ()) : f.validateShallow v = .ok () := by
  cases v with
  | list _ | tuple _ | set _ | dict _ =>
    rw [validate] at h
    exact (seq_ok_iff.1 h).1
  | _ => exact ((validate_ok_iff_of_scalar rfl).1 h).1

/-- The text that is shown for a valid message is valid, unless it lies beyond the bounds. -/
theorem validate_messageText {m : Message} (ht : admitsMessages f.type = true)
    (hv : f.validate (.message m) = .ok ()) (hb : f.validateBounds (.text m.text) = .ok ()) :
    f.validate (.text m.text) = .ok () := by
  rw [validate_ok_iff_of_scalar rfl, validateShallow_ok_iff] at hv ⊢
  obtain ⟨⟨-, -, hlength, htext⟩, -⟩ := hv
  refine ⟨⟨?_, hb, hlength, ?_⟩, ?_⟩
  · unfold validateType admits
    cases h : f.type <;> first | rfl | simp [h, admitsMessages] at ht
  · unfold validateText at htext ⊢
    cases h : f.type <;> rw [h] at htext ht <;> first | exact absurd ht (by decide) | exact htext
  · unfold validateTerm
    cases h : f.type <;> first | rfl | simp [h, admitsMessages] at ht

/-! ## Looser fields -/

theorem sizeOf_keyType_lt {f k : Field} (h : f.keyType = some k) : sizeOf k < sizeOf f := by
  cases f
  simp only at h
  subst h
  simp only [mk.sizeOf_spec, Option.some.sizeOf_spec]
  omega

theorem sizeOf_valueType_lt {f k : Field} (h : f.valueType = some k) : sizeOf k < sizeOf f := by
  cases f
  simp only at h
  subst h
  simp only [mk.sizeOf_spec, Option.some.sizeOf_spec]
  omega

/-- What holds of a field if it holds of its nested fields holds of all fields. -/
theorem nested_induction {motive : Field → Prop}
    (step : ∀ f, (∀ k, f.keyType = some k → motive k) → (∀ k, f.valueType = some k → motive k) →
      motive f) (f : Field) : motive f :=
  step f (fun k hk => have := sizeOf_keyType_lt hk; nested_induction step k)
    fun k hk => have := sizeOf_valueType_lt hk; nested_induction step k
termination_by sizeOf f

/-- Whether a first field checks no more than a second one: it may lack a bound, or not ask for
distinct items, here and in the nested fields. -/
inductive Looser : Field → Field → Prop
  /-- The fields agree but for the bounds and the distinctness of items. -/
  | intro {h f : Field} (type : h.type = f.type)
    (min : h.min = none ∨ h.min = f.min) (max : h.max = none ∨ h.max = f.max)
    (minLength : h.minLength = f.minLength) (maxLength : h.maxLength = f.maxLength)
    (minDots : h.minDots = f.minDots) (maxDots : h.maxDots = f.maxDots)
    (unique : h.unique = true → f.unique = true) (vocabulary : h.vocabulary = f.vocabulary)
    (hasKey : h.keyType.isSome = f.keyType.isSome)
    (key : ∀ k' k, h.keyType = some k' → f.keyType = some k → Looser k' k)
    (hasValue : h.valueType.isSome = f.valueType.isSome)
    (value : ∀ k' k, h.valueType = some k' → f.valueType = some k → Looser k' k) : Looser h f

theorem Looser.refl (f : Field) : Looser f f := by
  induction f using nested_induction with
  | step f key value =>
    refine ⟨rfl, .inr rfl, .inr rfl, rfl, rfl, rfl, rfl, id, rfl, rfl, ?_, rfl, ?_⟩
    · intro k' k hk' hk
      cases hk'.symm.trans hk
      exact key _ hk
    · intro k' k hk' hk
      cases hk'.symm.trans hk
      exact value _ hk

namespace Looser

variable {h : Field}

theorem type_eq (hl : Looser h f) : h.type = f.type := by
  obtain ⟨type⟩ := hl
  exact type

theorem vocabulary_eq (hl : Looser h f) : h.vocabulary = f.vocabulary := by
  obtain ⟨-, -, -, -, -, -, -, -, vocabulary⟩ := hl
  exact vocabulary

theorem validateType (hl : Looser h f) : h.validateType v = f.validateType v := by
  unfold Field.validateType
  rw [hl.type_eq]

theorem validateBounds (hl : Looser h f) (hv : f.validateBounds v = .ok ()) :
    h.validateBounds v = .ok () := by
  obtain ⟨type, min, max⟩ := hl
  rw [validateBounds_ok_iff] at hv ⊢
  refine ⟨fun b hb => ?_, fun b hb => ?_⟩
  · rcases min with hm | hm <;> rw [hm] at hb
    · cases hb
    · exact hv.1 b hb
  · rcases max with hm | hm <;> rw [hm] at hb
    · cases hb
    · exact hv.2 b hb

theorem validateLength (hl : Looser h f) : h.validateLength v = f.validateLength v := by
  obtain ⟨type, -, -, minLength, maxLength⟩ := hl
  unfold Field.validateLength
  rw [type, minLength, maxLength]

theorem validateText (hl : Looser h f) : h.validateText v = f.validateText v := by
  obtain ⟨type, -, -, -, -, minDots, maxDots⟩ := hl
  unfold Field.validateText dotsWithin
  rw [type, minDots, maxDots]

theorem validateTerm (hl : Looser h f) : h.validateTerm v = f.validateTerm v := by
  unfold Field.validateTerm
  rw [hl.type_eq, hl.vocabulary_eq]

theorem validateDistinct {items : List Value} (hl : Looser h f)
    (hv : f.validateDistinct items = .ok ()) : h.validateDistinct items = .ok () := by
  obtain ⟨type, -, -, -, -, -, -, unique⟩ := hl
  unfold Field.validateDistinct at hv ⊢
  cases hu : h.unique with
  | false => rfl
  | true => rwa [unique hu] at hv

theorem validateShallow (hl : Looser h f) (hv : f.validateShallow v = .ok ()) :
    h.validateShallow v = .ok () := by
  rw [validateShallow_ok_iff] at hv ⊢
  obtain ⟨htype, hbounds, hlength, htext⟩ := hv
  exact ⟨by rwa [hl.validateType], hl.validateBounds hbounds, by rwa [hl.validateLength],
    by rwa [hl.validateText]⟩

end Looser

/-- Whether the fields of items are absent together, or the first one is looser. -/
def LooserItem : Option Field → Option Field → Prop
  | none, none => True
  | some h, some f => Looser h f
  | _, _ => False

theorem Looser.key_item {h : Field} (hl : Looser h f) : LooserItem h.keyType f.keyType := by
  obtain ⟨-, -, -, -, -, -, -, -, -, hasKey, key, -, -⟩ := hl
  cases hh : h.keyType <;> cases hf : f.keyType <;> simp_all [LooserItem]

theorem Looser.value_item {h : Field} (hl : Looser h f) : LooserItem h.valueType f.valueType := by
  obtain ⟨-, -, -, -, -, -, -, -, -, -, -, hasValue, value⟩ := hl
  cases hh : h.valueType <;> cases hf : f.valueType <;> simp_all [LooserItem]

mutual

/-- What is valid for a field is valid for a looser one. -/
theorem Looser.validate {h f : Field} (hl : Looser h f) (v : Value) (hv : f.validate v = .ok ()) :
    h.validate v = .ok () := by
  match v with
  | .list items =>
    simp only [Field.validate, seq_ok_iff] at hv ⊢
    exact ⟨hl.validateShallow hv.1, hl.value_item.validateItems items hv.2.1,
      hl.validateDistinct hv.2.2⟩
  | .tuple items =>
    simp only [Field.validate, seq_ok_iff] at hv ⊢
    exact ⟨hl.validateShallow hv.1, hl.value_item.validateItems items hv.2.1,
      hl.validateDistinct hv.2.2⟩
  | .set items =>
    simp only [Field.validate, seq_ok_iff] at hv ⊢
    exact ⟨hl.validateShallow hv.1, hl.value_item.validateItems items hv.2⟩
  | .dict entries =>
    simp only [Field.validate, seq_ok_iff] at hv ⊢
    exact ⟨hl.validateShallow hv.1, hl.key_item.validateEntries hl.value_item entries hv.2⟩
  | .bool _ | .int _ | .float _ | .decimal _ | .text _ | .message _ | .bytes _ | .date _
  | .datetime _ | .dotted _ =>
    rw [validate_ok_iff_of_scalar rfl] at hv ⊢
    exact ⟨hl.validateShallow hv.1, by rw [hl.validateTerm]; exact hv.2⟩

theorem LooserItem.validateItems {h f : Option Field} (hl : LooserItem h f) (items : List Value)
    (hv : Field.validateItems f items = .ok ()) : Field.validateItems h items = .ok () := by
  match items with
  | [] => rw [Field.validateItems]
  | v :: vs =>
    match h, f with
    | none, none => exact hv
    | some h, some f =>
      simp only [Field.validateItems, seq_ok_iff] at hv ⊢
      exact ⟨Looser.validate hl v hv.1, hl.validateItems vs hv.2⟩

theorem LooserItem.validateEntries {h f h' f' : Option Field} (hl : LooserItem h f)
    (hl' : LooserItem h' f') (entries : List (Value × Value))
    (hv : Field.validateEntries f f' entries = .ok ()) :
    Field.validateEntries h h' entries = .ok () := by
  match entries with
  | [] => rw [Field.validateEntries]
  | (k, v) :: es =>
    match h, f, h', f' with
    | none, none, none, none =>
      simp only [Field.validateEntries] at hv ⊢
      exact hl.validateEntries hl' es hv
    | none, none, some h', some f' =>
      simp only [Field.validateEntries, seq_ok_iff] at hv ⊢
      exact ⟨Looser.validate hl' v hv.1, hl.validateEntries hl' es hv.2⟩
    | some h, some f, none, none =>
      simp only [Field.validateEntries, seq_ok_iff] at hv ⊢
      exact ⟨Looser.validate hl k hv.1, hl.validateEntries hl' es hv.2⟩
    | some h, some f, some h', some f' =>
      simp only [Field.validateEntries, seq_ok_iff] at hv ⊢
      exact ⟨Looser.validate hl k hv.1, Looser.validate hl' v hv.2.1,
        hl.validateEntries hl' es hv.2.2⟩

end

end Field
end ContentSchema
