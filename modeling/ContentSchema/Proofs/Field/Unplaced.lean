import ContentSchema.Field.Conversion
import ContentSchema.Proofs.Field.Kept

/-!
# Fields without their places

Each new field takes a number, its place, and nothing that reading does with a field looks at it.
`Field.unplaced` forgets the places at every level. What a field checks and how it reads texts is the
same without them (`Field.validate_unplaced`, `Field.valueOfText_unplaced`), and setting an attribute
of it gives the same field but for the places (`Field.assign_unplaced`).
-/
namespace ContentSchema.Field

/-- The field without its place. -/
def displace (f : Field) : Field := { f with order := 0 }

/-- The field without places, at every level. -/
def unplaced : Field → Field := everywhere displace

theorem shallow_displace : Shallow displace := fun _ _ _ => rfl

theorem unplaced_eq (f : Field) :
    f.unplaced =
      { f with order := 0, keyType := f.keyType.map unplaced, valueType := f.valueType.map unplaced } :=
  everywhere_eq displace f

@[simp] theorem unplaced_unplaced (f : Field) : f.unplaced.unplaced = f.unplaced :=
  everywhere_everywhere shallow_displace shallow_displace f

@[simp] theorem unplaced_comp_unplaced : unplaced ∘ unplaced = unplaced :=
  funext unplaced_unplaced

@[simp] theorem type_unplaced (f : Field) : f.unplaced.type = f.type := by
  rw [unplaced_eq]

@[simp] theorem keyType_unplaced (f : Field) : f.unplaced.keyType = f.keyType.map unplaced := by
  rw [unplaced_eq]

@[simp] theorem valueType_unplaced (f : Field) :
    f.unplaced.valueType = f.valueType.map unplaced := by
  rw [unplaced_eq]

/-! ## Checks -/

section Checks

variable (f : Field) (v : Value)

theorem validateShallow_unplaced : f.unplaced.validateShallow v = f.validateShallow v := by
  rw [unplaced_eq]
  rfl

theorem validateTerm_unplaced : f.unplaced.validateTerm v = f.validateTerm v := by
  rw [unplaced_eq]
  rfl

theorem validateDistinct_unplaced (items : List Value) :
    f.unplaced.validateDistinct items = f.validateDistinct items := by
  rw [unplaced_eq]
  rfl

end Checks

mutual

/-- A field checks the same values without places. -/
theorem validate_unplaced (f : Field) (v : Value) : f.unplaced.validate v = f.validate v := by
  match v with
  | .list items =>
    simp only [validate, validateShallow_unplaced, validateDistinct_unplaced, valueType_unplaced]
    rw [validateItems_unplaced f.valueType items]
  | .tuple items =>
    simp only [validate, validateShallow_unplaced, validateDistinct_unplaced, valueType_unplaced]
    rw [validateItems_unplaced f.valueType items]
  | .set items =>
    simp only [validate, validateShallow_unplaced, valueType_unplaced]
    rw [validateItems_unplaced f.valueType items]
  | .dict entries =>
    simp only [validate, validateShallow_unplaced, keyType_unplaced, valueType_unplaced]
    rw [validateEntries_unplaced f.keyType f.valueType entries]
  | .bool _ | .int _ | .float _ | .decimal _ | .text _ | .message _ | .bytes _ | .date _
  | .datetime _ | .dotted _ =>
    simp only [validate, validateShallow_unplaced, validateTerm_unplaced]

theorem validateItems_unplaced (item : Option Field) (items : List Value) :
    validateItems (item.map unplaced) items = validateItems item items := by
  match items with
  | [] => simp only [validateItems]
  | v :: vs =>
    simp only [validateItems]
    rw [validateItems_unplaced item vs]
    cases item with
    | none => rfl
    | some g => simp only [Option.map_some, validate_unplaced g v]

theorem validateEntries_unplaced (key item : Option Field) (entries : List (Value × Value)) :
    validateEntries (key.map unplaced) (item.map unplaced) entries =
      validateEntries key item entries := by
  match entries with
  | [] => simp only [validateEntries]
  | (k, v) :: es =>
    simp only [validateEntries]
    rw [validateEntries_unplaced key item es]
    cases key with
    | none =>
      cases item with
      | none => rfl
      | some g => simp only [Option.map_some, Option.map_none, validate_unplaced g v]
    | some h =>
      cases item with
      | none => simp only [Option.map_some, Option.map_none, validate_unplaced h k]
      | some g => simp only [Option.map_some, validate_unplaced h k, validate_unplaced g v]

end

/-! ## Texts -/

section Texts

variable (f : Field)

theorem accept_unplaced (validate : Bool) (v : Value) :
    f.unplaced.accept validate v = f.accept validate v := by
  rw [accept, accept, validate_unplaced, show f.unplaced.name = f.name by rw [unplaced_eq]]

theorem invalidText_unplaced (text : String) (cause : ConversionError) :
    f.unplaced.invalidText text cause = f.invalidText text cause := by
  rw [unplaced_eq]
  rfl

theorem readTrimmed_unplaced {ε α : Type} (text : String) (read : String → Except ε α)
    (value : α → Value) (cause : ε → ConversionError) :
    f.unplaced.readTrimmed text read value cause = f.readTrimmed text read value cause := by
  simp only [readTrimmed, invalidText_unplaced]

theorem parseText_unplaced (resolve : Resolver) (text : String) :
    f.unplaced.parseText resolve text = f.parseText resolve text := by
  have hterms : f.unplaced.hasIntegerTerms = f.hasIntegerTerms := by
    rw [unplaced_eq]
    rfl
  simp only [parseText, type_unplaced, invalidText_unplaced, readTrimmed_unplaced, hterms]

/-- A field reads the same texts without places. -/
theorem valueOfText_unplaced (resolve : Resolver) (validate : Bool) (text : String) :
    f.unplaced.valueOfText resolve validate text = f.valueOfText resolve validate text := by
  rw [valueOfText, valueOfText, parseText_unplaced]
  exact bind_congr fun v => accept_unplaced f validate v

end Texts

/-! ## Attributes -/

section Attributes

variable (f : Field)

/-- Without places, terms come from the same source. -/
theorem setVocabulary_unplaced (source : TermSource) :
    (f.unplaced.setVocabulary source).map unplaced = (f.setVocabulary source).map unplaced := by
  rw [unplaced_eq f]
  unfold setVocabulary
  dsimp only
  split
  · split <;> simp [Except.map, unplaced_eq]
  · simp [Except.map, unplaced_eq]

theorem map_unplaced_congr {ε α : Type} {x : Except ε α} {u u' : α → Field}
    (h : ∀ a, (u a).unplaced = (u' a).unplaced) :
    (u <$> x).map unplaced = (u' <$> x).map unplaced := by
  cases x with
  | error e => rfl
  | ok a => exact congrArg Except.ok (h a)

/-- Setting an attribute leaves the places aside. -/
theorem assign_unplaced (name : String) (v : Option Value) :
    (f.unplaced.assign name v).map unplaced = (f.assign name v).map unplaced := by
  unfold assign
  split
  case h_17 =>
    cases expectName "vocabulary" v with
    | error e => rfl
    | ok n =>
      cases n with
      | none => simp [Except.map, bind, Except.bind, pure, Except.pure]
      | some n => exact setVocabulary_unplaced f _
  case h_18 =>
    cases expectName "vocabularyName" v with
    | error e => rfl
    | ok n =>
      cases n with
      | none => simp [Except.map, bind, Except.bind, pure, Except.pure]
      | some n => exact setVocabulary_unplaced f _
  case h_19 => rw [unplaced_eq f, unknownAttribute, unknownAttribute]; rfl
  all_goals
    first
    | exact congrArg Except.ok (by simp [unplaced_eq])
    | simp only [bind_pure_comp]
      exact map_unplaced_congr fun a => by simp [unplaced_eq]

theorem setNested_unplaced (name : String) (nested : Option Field) :
    (f.unplaced.setNested name (nested.map unplaced)).map unplaced =
      (f.setNested name nested).map unplaced := by
  rw [unplaced_eq f]
  unfold setNested
  split <;> simp [Except.map, unplaced_eq, unknownAttribute, typeIdentifier]

theorem finish_unplaced : f.unplaced.finish.map unplaced = f.finish.map unplaced := by
  have hvocabulary : f.unplaced.vocabulary = f.vocabulary := by rw [unplaced_eq]
  have hname : f.unplaced.name = f.name := by rw [unplaced_eq]
  unfold finish
  rw [type_unplaced, hvocabulary, hname]
  split
  · rfl
  · exact congrArg Except.ok (unplaced_unplaced f)

end Attributes

end ContentSchema.Field
