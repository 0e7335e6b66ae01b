import ContentSchema.Field.Validation
import ContentSchema.Proofs.Field.Validation

/-!
# What documents keep of a field

A document keeps neither the place of a field nor what belongs to the schema around it, and it never
says whether items are distinct. `Field.kept` is what it should keep, at every level of nesting.

A bound that equals the missing value of its field is written as an empty element, and is lost when
that is read. `Field.reread` is what reading gives, and it is what should be kept just if no level
has such a bound (`Field.reread_eq_kept_iff`).
-/
namespace ContentSchema.Field

/-! ## Every level -/

/-- Applies a step to a field and to the fields nested in it. -/
def everywhere (step : Field → Field) (f : Field) : Field :=
  match f with
  | { keyType, valueType, .. } =>
    step { f with
      keyType := match keyType with
        | some k => some (everywhere step k)
        | none => none
      valueType := match valueType with
        | some k => some (everywhere step k)
        | none => none }

theorem everywhere_eq (step : Field → Field) (f : Field) :
    everywhere step f =
      step { f with
        keyType := f.keyType.map (everywhere step)
        valueType := f.valueType.map (everywhere step) } := by
  cases f with
  | mk name type typeName title description required readonly default missingValue defaultFactory
      order interface markers min max minLength maxLength minDots maxDots unique keyType valueType
      schema validateInvariants vocabulary =>
    cases keyType <;> cases valueType <;> rfl

/-- Whether a field and the fields nested in it satisfy a property. -/
inductive Everywhere (P : Field → Prop) : Field → Prop
  /-- The field does, and so does each nested one. -/
  | intro {f : Field} (here : P f) (key : ∀ k, f.keyType = some k → Everywhere P k)
    (value : ∀ k, f.valueType = some k → Everywhere P k) : Everywhere P f

theorem Everywhere.here {P : Field → Prop} {f : Field} (h : f.Everywhere P) : P f := by
  cases h
  assumption

theorem Everywhere.imp {P Q : Field → Prop} {f : Field} (h : f.Everywhere P)
    (hPQ : ∀ k, P k → Q k) : f.Everywhere Q := by
  induction h with
  | intro here _ _ key value => exact .intro (hPQ _ here) key value

theorem Everywhere.and {P Q : Field → Prop} {f : Field} (hP : f.Everywhere P) (hQ : f.Everywhere Q) :
    f.Everywhere fun k => P k ∧ Q k := by
  induction hP with
  | intro here _ _ key value =>
    obtain ⟨here', key', value'⟩ := hQ
    exact .intro ⟨here, here'⟩ (fun k hk => key k hk (key' k hk)) fun k hk => value k hk (value' k hk)

/-- Whether a field or one of the fields nested in it satisfies a property. -/
inductive Somewhere (P : Field → Prop) : Field → Prop
  /-- The field does. -/
  | here {f : Field} (h : P f) : Somewhere P f
  /-- The field of the keys does, or one nested in it. -/
  | key {f k : Field} (hk : f.keyType = some k) (h : Somewhere P k) : Somewhere P f
  /-- The field of the items or values does, or one nested in it. -/
  | value {f k : Field} (hk : f.valueType = some k) (h : Somewhere P k) : Somewhere P f

theorem Everywhere.somewhere {P Q R : Field → Prop} {f : Field} (hP : f.Everywhere P)
    (hQ : f.Somewhere Q) (h : ∀ k, k.Everywhere P → Q k → R k) : f.Somewhere R := by
  induction hQ with
  | here hf => exact .here (h _ hP hf)
  | key hk _ ih =>
    obtain ⟨-, key, -⟩ := hP
    exact .key hk (ih (key _ hk))
  | value hk _ ih =>
    obtain ⟨-, -, value⟩ := hP
    exact .value hk (ih (value _ hk))

/-- A step that neither looks at the nested fields nor changes them. -/
def Shallow (step : Field → Field) : Prop :=
  ∀ f key value, step { f with keyType := key, valueType := value } =
    { step f with keyType := key, valueType := value }

theorem map_congr_of {f : Option Field} {g h : Field → Field} (hf : ∀ k, f = some k → g k = h k) :
    f.map g = f.map h := by
  cases f with
  | none => rfl
  | some k => exact congrArg some (hf k rfl)

/-- Two steps at every level are one. -/
theorem everywhere_everywhere {s t : Field → Field} (hs : Shallow s) (ht : Shallow t) (f : Field) :
    everywhere s (everywhere t f) = everywhere (fun f => s (t f)) f := by
  induction f using nested_induction with
  | step f key value =>
    rw [everywhere_eq t f, ht, everywhere_eq s, hs, everywhere_eq (fun f => s (t f)) f, ht, hs]
    simp only [Option.map_map]
    rw [map_congr_of (g := everywhere s ∘ everywhere t) key,
      map_congr_of (g := everywhere s ∘ everywhere t) value]
    exact (hs (t f) _ _).symm

/-! ## What is kept -/

/-- The field apart from its schema: without name, place, markers and default factory. -/
def strip (f : Field) : Field :=
  { f with name := "", order := 0, interface := none, markers := ∅, defaultFactory := none }

/-- The field as far as documents speak of it. -/
def forget (f : Field) : Field := { f.strip with unique := false }

/-- A bound as it is read back. -/
def boundAsRead (f : Field) (bound : Option Value) : Option Value :=
  bound.filter fun b => !(f.missingValue == some b)

/-- The field as it is read back. -/
def asRead (f : Field) : Field :=
  { f.forget with min := f.boundAsRead f.min, max := f.boundAsRead f.max }

/-- A field apart from its schema, at every level. -/
def bare : Field → Field := everywhere strip

/-- What documents should keep of a field, at every level. -/
def kept : Field → Field := everywhere forget

/-- What reading the element of a field gives, at every level, apart from the schema. -/
def reread : Field → Field := everywhere asRead

/-- The field as far as documents speak of it, but for its bounds. -/
def forgetBounds (f : Field) : Field := { f.forget with min := none, max := none }

/-- What documents should keep of a field but for bounds, at every level. -/
def unbounded : Field → Field := everywhere forgetBounds

theorem shallow_strip : Shallow strip := fun _ _ _ => rfl

theorem shallow_forget : Shallow forget := fun _ _ _ => rfl

theorem shallow_asRead : Shallow asRead := fun _ _ _ => rfl

theorem shallow_forgetBounds : Shallow forgetBounds := fun _ _ _ => rfl

theorem bare_eq (f : Field) :
    f.bare = { f.strip with keyType := f.keyType.map bare, valueType := f.valueType.map bare } :=
  everywhere_eq strip f

theorem kept_eq (f : Field) :
    f.kept = { f.forget with keyType := f.keyType.map kept, valueType := f.valueType.map kept } :=
  everywhere_eq forget f

theorem reread_eq (f : Field) :
    f.reread =
      { f.asRead with keyType := f.keyType.map reread, valueType := f.valueType.map reread } :=
  everywhere_eq asRead f

theorem kept_bare (f : Field) : f.bare.kept = f.kept :=
  everywhere_everywhere shallow_forget shallow_strip f

theorem bare_reread (f : Field) : f.reread.bare = f.reread :=
  everywhere_everywhere shallow_strip shallow_asRead f

theorem kept_reread (f : Field) : f.reread.kept = f.reread :=
  everywhere_everywhere shallow_forget shallow_asRead f

theorem unbounded_eq (f : Field) :
    f.unbounded = { f.forgetBounds with
      keyType := f.keyType.map unbounded, valueType := f.valueType.map unbounded } :=
  everywhere_eq forgetBounds f

theorem unbounded_kept (f : Field) : f.kept.unbounded = f.unbounded :=
  everywhere_everywhere shallow_forgetBounds shallow_forget f

theorem unbounded_reread (f : Field) : f.reread.unbounded = f.unbounded :=
  everywhere_everywhere shallow_forgetBounds shallow_asRead f

/-- Whether the bounds of a field differ from its missing value. -/
structure BoundsDiffer (f : Field) : Prop where
  /-- The least value differs. -/
  min : ∀ b, f.min = some b → (f.missingValue == some b) = false
  /-- The greatest value differs. -/
  max : ∀ b, f.max = some b → (f.missingValue == some b) = false

theorem boundAsRead_eq_iff (f : Field) (bound : Option Value) :
    f.boundAsRead bound = bound ↔ ∀ b, bound = some b → (f.missingValue == some b) = false := by
  cases bound with
  | none => simp [boundAsRead]
  | some b => cases h : f.missingValue == some b <;> simp [boundAsRead, Option.filter, h]

/-- A field reads back as it should just if its bounds differ from the missing value at every
level. -/
theorem reread_eq_kept_iff (f : Field) : f.reread = f.kept ↔ f.Everywhere BoundsDiffer := by
  induction f using nested_induction with
  | step f key value =>
    have nested (o : Option Field)
        (ho : ∀ k, o = some k → (k.reread = k.kept ↔ k.Everywhere BoundsDiffer)) :
        o.map reread = o.map kept ↔ ∀ k, o = some k → k.Everywhere BoundsDiffer := by
      cases o with
      | none => simp
      | some k =>
        rw [Option.map_some, Option.map_some, Option.some.injEq, ho k rfl]
        exact ⟨fun h k' hk' => Option.some.inj hk' ▸ h, fun h => h k rfl⟩
    have hmin := boundAsRead_eq_iff f f.min
    have hmax := boundAsRead_eq_iff f f.max
    rw [reread_eq, kept_eq]
    constructor
    · intro h
      simp only [asRead, forget, strip, mk.injEq, true_and, and_true] at h
      obtain ⟨h1, h2, h3, h4⟩ := h
      exact ⟨⟨hmin.1 h1, hmax.1 h2⟩, (nested _ key).1 h3, (nested _ value).1 h4⟩
    · rintro ⟨⟨h1, h2⟩, h3, h4⟩
      rw [(nested _ key).2 h3, (nested _ value).2 h4]
      simp only [asRead, hmin.2 h1, hmax.2 h2]
      rfl

/-! ## Reading attribute by attribute -/

/-- The attributes that are written as elements. -/
def writtenNames : List String :=
  ["default", "description", "key_type", "max", "max_dots", "max_length", "min", "min_dots",
    "min_length", "missing_value", "readonly", "required", "schema", "title",
    "validate_invariants", "value_type"]

/-- The first of two things if a name is among others, or else the second one. -/
def pick {α : Type} (names : List String) (name : String) (a b : α) : α :=
  if name ∈ names then a else b

theorem pick_append {α : Type} (names others : List String) (name : String) (a b : α) :
    pick (names ++ others) name a b = pick names name a (pick others name a b) := by
  unfold pick
  by_cases h : name ∈ names <;> by_cases h' : name ∈ others <;> simp [h, h']

theorem map_pick {α β : Type} (f : α → β) (names : List String) (name : String) (a b : Option α) :
    (pick names name a b).map f = pick names name (a.map f) (b.map f) := by
  unfold pick
  split <;> rfl

/-- The field `h` with the named attributes of the field `r`. -/
def overlay (names : List String) (r h : Field) : Field :=
  { h with
    title := pick names "title" r.title h.title
    description := pick names "description" r.description h.description
    required := pick names "required" r.required h.required
    readonly := pick names "readonly" r.readonly h.readonly
    default := pick names "default" r.default h.default
    missingValue := pick names "missing_value" r.missingValue h.missingValue
    min := pick names "min" r.min h.min
    max := pick names "max" r.max h.max
    minLength := pick names "min_length" r.minLength h.minLength
    maxLength := pick names "max_length" r.maxLength h.maxLength
    minDots := pick names "min_dots" r.minDots h.minDots
    maxDots := pick names "max_dots" r.maxDots h.maxDots
    keyType := pick names "key_type" r.keyType h.keyType
    valueType := pick names "value_type" r.valueType h.valueType
    schema := pick names "schema" r.schema h.schema
    validateInvariants :=
      pick names "validate_invariants" r.validateInvariants h.validateInvariants }

theorem overlay_nil (r h : Field) : overlay [] r h = h := by
  cases h
  rfl

theorem overlay_append (names others : List String) (r h : Field) :
    overlay (names ++ others) r h = overlay names r (overlay others r h) := by
  simp only [overlay, pick_append]

theorem overlay_cons (name : String) (names : List String) (r h : Field) :
    overlay (name :: names) r h = overlay [name] r (overlay names r h) :=
  overlay_append [name] names r h

theorem overlay_congr {names others : List String} (hn : ∀ n, n ∈ names ↔ n ∈ others)
    (r h : Field) : overlay names r h = overlay others r h := by
  have hpick {α : Type} (n : String) (a b : α) : pick names n a b = pick others n a b := by
    simp only [pick, hn n]
  simp only [overlay, hpick]

/-- An attribute that is as it was changes nothing. -/
theorem overlay_cons_of_same {name : String} {r h : Field} (hs : overlay [name] r h = h)
    (names : List String) : overlay (name :: names) r h = overlay names r h := by
  have hswap : ∀ n, n ∈ name :: names ↔ n ∈ names ++ [name] := fun n => by simp [or_comm]
  rw [overlay_congr hswap, overlay_append, hs]

theorem overlay_of_same {names others : List String} {r h : Field} (hsub : others ⊆ names)
    (hs : ∀ n ∈ names, n ∉ others → overlay [n] r h = h) :
    overlay names r h = overlay others r h := by
  have key (extra : List String) (he : ∀ n ∈ extra, overlay [n] r h = h) :
      overlay (extra ++ others) r h = overlay others r h := by
    induction extra with
    | nil => rfl
    | cons n extra ih =>
      rw [List.cons_append, overlay_cons_of_same (he n (.head _)),
        ih fun m hm => he m (.tail _ hm)]
  rw [← key (names.filter (· ∉ others)) fun n hn => by
    obtain ⟨hn, ho⟩ := List.mem_filter.1 hn
    exact hs n hn (by simpa using ho)]
  refine overlay_congr (fun n => ?_) r h
  by_cases ho : n ∈ others
  · simp [ho, hsub ho]
  · simp [ho]

theorem bare_overlay (names : List String) (r h : Field) :
    (overlay names r h).bare = overlay names r.bare h.bare := by
  rw [bare_eq, bare_eq r, bare_eq h]
  simp only [overlay, strip, map_pick]

/-! ## What is read checks no more -/

theorem boundAsRead_cases (f : Field) (bound : Option Value) :
    f.boundAsRead bound = none ∨ f.boundAsRead bound = bound := by
  cases bound with
  | none => exact .inl rfl
  | some b => cases h : f.missingValue == some b <;> simp [boundAsRead, Option.filter, h]

/-- A field that reads back checks no more than the field that was written, also while the bounds,
the default and the missing value are still to be read. -/
theorem looser_of_bare {f h : Field} {a b default missing : Option Value}
    (ha : a = none ∨ a = f.min) (hb : b = none ∨ b = f.max)
    (heq : h.bare =
      { f.reread with min := a, max := b, default := default, missingValue := missing }) :
    h.Looser f := by
  induction f using nested_induction generalizing h a b default missing with
  | step f key value =>
    have nested {o o' : Option Field} (ho : o.map bare = o'.map reread)
        (ih : ∀ k, o' = some k → ∀ {h : Field} {a b default missing : Option Value},
          (a = none ∨ a = k.min) → (b = none ∨ b = k.max) →
          h.bare = { k.reread with min := a, max := b, default := default, missingValue := missing } →
            h.Looser k) :
        o.isSome = o'.isSome ∧ ∀ k' k, o = some k' → o' = some k → k'.Looser k := by
      cases o <;> cases o' <;> simp only [Option.map_none, Option.map_some] at ho
      · exact ⟨rfl, fun _ _ h => nomatch h⟩
      · cases ho
      · cases ho
      · rename_i g k
        refine ⟨rfl, fun k' k'' hk' hk'' => ?_⟩
        cases hk'
        cases hk''
        have hg : g.bare = { k.reread with
            min := k.boundAsRead k.min, max := k.boundAsRead k.max,
            default := k.reread.default, missingValue := k.reread.missingValue } := by
          rw [Option.some.inj ho, reread_eq]
          rfl
        exact ih k rfl (k.boundAsRead_cases k.min) (k.boundAsRead_cases k.max) hg
    rw [bare_eq, reread_eq] at heq
    simp only [strip, asRead, forget, mk.injEq] at heq
    obtain ⟨-, htype, -, -, -, -, -, -, -, -, -, -, -, hmin, hmax, hminLength, hmaxLength, hminDots,
      hmaxDots, hunique, hkey, hvalue, -, -, hvocabulary⟩ := heq
    obtain ⟨hasKey, hkeys⟩ := nested hkey key
    obtain ⟨hasValue, hvalues⟩ := nested hvalue value
    refine ⟨htype, by rw [hmin]; exact ha, by rw [hmax]; exact hb, hminLength, hmaxLength, hminDots,
      hmaxDots, fun hu => ?_, hvocabulary, hasKey, hkeys, hasValue, hvalues⟩
    rw [hunique] at hu
    cases hu

end ContentSchema.Field
