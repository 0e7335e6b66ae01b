import ContentSchema.Proofs.Document.Field
import ContentSchema.Proofs.Field.Unplaced

/-!
# Reading apart from numbers

A step of reading may start at any number and on any lines. `Reading.Settles r x o` says that this
makes no difference to what the step gives, as far as `r` looks at it.

What an element says of the field that it describes does not depend on the field (`Setting`,
`readDescription_eq`), and what it says is settled but for the places of nested fields.

Result: the field of an element is settled but for its place and those of the fields nested in it
(`exists_settles_readField`), and is made up from what the elements inside make of it one after the
other (`settles_readField`).
-/
namespace ContentSchema.Document

open ContentSchema.Field (unplaced)
open Markup (Element)

namespace Reading

variable {α β γ δ : Type}

/-- Whether a step gives the same wherever it starts, as far as `r` looks at its result; a step
without a result meets a fault. -/
def Settles (r : α → γ) (x : Reading α) (o : Option γ) : Prop :=
  ∀ p, (x.start p).1.toOption.map r = o

section Settles

variable {r : α → γ} {t : β → δ} {x : Reading α} {k : α → Reading β}

theorem settles_pure (r : α → γ) (a : α) : Settles r (pure a) (some (r a)) := fun _ => rfl

theorem settles_throw (r : α → γ) (fault : Fault) : Settles r (throw fault) none := fun _ => rfl

theorem settles_takeNumber : Settles (fun _ => ()) takeNumber (some ()) := fun _ => rfl

theorem settles_liftM (r : α → γ) (y : Except Fault α) :
    Settles r (liftM y : Reading α) (y.toOption.map r) := by
  intro p
  cases y <;> rfl

theorem settles_ofModel (r : α → γ) (y : Except ModelError α) :
    Settles r (ofModel y) (y.toOption.map r) := by
  intro p
  cases y <;> rfl

theorem Settles.bind {o : Option γ} {h : γ → Option δ} (hx : Settles r x o)
    (hk : ∀ a, Settles t (k a) (h (r a))) : Settles t (x >>= k) (o.bind h) := by
  intro p
  rw [← hx p, start_bind]
  obtain ⟨result, q⟩ := x.start p
  cases result with
  | error fault => rfl
  | ok a => exact hk a q

theorem Settles.within {o : Option γ} (line : Option Nat) (hx : Settles r x o) :
    Settles r (Reading.within line x) o := by
  intro p
  rw [← hx { p with lines := line :: p.lines }, start_within]
  obtain ⟨result, q⟩ := x.start { p with lines := line :: p.lines }
  cases result <;> rfl

theorem exists_settles_bind (hx : ∃ o, Settles id x o) (hk : ∀ a, ∃ o, Settles t (k a) o) :
    ∃ o, Settles t (x >>= k) o := by
  obtain ⟨o, ho⟩ := hx
  choose h hh using hk
  exact ⟨o.bind h, ho.bind hh⟩

theorem exists_settles_mapM {f : α → Reading β} {as : List α}
    (h : ∀ a ∈ as, ∃ o, Settles id (f a) o) : ∃ o, Settles id (as.mapM f) o := by
  induction as with
  | nil => exact ⟨_, settles_pure id _⟩
  | cons a as ih =>
    rw [List.mapM_cons]
    exact exists_settles_bind (h a (.head _)) fun b =>
      exists_settles_bind (ih fun c hc => h c (.tail _ hc)) fun bs => ⟨_, settles_pure id _⟩

/-- A loop whose steps are settled is so. -/
theorem settles_foldlM {f : β → α → Reading β} {act : δ → α → Option δ} {as : List α}
    (h : ∀ a ∈ as, ∀ b, Settles t (f b a) (act (t b) a)) (b : β) :
    Settles t (as.foldlM f b) (as.foldlM act (t b)) := by
  induction as generalizing b with
  | nil => exact settles_pure t b
  | cons a as ih =>
    rw [List.foldlM_cons, List.foldlM_cons]
    exact (h a (.head _) b).bind (ih fun c hc => h c (.tail _ hc))

end Settles

end Reading

open Reading (Settles settles_pure settles_throw settles_liftM settles_ofModel exists_settles_bind)

/-! ## Values -/

theorem itemField_unplaced (f : Option Field) : itemField (f.map unplaced) = (itemField f).unplaced := by
  cases f with
  | none => exact (Field.unplaced_eq (Field.ofType .textLine)).symm
  | some g => rfl

theorem missingValue_unplaced (f : Field) : f.unplaced.missingValue = f.missingValue := by
  rw [Field.unplaced_eq]

theorem requireItem_unplaced (f : Field) (v : Option Value) :
    requireItem f.unplaced v = requireItem f v := by
  cases v with
  | none => exact congrArg Except.error (f.invalidText_unplaced "" .emptyItem)
  | some v => rfl

theorem decodeScalar_unplaced (s : Surroundings) (validate : Bool) (f : Field) (e : Element) :
    decodeScalar s validate f.unplaced e = decodeScalar s validate f e := by
  simp only [decodeScalar, Field.type_unplaced, missingValue_unplaced, Field.valueOfText_unplaced]

mutual

/-- An element holds the same value for a field without places. -/
theorem decode_unplaced (s : Surroundings) (validate : Bool) (f : Field) :
    ∀ e : Element, decode s validate f.unplaced e = decode s validate f e
  | ⟨tag, attributes, children, text, line, namespaces⟩ => by
    simp only [decode, Field.type_unplaced, Field.keyType_unplaced, Field.valueType_unplaced,
      itemField_unplaced, Field.accept_unplaced, decodeScalar_unplaced,
      decodeItems_unplaced s validate (itemField f.valueType) children,
      decodeEntries_unplaced s validate (itemField f.keyType) (itemField f.valueType) children]

theorem decodeItems_unplaced (s : Surroundings) (validate : Bool) (item : Field) :
    ∀ es : List Element, decodeItems s validate item.unplaced es = decodeItems s validate item es
  | [] => rfl
  | e :: es => by
    simp only [decodeItems, requireItem_unplaced, decode_unplaced s validate item e,
      decodeItems_unplaced s validate item es]

theorem decodeEntries_unplaced (s : Surroundings) (validate : Bool) (key item : Field) :
    ∀ es : List Element,
      decodeEntries s validate key.unplaced item.unplaced es = decodeEntries s validate key item es
  | [] => rfl
  | e :: es => by
    simp only [decodeEntries, requireItem_unplaced, Field.valueOfText_unplaced,
      decode_unplaced s validate item e, decodeEntries_unplaced s validate key item es]

end

/-! ## What an element says of a field -/

/-- What an element says of the field that it describes. -/
inductive Setting where
  /-- An attribute has a value. -/
  | value (name : String) (v : Option Value)
  /-- A factory computes the default. -/
  | factory (d : DefaultFactory)
  /-- The terms come from a source. -/
  | terms (source : TermSource)
  /-- Another field is nested in the field. -/
  | nested (name : String) (k : Field)

namespace Setting

/-- The field of which it is said. -/
def apply (f : Field) : Setting → Except ModelError Field
  | value name v => f.assign name v
  | factory d => .ok { f with defaultFactory := some d }
  | terms source => f.setVocabulary source
  | nested name k => f.setNested name (some k)

/-- The same of a nested field without places. -/
def unplaced : Setting → Setting
  | nested name k => nested name k.unplaced
  | c => c

/-- Places are left aside. -/
theorem apply_unplaced (c : Setting) (f : Field) :
    (c.unplaced.apply f.unplaced).map Field.unplaced = (c.apply f).map Field.unplaced := by
  cases c with
  | value name v => exact f.assign_unplaced name v
  | factory d => exact congrArg Except.ok (by simp [Field.unplaced_eq])
  | terms source => exact f.setVocabulary_unplaced source
  | nested name k => exact f.setNested_unplaced name (some k)

end Setting

/-- Reads what an element says of the field that it describes. -/
def readSetting (s : Scope) (spec : AttributeSpec) (e : Element) : Reading Setting :=
  match spec.kind with
  | .nestedField => do
    let nested ← readField s (← nestedCodec s spec e) e
    return .nested spec.name nested
  | .schemaRef => do
    let identifier := dottedName e
    match ← Field.resolveName s.resolve identifier with
    | .schema _ => return .value spec.name (some (.dotted identifier))
    | other => throw (.wrongSymbol identifier .schema other.kind)
  | .defaultFactory => do
    let identifier := dottedName e
    match ← Field.resolveName s.resolve identifier with
    | .defaultFactory factory => return .factory factory
    | other => throw (.wrongSymbol identifier .defaultFactory other.kind)
  | .values => return .terms (.inline (← readVocabulary s e))
  | .source => return .terms (← resolveTerms s.resolve (dottedName e))
  | kind => return .value spec.name (← decode s.toSurroundings true (attributeField kind) e)

/-- What an element says of a field does not depend on the field. -/
theorem readDescription_eq (s : Scope) (f : Field) (spec : AttributeSpec) (e : Element) :
    readDescription s f spec e =
      readSetting s spec e >>= fun c => Reading.ofModel (c.apply f) := by
  obtain ⟨name, kind, default⟩ := spec
  cases kind
  case nestedField =>
    simp only [readDescription, readSetting, if_true, bind_assoc, pure_bind]
    rfl
  case schemaRef | defaultFactory =>
    simp only [readDescription, readAttribute, readSetting, reduceCtorEq, if_false, bind_assoc]
    refine bind_congr fun symbol => ?_
    cases symbol <;> rfl
  all_goals
    simp only [readDescription, readAttribute, readSetting, reduceCtorEq, if_false, bind_assoc,
      pure_bind]
    rfl

/-- The terms inside an element are settled. -/
theorem exists_settles_readVocabulary (s : Scope) (e : Element) :
    ∃ o, Settles id (readVocabulary s e) o := by
  unfold readVocabulary
  refine exists_settles_bind (Reading.exists_settles_mapM fun i _ => ?_) fun terms =>
    ⟨_, settles_ofModel id _⟩
  exact ⟨_, (settles_liftM id _).within i.line⟩

/-- What an element says is settled but for the places of nested fields, if these are. -/
theorem exists_settles_readSetting {s : Scope} (spec : AttributeSpec) {e : Element}
    (hnested : ∀ codec, ∃ o, Settles unplaced (readField s codec e) o) :
    ∃ o, Settles Setting.unplaced (readSetting s spec e) o := by
  unfold readSetting
  split
  · refine exists_settles_bind ⟨_, settles_liftM id _⟩ fun codec => ?_
    obtain ⟨o, ho⟩ := hnested codec
    exact ⟨_, ho.bind (h := fun k => some (.nested spec.name k)) fun k => settles_pure _ _⟩
  · refine exists_settles_bind ⟨_, settles_liftM id _⟩ fun symbol => ?_
    split
    · exact ⟨_, settles_pure _ _⟩
    · exact ⟨_, settles_throw _ _⟩
  · refine exists_settles_bind ⟨_, settles_liftM id _⟩ fun symbol => ?_
    split
    · exact ⟨_, settles_pure _ _⟩
    · exact ⟨_, settles_throw _ _⟩
  · exact exists_settles_bind (exists_settles_readVocabulary s e) fun v => ⟨_, settles_pure _ _⟩
  · exact exists_settles_bind ⟨_, settles_liftM id _⟩ fun source => ⟨_, settles_pure _ _⟩
  · exact exists_settles_bind ⟨_, settles_liftM id _⟩ fun v => ⟨_, settles_pure _ _⟩

/-! ## Fields -/

/-- What an element makes of the field without places that it describes. -/
inductive Contributes (s : Scope) (codec : FieldCodec) (e : Element) : (Field → Option Field) → Prop
  /-- The element is not read, or is read when the field has been described. -/
  | unread (h : ∀ spec, attributeOf? codec e = some spec → spec.kind.isOwnType = true) :
    Contributes s codec e some
  /-- The element describes the field. -/
  | described {spec : AttributeSpec} {act : Field → Option Field}
    (h : attributeOf? codec e = some spec) (hk : spec.kind.isOwnType = false)
    (settles : ∀ f, Settles unplaced (readDescription s f spec e) (act f.unplaced)) :
    Contributes s codec e act

/-- The field without places as a value of its own type makes it, if an element holds one. -/
def hold (s : Scope) (codec : FieldCodec) (es : List Element) (g : Field) (name : String) :
    Option Field :=
  match (ownElements codec es).find? (·.localName == name) with
  | none => some g
  | some e =>
    (decode s.toSurroundings ((codec.attributes.get? name).any (·.kind == .ownType)) g e).toOption.bind
      fun v => (g.assign name v).toOption.map unplaced

/-- The field without places that elements make up, each in its way. -/
def madeUp (s : Scope) (codec : FieldCodec) (act : Element → Field → Option Field) (name : String)
    (es : List Element) : Option Field := do
  let g ← es.foldlM (fun g e => act e g) (newField codec name 0)
  let g ← ownTypeAttributes.foldlM (hold s codec es) g
  g.finish.toOption.map unplaced

theorem toOption_map_congr {ε α β : Type} {x y : Except ε α} {r : α → β} (h : x.map r = y.map r) :
    x.toOption.map r = y.toOption.map r := by
  have hmap (z : Except ε α) : z.toOption.map r = (z.map r).toOption := by cases z <;> rfl
  rw [hmap, hmap, h]

section Field

variable {s : Scope} {codec : FieldCodec}

theorem settles_setting {spec : AttributeSpec} {e : Element} {o : Option Setting}
    (h : Settles Setting.unplaced (readSetting s spec e) o) (f : Field) :
    Settles unplaced (readDescription s f spec e)
      (o.bind fun c => (c.apply f.unplaced).toOption.map unplaced) := by
  rw [readDescription_eq]
  refine h.bind (h := fun c => (c.apply f.unplaced).toOption.map unplaced) fun c => ?_
  rw [toOption_map_congr (c.apply_unplaced f)]
  exact settles_ofModel unplaced (c.apply f)

theorem exists_contributes {e : Element}
    (hnested : ∀ codec, ∃ o, Settles unplaced (readField s codec e) o) :
    ∃ act, Contributes s codec e act := by
  cases h : attributeOf? codec e with
  | none => exact ⟨some, .unread fun spec hspec => nomatch h.symm.trans hspec⟩
  | some spec =>
    cases hk : spec.kind.isOwnType with
    | true => exact ⟨some, .unread fun _ hspec => Option.some.inj (h.symm.trans hspec) ▸ hk⟩
    | false =>
      obtain ⟨o, ho⟩ := exists_settles_readSetting spec hnested
      exact ⟨fun g => o.bind fun c => (c.apply g).toOption.map unplaced,
        .described h hk (settles_setting ho)⟩

/-- Elements describe a field one after the other. -/
theorem settles_readAttributes {act : Element → Field → Option Field} {es : List Element}
    (h : ∀ e ∈ es, Contributes s codec e (act e)) (f : Field) :
    Settles unplaced (readAttributes s codec f es) (es.foldlM (fun g e => act e g) f.unplaced) := by
  induction es generalizing f with
  | nil =>
    rw [readAttributes]
    exact settles_pure unplaced f
  | cons e es ih =>
    have ih := ih fun c hc => h c (.tail _ hc)
    rw [List.foldlM_cons]
    have he := h e (.head _)
    generalize act e = a at he
    cases he with
    | unread hunread =>
      have hskip : readAttributes s codec f (e :: es) = readAttributes s codec f es := by
        cases hspec : attributeOf? codec e with
        | none => rw [readAttributes, hspec]
        | some spec => exact readAttributes_cons_own hspec (hunread spec hspec) es
      rw [hskip]
      exact ih f
    | described hspec hk settles =>
      rw [readAttributes_cons_described hspec hk]
      exact ((settles f).within e.line).bind ih

/-- Values of a field's own type depend on the field without places. -/
theorem settles_readOwnType (es : List Element) (f : Field) (name : String) :
    Settles unplaced (readOwnType s codec es f name) (hold s codec es f.unplaced name) := by
  unfold hold
  cases hfind : (ownElements codec es).find? (·.localName == name) with
  | none =>
    rw [readOwnType_of_none hfind]
    exact settles_pure unplaced f
  | some e =>
    rw [readOwnType_of_some hfind]
    dsimp only
    rw [decode_unplaced]
    have hread := settles_liftM id (decode s.toSurroundings
      ((codec.attributes.get? name).any (·.kind == .ownType)) f e)
    rw [Option.map_id_fun] at hread
    refine (hread.bind fun v => ?_).within e.line
    rw [id, toOption_map_congr (f.assign_unplaced name v)]
    exact settles_ofModel unplaced (f.assign name v)

/-- The field of an element is made up from the elements inside, but for places. -/
theorem settles_readField {act : Element → Field → Option Field} {e : Element}
    (h : ∀ c ∈ e.children, Contributes s codec c (act c)) :
    Settles unplaced (readField s codec e)
      (madeUp s codec act ((e.get? "name").getD "") e.children) := by
  rw [readField_eq]
  -- The number that the field takes is its place, which `unplaced` leaves aside.
  have hnew (n : Nat) : (newField codec ((e.get? "name").getD "") n).unplaced =
      newField codec ((e.get? "name").getD "") 0 := Field.unplaced_eq _
  refine Reading.settles_takeNumber.bind (h := fun _ => madeUp s codec act _ e.children) fun n => ?_
  refine Settles.bind (hnew n ▸ settles_readAttributes h _) fun g => ?_
  refine (Reading.settles_foldlM (fun name _ f => settles_readOwnType e.children f name) g).bind
    fun g => ?_
  rw [toOption_map_congr g.finish_unplaced]
  exact settles_ofModel unplaced g.finish

/-- The field of an element does not depend on where reading starts, but for places. -/
theorem exists_settles_readField (s : Scope) (codec : FieldCodec) (e : Element) :
    ∃ o, Settles unplaced (readField s codec e) o := by
  have hchildren (c : Element) : ∃ act, c ∈ e.children → Contributes s codec c act := by
    by_cases hc : c ∈ e.children
    · have := Element.sizeOf_child_lt hc
      obtain ⟨act, hact⟩ := exists_contributes fun codec => exists_settles_readField s codec c
      exact ⟨act, fun _ => hact⟩
    · exact ⟨some, fun h => absurd h hc⟩
  choose act hact using hchildren
  exact ⟨_, settles_readField hact⟩
termination_by sizeOf e

end Field

end ContentSchema.Document
