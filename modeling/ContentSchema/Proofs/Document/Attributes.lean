import ContentSchema.Proofs.Document.FieldCodec
import ContentSchema.Proofs.Document.Terms
import ContentSchema.Proofs.Field.Kept

/-!
# Attributes of fields read back

`ExpressibleAttributes` says which fields can be written, apart from their nested fields. Each
attribute that is written has an element, and reading that element sets the attribute to what it is
in `Field.reread`: while the field is described (`Describes`), or once it is described and the
element holds a value of the field itself (`Holds`).

Results: every attribute but a nested field is left out where it has its default, or has such an
element (`ExpressibleAttributes.written_value`).
-/
namespace ContentSchema.Document

open ContentSchema.Field (overlay pick)
open FieldCodec (standard)
open Markup (Element)

variable {resolve : Resolver} {domains : Set String}

/-! ## Expressible attributes -/

/-- Texts and messages that have an element. -/
def ExpressibleText (domains : Set String) : Value → Prop
  | .text _ => True
  | .message m => ProperMessage domains m
  | _ => False

/-- The fields that can be written, apart from their nested fields. -/
structure ExpressibleAttributes (resolve : Resolver) (domains : Set String) (f : Field) : Prop where
  /-- The type has no other name. -/
  typeName : f.typeName = none
  /-- Only attributes that the type declares are set. -/
  undeclared (name : String) : (standard f.type).attributes.get? name = none →
    f.attribute? name = (Field.ofType f.type).attribute? name
  /-- The title has an element. -/
  title : ExpressibleText domains f.title
  /-- The title is one line. -/
  titleLine : Field.hasLineBreak f.title = false
  /-- The description has an element. -/
  description : ExpressibleText domains f.description
  /-- The least value has an element. -/
  min (b : Value) : f.min = some b → f.PlainScalar resolve b
  /-- The greatest value has an element. -/
  max (b : Value) : f.max = some b → f.PlainScalar resolve b
  /-- The greatest value is not below the least. -/
  bounds (a b : Value) : f.min = some a → f.max = some b → b.compareBound? a ≠ some .lt
  /-- The default has an element, and is valid. -/
  default (v : Value) : f.default = some v → Expressible resolve domains true f v ∧ f.validate v = .ok ()
  /-- The missing value has an element. -/
  missingValue (v : Value) : f.missingValue = some v → Expressible resolve domains false f v
  /-- The schema of objects is known. -/
  schema (name : String) : f.schema = some name →
    Text.trim name = name ∧ ∃ schema, resolve name = some (.schema schema)
  /-- The terms have an element. -/
  terms : f.type = .choice → ∃ source, f.vocabulary = some source ∧ ExpressibleTerms domains source

/-! ## Setting one attribute -/

/-- Whether a second field is a first one with an attribute as `f` reads back. -/
structure Sets (f : Field) (name : String) (h h' : Field) : Prop where
  /-- Nothing else has changed. -/
  bare : h'.bare = overlay [name] f.reread h.bare
  /-- The name is as before. -/
  name : h'.name = h.name
  /-- The place is as before. -/
  order : h'.order = h.order

theorem sets_overlay (f : Field) (name : String) (h : Field) :
    Sets f name h (overlay [name] f.reread h) where
  bare := by rw [Field.bare_overlay, Field.bare_reread]
  name := rfl
  order := rfl

/-- Reads an attribute that comes first, which may be a nested field. -/
def readDescription (s : Scope) (f : Field) (spec : AttributeSpec) (e : Element) : Reading Field :=
  if spec.kind = .nestedField then do
    let nested ← readField s (← nestedCodec s spec e) e
    Reading.ofModel (f.setNested spec.name (some nested))
  else readAttribute s f spec e

/-- Whether an element describes a field by an attribute: reading it sets the attribute. -/
structure Describes (resolve : Resolver) (domains : Set String) (f : Field) (spec : AttributeSpec)
    (e : Element) : Prop where
  /-- The element is that of the attribute. -/
  tag : e.tag = spec.name
  /-- The element can be written and read. -/
  regular : Regular domains e
  /-- What has the same content sets the attribute. -/
  read {s : Scope} {h : Field} {e' : Element} (m : Nat) (hs : s.resolve = resolve)
    (hr : s.registry = Registry.standard) (type : e'.get? "type" = e.get? "type")
    (name : e'.get? "name" = e.get? "name") (same : SameContent s.domain e e') :
    ∃ n h', m ≤ n ∧ (readDescription s h spec e').Succeeds m n h' ∧ Sets f spec.name h h'

/-- Whether a field is one that is being read and was described as `f`: it has no missing value yet,
and bounds only so far as they were read. -/
structure Described (f : Field) (spec : AttributeSpec) (h : Field) : Prop where
  /-- It checks no more than the field. -/
  looser : h.Looser f
  /-- There is no missing value. -/
  missingValue : h.missingValue = none
  /-- No bound restricts the least value. -/
  min : spec.name = "min" → h.min = none ∧ h.max = none
  /-- Only the least value restricts the greatest. -/
  max : spec.name = "max" → h.max = none

/-- Whether an element holds a value of a field for an attribute: reading it by the described field
sets the attribute. -/
structure Holds (resolve : Resolver) (domains : Set String) (f : Field) (spec : AttributeSpec)
    (e : Element) : Prop where
  /-- The element is that of the attribute. -/
  tag : e.tag = spec.name
  /-- The element can be written and read. -/
  regular : Regular domains e
  /-- What has the same content sets the attribute. -/
  read {s : Surroundings} {h : Field} {e' : Element} (hs : s.resolve = resolve)
    (hd : Described f spec h) (same : SameContent s.domain e e') :
    ∃ v h', decode s (spec.kind == .ownType) h e' = .ok v ∧ h.assign spec.name v = .ok h' ∧
      Sets f spec.name h h'

/-- Whether an attribute is written as it should be: not at all where it has its default, or as an
element that sets it. -/
inductive Written (resolve : Resolver) (domains : Set String) (f : Field) (spec : AttributeSpec) :
    Option Element → Prop
  /-- The attribute has its default. -/
  | absent (h : f.attribute? spec.name = (Field.ofType f.type).attribute? spec.name) :
    Written resolve domains f spec none
  /-- The element describes the field. -/
  | described {e : Element} (hk : spec.kind.isOwnType = false) (h : Describes resolve domains f spec e) :
    Written resolve domains f spec (some e)
  /-- The element holds a value of the field. -/
  | held {e : Element} (hk : spec.kind.isOwnType = true) (h : Holds resolve domains f spec e) :
    Written resolve domains f spec (some e)

/-! ## Values of fixed kinds -/

theorem encode_unforced {f : Field} {v : Value} (hm : (f.missingValue == some v) = false)
    (tag : String) (hv : v.isContainer = false) : encode false f tag v = encode true f tag v := by
  cases v <;> first
    | exact Bool.noConfusion hv
    | simp only [encode, hm, Bool.and_false, Bool.not_true, Bool.false_eq_true, if_false]

theorem encode_missingValue {f : Field} {v : Value} (hm : (f.missingValue == some v) = true)
    (tag : String) : encode false f tag v = .ok { tag } := by
  cases v <;> simp only [encode, hm, Bool.not_false, Bool.and_self, if_true]

/-- A value of a fixed kind is written as an element that reads back as the value. -/
theorem describes_value {f : Field} {spec : AttributeSpec} {v : Value}
    (hkind : spec.kind = .textLine ∨ spec.kind = .text ∨ spec.kind = .bool ∨ spec.kind = .int)
    (hv : v.isContainer = false) (h : Expressible resolve domains true (attributeField spec.kind) v)
    (hvalid : (attributeField spec.kind).validate v = .ok ())
    (hassign : ∀ h : Field, h.assign spec.name (some v) = .ok (overlay [spec.name] f.reread h)) :
    ∃ e, encode false (attributeField spec.kind) spec.name v = .ok e ∧
      Describes resolve domains f spec e := by
  obtain ⟨e, he, htag, hrep⟩ := h.exists_element (fun _ => hvalid) spec.name
  refine ⟨e, by rw [encode_unforced rfl _ hv, he], htag, hrep.regular, ?_⟩
  intro s g e' m hs _ _ _ same
  refine ⟨m, _, m.le_refl, ?_, sets_overlay f spec.name g⟩
  have hread : (do let v ← decode s.toSurroundings true (attributeField spec.kind) e'
                   Reading.ofModel (g.assign spec.name v) : Reading Field).Succeeds m m
      (overlay [spec.name] f.reread g) :=
    Reading.Succeeds.bind (Reading.succeeds_liftM (hrep.decode hs (.refl _) same) m)
      (Reading.succeeds_ofModel (hassign g) m)
  unfold readDescription readAttribute
  rcases hkind with hk | hk | hk | hk <;> simp only [hk, reduceCtorEq, if_false] at hread ⊢ <;>
    exact hread

theorem writeValue_of_default {f : Field} {spec : AttributeSpec} {v : Option Value}
    (h : (v == spec.default) = true) : writeValue f spec v = .ok none := by
  rw [writeValue, if_pos h]

theorem writeValue_of_ne {f : Field} {spec : AttributeSpec} {v : Option Value} {e : Element}
    (h : (v == spec.default) = false)
    (he : encodeOptional (isForced spec.name)
      (if spec.kind.isOwnType then f else attributeField spec.kind) spec.name v = .ok e) :
    writeValue f spec v = .ok (some e) := by
  rw [writeValue, h, if_neg Bool.false_ne_true]
  simp only [he, bind, Except.bind]
  rfl

theorem written_of_value {f : Field} {spec : AttributeSpec} {v : Option Value}
    (hattr : f.attribute? spec.name = some (.value v))
    (hdefault : (Field.ofType f.type).attribute? spec.name = some (.value spec.default))
    (heq : (v == spec.default) = true → v = spec.default)
    (hwritten : (v == spec.default) = false → ∃ e, encodeOptional (isForced spec.name)
      (if spec.kind.isOwnType then f else attributeField spec.kind) spec.name v = .ok e ∧
        Written resolve domains f spec (some e)) (key item : Option (Except Fault Element)) :
    ∃ w, writeAttribute f key item spec = .ok w ∧ Written resolve domains f spec w := by
  simp only [writeAttribute, hattr]
  cases h : v == spec.default with
  | true =>
    refine ⟨none, writeValue_of_default h, .absent ?_⟩
    rw [hattr, hdefault, heq h]
  | false =>
    obtain ⟨e, he, hw⟩ := hwritten h
    exact ⟨some e, writeValue_of_ne h he, hw⟩

theorem eq_none_of_beq {v : Option Value} (h : (v == none) = true) : v = none := by
  cases v <;> first | rfl | cases h

theorem kind_eq_of_beq {v w : Value} (h : (v == w) = true) : v.kind = w.kind := by
  by_contra hk
  have hv : Value.compare v w = .eq := beq_iff_eq.1 h
  rw [Value.compare_of_kind_ne hk] at hv
  exact hk (Value.Kind.rank_injective (Std.LawfulEqCmp.eq_of_compare hv))

theorem eq_of_beq_text {v : Value} {s : String} (h : (some v == some (.text s)) = true) :
    some v = some (.text s) := by
  have hk : v.kind = .text := kind_eq_of_beq h
  cases v with
  | text t =>
    have hv : Value.compare (.text t) (.text s) = .eq := beq_iff_eq.1 h
    rw [Value.compare] at hv
    rw [Std.LawfulEqCmp.eq_of_compare hv]
  | _ => simp [Value.kind] at hk

theorem eq_of_beq_bool {a b : Bool} (h : (some (.bool a) == some (Value.bool b)) = true) :
    some (.bool a) = some (Value.bool b) := by
  have hv : Value.compare (.bool a) (.bool b) = .eq := beq_iff_eq.1 h
  rw [Value.compare] at hv
  rw [Std.LawfulEqCmp.eq_of_compare hv]

theorem eq_of_beq_int {a b : Int64} (h : (some (.int a) == some (Value.int b)) = true) :
    some (.int a) = some (Value.int b) := by
  have hv : Value.compare (.int a) (.int b) = .eq := beq_iff_eq.1 h
  rw [Value.compare] at hv
  rw [Std.LawfulEqCmp.eq_of_compare hv]

/-! ## Each attribute -/

theorem written_fixed {f : Field} {spec : AttributeSpec} {v : Value}
    (hattr : f.attribute? spec.name = some (.value (some v)))
    (hdefault : (Field.ofType f.type).attribute? spec.name = some (.value spec.default))
    (heq : (some v == spec.default) = true → some v = spec.default)
    (hkind : spec.kind = .textLine ∨ spec.kind = .text ∨ spec.kind = .bool ∨ spec.kind = .int)
    (hforced : isForced spec.name = false) (hv : v.isContainer = false)
    (h : Expressible resolve domains true (attributeField spec.kind) v)
    (hvalid : (attributeField spec.kind).validate v = .ok ())
    (hassign : ∀ h : Field, h.assign spec.name (some v) = .ok (overlay [spec.name] f.reread h))
    (key item : Option (Except Fault Element)) :
    ∃ w, writeAttribute f key item spec = .ok w ∧ Written resolve domains f spec w := by
  refine written_of_value hattr hdefault heq (fun _ => ?_) key item
  obtain ⟨e, he, hdescribes⟩ := describes_value hkind hv h hvalid hassign
  have hown : spec.kind.isOwnType = false := by
    rcases hkind with hk | hk | hk | hk <;> rw [hk] <;> rfl
  refine ⟨e, ?_, .described hown hdescribes⟩
  rw [hforced, hown]
  exact he

theorem expressible_of_text {v : Value} (h : ExpressibleText domains v) {t : FieldType}
    (ht : admitsMessages t = true) (resolve : Resolver) :
    Expressible resolve domains true (Field.ofType t) v ∧ (v.kind = .text ∨ v.kind = .message) ∧
      v.isContainer = false ∧ ∀ name, Field.expectText name (some v) = .ok v := by
  cases v with
  | text s => exact ⟨.scalar (.text (isTextual_of_admitsMessages ht)), .inl rfl, rfl, fun _ => rfl⟩
  | message m => exact ⟨.message ht h fun _ => rfl, .inr rfl, rfl, fun _ => rfl⟩
  | _ => exact h.elim

theorem expectInt_map (name : String) (n : Option Int64) :
    Field.expectInt name (n.map .int) = .ok n := by
  cases n <;> rfl

theorem expectInt_some (name : String) (n : Int64) :
    Field.expectInt name (some (.int n)) = .ok (some n) := rfl

theorem expectName_map (name : String) (s : Option String) :
    Field.expectName name (s.map .dotted) = .ok s := by
  cases s <;> rfl

namespace ExpressibleAttributes

variable {f : Field}

/-- Assigning the value that an attribute of `f` has sets the attribute. -/
theorem assign_value (h : ExpressibleAttributes resolve domains f) {name : String} {v : Option Value}
    (hn : name ∈ ["title", "description", "required", "readonly", "min_length", "max_length",
      "min_dots", "max_dots", "validate_invariants", "schema", "default", "missing_value"])
    (hattr : f.attribute? name = some (.value v)) (g : Field) :
    g.assign name v = .ok (overlay [name] f.reread g) := by
  obtain ⟨-, -, -, htitle⟩ := expressible_of_text h.title (t := .textLine) rfl resolve
  obtain ⟨-, -, -, hdescription⟩ := expressible_of_text h.description (t := .text) rfl resolve
  simp only [List.mem_cons, List.not_mem_nil, or_false] at hn
  cases g
  rcases hn with rfl | rfl | rfl | rfl | rfl | rfl | rfl | rfl | rfl | rfl | rfl | rfl <;>
    cases hattr
  · simp [Field.assign, htitle, overlay, pick, Field.reread_eq, Field.asRead, Field.forget,
      Field.strip, bind, Except.bind, pure, Except.pure]
  · simp [Field.assign, hdescription, overlay, pick, Field.reread_eq, Field.asRead, Field.forget,
      Field.strip, bind, Except.bind, pure, Except.pure]
  all_goals
    simp [Field.assign, Field.expectBool, expectInt_map, expectInt_some, expectName_map, overlay,
      pick, Field.reread_eq, Field.asRead, Field.forget, Field.strip, bind, Except.bind, pure,
      Except.pure]

theorem written_title (h : ExpressibleAttributes resolve domains f)
    (key item : Option (Except Fault Element)) :
    ∃ w, writeAttribute f key item ⟨"title", .textLine, some (.text "")⟩ = .ok w ∧
      Written resolve domains f ⟨"title", .textLine, some (.text "")⟩ w := by
  obtain ⟨hE, hk, hv, -⟩ := expressible_of_text h.title (t := .textLine) rfl resolve
  exact written_fixed rfl rfl eq_of_beq_text (.inl rfl) rfl hv hE
    (validate_ofType rfl hk fun _ => h.titleLine) (h.assign_value (by simp) rfl) key item

theorem written_description (h : ExpressibleAttributes resolve domains f)
    (key item : Option (Except Fault Element)) :
    ∃ w, writeAttribute f key item ⟨"description", .text, some (.text "")⟩ = .ok w ∧
      Written resolve domains f ⟨"description", .text, some (.text "")⟩ w := by
  obtain ⟨hE, hk, hv, -⟩ := expressible_of_text h.description (t := .text) rfl resolve
  exact written_fixed rfl rfl eq_of_beq_text (.inr (.inl rfl)) rfl hv hE
    (validate_ofType rfl hk fun hl => absurd hl (by decide)) (h.assign_value (by simp) rfl) key item

theorem written_bool (h : ExpressibleAttributes resolve domains f) {name : String} {b d : Bool}
    (hn : name ∈ ["required", "readonly", "validate_invariants"])
    (hattr : f.attribute? name = some (.value (some (.bool b))))
    (hdefault : (Field.ofType f.type).attribute? name = some (.value (some (.bool d))))
    (key item : Option (Except Fault Element)) :
    ∃ w, writeAttribute f key item ⟨name, .bool, some (.bool d)⟩ = .ok w ∧
      Written resolve domains f ⟨name, .bool, some (.bool d)⟩ w := by
  have hforced : isForced name = false := by
    simp only [List.mem_cons, List.not_mem_nil, or_false] at hn
    rcases hn with rfl | rfl | rfl <;> rfl
  refine written_fixed hattr hdefault eq_of_beq_bool (.inr (.inr (.inl rfl))) hforced rfl
    (.scalar (.bool rfl)) rfl (h.assign_value ?_ hattr) key item
  simp only [List.mem_cons, List.not_mem_nil, or_false] at hn ⊢
  tauto

theorem written_int (h : ExpressibleAttributes resolve domains f) {name : String} {v d : Option Int64}
    (hn : name ∈ ["min_length", "max_length", "min_dots", "max_dots"])
    (hattr : f.attribute? name = some (.value (v.map .int)))
    (hdefault : (Field.ofType f.type).attribute? name = some (.value (d.map .int)))
    (habsent : v = none → d = none) (key item : Option (Except Fault Element)) :
    ∃ w, writeAttribute f key item ⟨name, .int, d.map .int⟩ = .ok w ∧
      Written resolve domains f ⟨name, .int, d.map .int⟩ w := by
  have hforced : isForced name = false := by
    simp only [List.mem_cons, List.not_mem_nil, or_false] at hn
    rcases hn with rfl | rfl | rfl | rfl <;> rfl
  cases v with
  | none =>
    refine written_of_value (v := none) hattr hdefault (fun _ => ?_) (fun hne => ?_) key item
    · rw [habsent rfl]
      rfl
    · rw [habsent rfl] at hne
      cases hne
  | some n =>
    refine written_fixed hattr hdefault (fun heq => ?_) (.inr (.inr (.inr rfl))) hforced rfl
      (.scalar (.int rfl)) rfl (h.assign_value ?_ hattr) key item
    · cases d with
      | none => cases heq
      | some m => exact eq_of_beq_int heq
    · simp only [List.mem_cons, List.not_mem_nil, or_false] at hn ⊢
      tauto

theorem written_schema (h : ExpressibleAttributes resolve domains f)
    (key item : Option (Except Fault Element)) :
    ∃ w, writeAttribute f key item ⟨"schema", .schemaRef, none⟩ = .ok w ∧
      Written resolve domains f ⟨"schema", .schemaRef, none⟩ w := by
  refine written_of_value (v := f.schema.map .dotted) rfl rfl eq_none_of_beq (fun hne => ?_) key item
  cases hs : f.schema with
  | none =>
    rw [hs] at hne
    cases hne
  | some name =>
    obtain ⟨htrim, schema, hresolve⟩ := h.schema name hs
    refine ⟨{ tag := "schema", text := some name }, rfl, .described rfl ⟨rfl, 
      regular_unmarked (by simp) (by simp) allRegular_nil, ?_⟩⟩
    intro s g e' m hres _ _ _ same
    obtain ⟨-, -, htext, -⟩ := same
    have hname : dottedName e' = name := by
      rw [dottedName, htext rfl]
      exact htrim
    have hlookup : Field.resolveName s.resolve name = .ok (.schema schema) := by
      rw [Field.resolveName, hres, hresolve]
    have hassign : g.assign "schema" (some (.dotted name)) = .ok (overlay ["schema"] f.reread g) :=
      h.assign_value (by simp) (by simp [Field.attribute?, hs]) g
    refine ⟨m, _, m.le_refl, ?_, sets_overlay f "schema" g⟩
    simp only [readDescription, readAttribute, hname, reduceCtorEq, if_false]
    exact Reading.Succeeds.bind (Reading.succeeds_liftM hlookup m)
      (Reading.succeeds_ofModel hassign m)

/-! ## Values of the field itself -/

/-- A default or missing value is always written. -/
theorem written_own (h : ExpressibleAttributes resolve domains f) {name : String}
    {kind : AttributeKind} {v : Option Value} (hn : name = "default" ∨ name = "missing_value")
    (hk : kind.isOwnType = true) (hattr : f.attribute? name = some (.value v))
    (hdefault : (Field.ofType f.type).attribute? name = some (.value none))
    (hv : ∀ w, v = some w → Expressible resolve domains (kind == .ownType) f w ∧
      ((kind == .ownType) = true → f.validate w = .ok ()))
    (key item : Option (Except Fault Element)) :
    ∃ w, writeAttribute f key item ⟨name, kind, none⟩ = .ok w ∧
      Written resolve domains f ⟨name, kind, none⟩ w := by
  refine written_of_value hattr hdefault eq_none_of_beq (fun hne => ?_) key item
  cases v with
  | none => cases hne
  | some w =>
    obtain ⟨hE, hvalid⟩ := hv w rfl
    obtain ⟨e, he, htag, hrep⟩ := hE.exists_element hvalid name
    have hforced : isForced name = true := by rcases hn with rfl | rfl <;> rfl
    refine ⟨e, ?_, .held hk ⟨htag, hrep.regular, ?_⟩⟩
    · rw [hforced, hk]
      exact he
    · intro s g e' hs hd same
      exact ⟨some w, _, hrep.decode hs hd.looser same,
        h.assign_value (by rcases hn with rfl | rfl <;> simp) hattr g, sets_overlay f name g⟩

theorem validate_of_isOrderable {g : Field} {b : Value} (ho : g.type.isOrderable = true)
    (hp : g.PlainScalar resolve b) (hb : g.validateBounds b = .ok ()) : g.validate b = .ok () := by
  cases hp with
  | int ht | decimal ht | date ht | datetime ht =>
    rw [Field.validate_ok_iff_of_scalar rfl, Field.validateShallow_ok_iff]
    refine ⟨⟨?_, hb, rfl, ?_⟩, ?_⟩
    · rw [Field.validateType, ht]
      rfl
    · rw [Field.validateText, ht]
      rfl
    · rw [Field.validateTerm, ht]
  | text ht => cases h : g.type <;> simp_all [FieldType.isTextual, FieldType.isOrderable]
  | bytes ht => rcases ht with ht | ht <;> rw [ht] at ho <;> cases ho
  | bool ht | dotted ht | choice ht => 
    rw [ht] at ho
    cases ho

/-- A bound is written as an empty element if it equals the missing value. -/
theorem written_bound (h : ExpressibleAttributes resolve domains f) {name : String} {bound : Option Value}
    (hn : name = "min" ∨ name = "max") (hattr : f.attribute? name = some (.value bound))
    (hdefault : (Field.ofType f.type).attribute? name = some (.value none))
    (hscalar : ∀ b, bound = some b → f.PlainScalar resolve b)
    (hvalid : ∀ b g, bound = some b → Described f ⟨name, .ownType, none⟩ g →
      g.validateBounds b = .ok ())
    (hassign : ∀ g : Field,
      g.assign name (f.boundAsRead bound) = .ok (overlay [name] f.reread g))
    (key item : Option (Except Fault Element)) :
    ∃ w, writeAttribute f key item ⟨name, .ownType, none⟩ = .ok w ∧
      Written resolve domains f ⟨name, .ownType, none⟩ w := by
  refine written_of_value hattr hdefault eq_none_of_beq (fun hne => ?_) key item
  cases bound with
  | none => cases hne
  | some b =>
    have hp := hscalar b rfl
    have ho : f.type.isOrderable = true := by
      cases hd : (standard f.type).attributes.get? name with
      | none =>
        have hnone := h.undeclared name hd
        rw [hattr, hdefault] at hnone
        cases hnone
      | some spec => exact FieldCodec.isOrderable_of_declared hd hn
    have hforced : isForced name = false := by rcases hn with rfl | rfl <;> rfl
    obtain ⟨text, htext, hne, hparse⟩ := hp.exists_text
    obtain ⟨hdict, hcoll⟩ := not_container_of_plainScalar hp
    cases hm : f.missingValue == some b with
    | true =>
      refine ⟨{ tag := name }, ?_, .held rfl ⟨rfl, regular_unmarked (by simp) (by simp) allRegular_nil, ?_⟩⟩
      · simp only [hforced, AttributeKind.isOwnType, if_true, encodeOptional]
        exact encode_missingValue hm name
      · intro s g e' hs hd same
        obtain ⟨-, -, htext, -⟩ := same
        refine ⟨none, _, ?_, ?_, sets_overlay f name g⟩
        · rw [decode_eq, hd.looser.type_eq, if_neg hdict, hcoll, if_neg Bool.false_ne_true,
            decodeScalar, htext rfl]
          exact congrArg Except.ok hd.missingValue
        · have hnone : f.boundAsRead (some b) = none := by simp [Field.boundAsRead, Option.filter, hm]
          rw [← hassign g, hnone]
    | false =>
      refine ⟨{ tag := name, text := some text }, ?_,
        .held rfl ⟨rfl, regular_unmarked (by simp) (by simp) allRegular_nil, ?_⟩⟩
      · simp only [hforced, AttributeKind.isOwnType, if_true, encodeOptional]
        exact encode_scalar false name hp htext (.inr hm)
      · intro s g e' hs hd same
        have htype := hd.looser.type_eq
        have hvoc := hd.looser.vocabulary_eq
        have hp' := hp.congr htype hvoc
        have hrep : Represents resolve domains true g { tag := name, text := some text } b :=
          represents_scalar name hp' (fun h1 h2 => hparse (h1.trans htype) (h2.trans hvoc))
            (by rw [htype, hne]) fun _ =>
              validate_of_isOrderable (by rw [htype, ho]) hp' (hvalid b g rfl hd)
        refine ⟨some b, _, hrep.decode hs (.refl g) same, ?_, sets_overlay f name g⟩
        have hsome : f.boundAsRead (some b) = some b := by
          simp [Field.boundAsRead, Option.filter, hm]
        rw [← hassign g, hsome]

theorem written_min (h : ExpressibleAttributes resolve domains f)
    (key item : Option (Except Fault Element)) :
    ∃ w, writeAttribute f key item ⟨"min", .ownType, none⟩ = .ok w ∧
      Written resolve domains f ⟨"min", .ownType, none⟩ w := by
  refine h.written_bound (.inl rfl) rfl rfl h.min (fun b g _ hd => ?_) (fun g => ?_) key item
  · obtain ⟨hmin, hmax⟩ := hd.min rfl
    rw [Field.validateBounds_ok_iff, hmin, hmax]
    exact ⟨nofun, nofun⟩
  · cases g
    simp [Field.assign, overlay, pick, Field.reread_eq, Field.asRead]

theorem written_max (h : ExpressibleAttributes resolve domains f)
    (key item : Option (Except Fault Element)) :
    ∃ w, writeAttribute f key item ⟨"max", .ownType, none⟩ = .ok w ∧
      Written resolve domains f ⟨"max", .ownType, none⟩ w := by
  refine h.written_bound (.inr rfl) rfl rfl h.max (fun b g hb hd => ?_) (fun g => ?_) key item
  · rw [Field.validateBounds_ok_iff, hd.max rfl]
    refine ⟨fun a ha => h.bounds a b ?_ hb, nofun⟩
    obtain ⟨-, hmin, -⟩ := hd.looser
    rcases hmin with hmin | hmin <;> rw [hmin] at ha
    · cases ha
    · exact ha
  · cases g
    simp [Field.assign, overlay, pick, Field.reread_eq, Field.asRead]

/-- Every attribute but a nested field is written as it should be. -/
theorem written_value (h : ExpressibleAttributes resolve domains f) {spec : AttributeSpec}
    (hs : spec ∈ writtenSpecs) (hk : spec.kind ≠ .nestedField)
    (key item : Option (Except Fault Element)) :
    ∃ w, writeAttribute f key item spec = .ok w ∧ Written resolve domains f spec w := by
  simp only [writtenSpecs, List.mem_cons, List.not_mem_nil, or_false] at hs
  rcases hs with rfl | rfl | rfl | rfl | rfl | rfl | rfl | rfl | rfl | rfl | rfl | rfl | rfl | rfl |
    rfl | rfl
  · exact h.written_own (.inl rfl) (show AttributeKind.ownType.isOwnType = true from rfl) rfl rfl
      (fun w hw => ⟨(h.default w hw).1, fun _ => (h.default w hw).2⟩) key item
  · exact h.written_description key item
  · exact absurd rfl hk
  · exact h.written_max key item
  · exact h.written_int (v := f.maxDots) (d := none) (by simp) rfl rfl (fun _ => rfl) key item
  · exact h.written_int (v := f.maxLength) (d := none) (by simp) rfl rfl (fun _ => rfl) key item
  · exact h.written_min key item
  · exact h.written_int (v := some f.minDots) (d := some 0) (by simp) rfl rfl (fun h => by cases h) key item
  · exact h.written_int (v := some f.minLength) (d := some 0) (by simp) rfl rfl (fun h => by cases h) key item
  · exact h.written_own (.inr rfl) (show AttributeKind.ownTypeUnvalidated.isOwnType = true from rfl) rfl rfl
      (fun w hw => ⟨h.missingValue w hw, fun hk => absurd hk (by decide)⟩) key item
  · exact h.written_bool (by simp) rfl rfl key item
  · exact h.written_bool (by simp) rfl rfl key item
  · exact h.written_schema key item
  · exact h.written_title key item
  · exact h.written_bool (by simp) rfl rfl key item
  · exact absurd rfl hk

end ExpressibleAttributes
end ContentSchema.Document
