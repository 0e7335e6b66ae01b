import ContentSchema.Proofs.Document.FieldReader

/-!
# Texts for users in fields

The title and the description of a field (`Wording`) are attributes that any codec may have its own way
with. `FieldCodec.CarriesWording` says when a codec leaves them, and nested fields, as they are; the
standard codecs do (`FieldCodec.carriesWording_standard`).

Reading changes one attribute at a time (`ChangesOnly`). Result: a text or a nested field that is read
is given by an element of its name, or else is that of a new field (`givesAttribute_of_readField`).
-/
namespace ContentSchema

/-! ## Texts for users -/

/-- The texts of a field that users are shown. -/
inductive Wording where
  /-- The title. -/
  | title
  /-- The help text. -/
  | description

namespace Wording

/-- The attribute that holds the text. -/
def spec : Wording → AttributeSpec
  | title => ⟨"title", .textLine, some (.text "")⟩
  | description => ⟨"description", .text, some (.text "")⟩

/-- The text of a field. -/
def of : Wording → Field → Value
  | title, f => f.title
  | description, f => f.description

theorem attribute?_spec (w : Wording) (f : Field) :
    f.attribute? w.spec.name = some (.value (some (w.of f))) := by
  cases w <;> rfl

end Wording

/-- The attributes that hold texts for users, of the field or of the fields nested in it. -/
def wordedAttributes : List String := ["title", "description", "key_type", "value_type"]

/-- The attributes with values of the field's own that are no bounds. -/
def valueAttributes : List String := ["default", "missing_value"]

theorem Wording.name_mem (w : Wording) : w.spec.name ∈ wordedAttributes := by
  cases w <;> decide

/-- Whether attributes are stored under their own names, which are plain. -/
def FieldCodec.NamesPlainly (codec : FieldCodec) : Prop :=
  ∀ name spec, codec.attributes.get? name = some spec →
    spec.name = name ∧ Markup.isPlainName name = true

/-- Whether documents have the titles and descriptions of fields, and the fields nested in them, as they
are: attributes are stored under their own names, which are plain, and those that hold texts for users
are the standard ones, read and written. -/
structure FieldCodec.CarriesWording (codec : FieldCodec) : Prop where
  /-- Attributes are stored under their own names. -/
  named (name : String) (spec : AttributeSpec) : codec.attributes.get? name = some spec →
    spec.name = name ∧ Markup.isPlainName name = true
  /-- Titles and descriptions stand in documents. -/
  wording (w : Wording) : codec.attributes.get? w.spec.name = some w.spec
  /-- Nested fields do, if the type has them. -/
  nested (name : String) (spec : AttributeSpec) : name = "key_type" ∨ name = "value_type" →
    codec.attributes.get? name = some spec → spec.kind = .nestedField
  /-- They are read. -/
  reads (name : String) : name ∈ wordedAttributes → codec.reads name = true
  /-- They are written. -/
  writes (name : String) : name ∈ wordedAttributes → codec.writes name = true

/-- An attribute with texts for users is none of the field's own type. -/
theorem FieldCodec.CarriesWording.described {codec : FieldCodec} (hc : codec.CarriesWording)
    {name : String} (hn : name ∈ wordedAttributes) {spec : AttributeSpec}
    (h : codec.attributes.get? name = some spec) : spec.kind.isOwnType = false := by
  simp only [wordedAttributes, List.mem_cons, List.not_mem_nil, or_false] at hn
  rcases hn with rfl | rfl | rfl | rfl
  · cases h.symm.trans (hc.wording .title)
    rfl
  · cases h.symm.trans (hc.wording .description)
    rfl
  · rw [hc.nested _ spec (.inl rfl) h]
    rfl
  · rw [hc.nested _ spec (.inr rfl) h]
    rfl

/-- An attribute with the name of a title or a description is that one. -/
theorem FieldCodec.eq_of_wording {w : Wording} {spec : AttributeSpec} (h : spec ∈ writtenSpecs)
    (hn : spec.name = w.spec.name) : spec = w.spec := by
  simp only [writtenSpecs, List.mem_cons, List.not_mem_nil, or_false] at h
  rcases h with rfl | rfl | rfl | rfl | rfl | rfl | rfl | rfl | rfl | rfl | rfl | rfl | rfl | rfl |
    rfl | rfl <;> cases w <;> first | rfl | exact absurd hn (by decide)

theorem FieldCodec.namesPlainly_standard (t : FieldType) : (standard t).NamesPlainly := by
  intro name spec h
  obtain ⟨hname, hspec⟩ := mem_declared h
  have hwritten : ∀ spec ∈ writtenSpecs, Markup.isPlainName spec.name = true := by decide
  have hothers : ∀ name ∈ hiddenNames ++ termNames, Markup.isPlainName name = true := by decide
  refine ⟨hname, hname ▸ ?_⟩
  rcases hspec with hspec | hspec | ⟨-, hspec⟩
  · exact hwritten spec hspec
  · exact hothers _ (List.mem_append_left _ hspec)
  · exact hothers _ (List.mem_append_right _ hspec)

/-- The standard codecs carry texts for users. -/
theorem FieldCodec.carriesWording_standard (t : FieldType) : (standard t).CarriesWording where
  named := namesPlainly_standard t
  wording w := by
    have hthere : ∀ t ∈ FieldType.all, ∀ name ∈ ["title", "description"],
        ((standard t).attributes.get? name).isSome = true := by decide +kernel
    have hname : w.spec.name ∈ ["title", "description"] ∧
        w.spec.name ∉ hiddenNames ++ termNames := by cases w <;> decide
    obtain ⟨spec, hspec⟩ := Option.isSome_iff_exists.1 (hthere t t.mem_all _ hname.1)
    obtain ⟨hsame, hways⟩ := mem_declared hspec
    rcases hways with hwritten | hhidden | ⟨-, hterm⟩
    · rw [hspec, eq_of_wording hwritten hsame]
    · exact absurd (List.mem_append_left _ (hsame ▸ hhidden)) hname.2
    · exact absurd (List.mem_append_right _ (hsame ▸ hterm)) hname.2
  nested name spec hname h := by
    obtain ⟨rfl, hspec⟩ := mem_declared h
    have hwritten : ∀ spec ∈ writtenSpecs, spec.name = "key_type" ∨ spec.name = "value_type" →
        spec.kind = .nestedField := by decide
    have hothers : ∀ name ∈ hiddenNames ++ termNames,
        ¬ (name = "key_type" ∨ name = "value_type") := by decide
    rcases hspec with hspec | hspec | ⟨-, hspec⟩
    · exact hwritten spec hspec hname
    · exact absurd hname (hothers _ (List.mem_append_left _ hspec))
    · exact absurd hname (hothers _ (List.mem_append_right _ hspec))
  reads name hn := by
    have hothers : ∀ name ∈ wordedAttributes,
        name ≠ "order" ∧ name ≠ "unique" ∧ name ≠ "vocabularyName" := by decide
    obtain ⟨ho, hu, hv⟩ := hothers name hn
    exact reads_of_ne ho hu hv
  writes name hn := by
    have hothers : ∀ name ∈ wordedAttributes,
        name ∉ hiddenNames ∧ ¬ (name = "default" ∨ name = "missing_value") ∧ name ∉ termNames := by
      decide
    obtain ⟨hhidden, hvalue, hterm⟩ := hothers name hn
    by_contra hwrites
    rcases of_writes_eq_false (Bool.eq_false_iff.2 hwrites) with h | ⟨-, h⟩ | ⟨-, h⟩
    · exact hhidden h
    · exact hvalue h
    · exact hterm h

/-- Whether the codecs of a registry have plain names for attributes. -/
def Registry.NamesPlainly (registry : Registry) : Prop :=
  ∀ identifier codec, registry.get? identifier = some codec → codec.NamesPlainly

theorem Registry.namesPlainly_standard : Registry.standard.NamesPlainly := fun _ _ h => by
  obtain ⟨t, -, rfl⟩ := Registry.of_get?_standard h
  exact FieldCodec.namesPlainly_standard t

/-- Whether the codecs of a registry carry the texts of fields for users. -/
def Registry.CarriesWording (registry : Registry) : Prop :=
  ∀ identifier codec, registry.get? identifier = some codec → codec.CarriesWording

theorem Registry.CarriesWording.namesPlainly {registry : Registry} (h : registry.CarriesWording) :
    registry.NamesPlainly := fun identifier codec hc => (h identifier codec hc).named

theorem Registry.carriesWording_standard : Registry.standard.CarriesWording := fun _ _ h => by
  obtain ⟨t, -, rfl⟩ := Registry.of_get?_standard h
  exact FieldCodec.carriesWording_standard t

namespace Document

open Markup (Element)

/-! ## Reading -/

/-- Whether a field differs from another one in an attribute at most, as far as its name, its type and
the attributes with texts for users and with values of the field's own go. -/
structure ChangesOnly (changed : String) (g g' : Field) : Prop where
  /-- The name of the field stays. -/
  name : g'.name = g.name
  /-- The type of the field stays. -/
  type : g'.type = g.type
  /-- The other attributes with texts for users stay. -/
  others (other : String) : other ∈ wordedAttributes → other ≠ changed →
    g'.attribute? other = g.attribute? other
  /-- The other attributes with values of the field's own stay. -/
  values (other : String) : other ∈ valueAttributes → other ≠ changed →
    g'.attribute? other = g.attribute? other

theorem ChangesOnly.refl (name : String) (g : Field) : ChangesOnly name g g :=
  ⟨rfl, rfl, fun _ _ _ => rfl, fun _ _ _ => rfl⟩

section ChangesOnly

variable {g g' : Field} {name : String}

theorem changesOnly_of (hname : g'.name = g.name) (htype : g'.type = g.type)
    (htitle : name = "title" ∨ g'.title = g.title)
    (hdescription : name = "description" ∨ g'.description = g.description)
    (hkey : name = "key_type" ∨ g'.keyType = g.keyType)
    (hvalue : name = "value_type" ∨ g'.valueType = g.valueType)
    (hdefault : name = "default" ∨ g'.default = g.default)
    (hmissing : name = "missing_value" ∨ g'.missingValue = g.missingValue) :
    ChangesOnly name g g' := by
  refine ⟨hname, htype, fun other hmem hne => ?_, fun other hmem hne => ?_⟩
  · simp only [wordedAttributes, List.mem_cons, List.not_mem_nil, or_false] at hmem
    rcases hmem with rfl | rfl | rfl | rfl
    · exact congrArg (fun v => some (AttributeValue.value (some v))) (htitle.resolve_left hne.symm)
    · exact congrArg (fun v => some (AttributeValue.value (some v)))
        (hdescription.resolve_left hne.symm)
    · exact congrArg (fun k => some (AttributeValue.field k)) (hkey.resolve_left hne.symm)
    · exact congrArg (fun k => some (AttributeValue.field k)) (hvalue.resolve_left hne.symm)
  · simp only [valueAttributes, List.mem_cons, List.not_mem_nil, or_false] at hmem
    rcases hmem with rfl | rfl
    · exact congrArg (fun v => some (AttributeValue.value v)) (hdefault.resolve_left hne.symm)
    · exact congrArg (fun v => some (AttributeValue.value v)) (hmissing.resolve_left hne.symm)

theorem changesOnly_setVocabulary {source : TermSource} (h : g.setVocabulary source = .ok g')
    (name : String) : ChangesOnly name g g' := by
  rw [setVocabulary_ok h]
  exact changesOnly_of rfl rfl (.inr rfl) (.inr rfl) (.inr rfl) (.inr rfl) (.inr rfl) (.inr rfl)

/-- An attribute with a value is set. -/
theorem changesOnly_assign {v : Option Value} (h : g.assign name v = .ok g') :
    ChangesOnly name g g' := by
  unfold Field.assign at h
  split at h
  case h_17 | h_18 =>
    obtain ⟨n, -, h⟩ := exists_of_bind h
    cases n with
    | none =>
      cases h
      exact .refl _ g
    | some n => exact changesOnly_setVocabulary h _
  case h_19 => cases h
  all_goals
    first
    | obtain ⟨_, -, h⟩ := exists_of_bind h
      cases h
      refine changesOnly_of rfl rfl ?_ ?_ ?_ ?_ ?_ ?_ <;> first | exact .inr rfl | exact .inl rfl
    | cases h
      refine changesOnly_of rfl rfl ?_ ?_ ?_ ?_ ?_ ?_ <;> first | exact .inr rfl | exact .inl rfl

/-- A nested field is set. -/
theorem changesOnly_setNested {nested : Option Field} (h : g.setNested name nested = .ok g') :
    ChangesOnly name g g' ∧ g'.attribute? name = some (.field nested) := by
  unfold Field.setNested at h
  split at h <;> cases h <;> refine ⟨changesOnly_of rfl rfl ?_ ?_ ?_ ?_ ?_ ?_, rfl⟩ <;>
    first | exact .inr rfl | exact .inl rfl

end ChangesOnly

section Description

variable {s : Scope} {g g' : Field} {spec : AttributeSpec} {e : Element} {m n : Nat}

/-- What comes first is read attribute by attribute. -/
theorem changesOnly_readDescription (h : (readDescription s g spec e).Yields m n g') :
    ChangesOnly spec.name g g' := by
  unfold readDescription at h
  split at h
  · obtain ⟨_, codec, -, h⟩ := h.bind
    obtain ⟨_, nested, -, h⟩ := h.bind
    exact (changesOnly_setNested (Reading.yields_ofModel h).2).1
  · unfold readAttribute at h
    split at h
    · obtain ⟨_, symbol, -, h⟩ := h.bind
      split at h
      · exact changesOnly_assign (Reading.yields_ofModel h).2
      · exact absurd h Reading.not_yields_throw
    · obtain ⟨_, symbol, -, h⟩ := h.bind
      split at h
      · obtain ⟨-, rfl⟩ := Reading.yields_pure h
        exact changesOnly_of rfl rfl (.inr rfl) (.inr rfl) (.inr rfl) (.inr rfl) (.inr rfl)
          (.inr rfl)
      · exact absurd h Reading.not_yields_throw
    · obtain ⟨_, v, -, h⟩ := h.bind
      exact changesOnly_setVocabulary (Reading.yields_ofModel h).2 _
    · obtain ⟨_, source, -, h⟩ := h.bind
      exact changesOnly_setVocabulary (Reading.yields_ofModel h).2 _
    · obtain ⟨_, v, -, h⟩ := h.bind
      exact changesOnly_assign (Reading.yields_ofModel h).2

end Description

/-! ## All attributes -/

/-- Whether an element inside that of a field gives an attribute of the field. -/
structure GivesAttribute (s : Scope) (codec : FieldCodec) (name : String) (g : Field) (e : Element) :
    Prop where
  /-- The element is one of the model. -/
  model : e.isModelElement = true
  /-- It has the name of the attribute. -/
  localName : e.localName = name
  /-- The attribute is read from it. -/
  read : ∃ spec f f' m n, codec.attributes.get? name = some spec ∧
    (readDescription s f spec e).Yields m n f' ∧ g.attribute? name = f'.attribute? name

theorem attributeOf?_eq_some {codec : FieldCodec} {e : Element} {spec : AttributeSpec} :
    attributeOf? codec e = some spec ↔ e.isModelElement = true ∧ codec.reads e.localName = true ∧
      codec.attributes.get? e.localName = some spec := by
  unfold attributeOf?
  split
  · rename_i h
    obtain ⟨hmodel, hreads⟩ := Bool.and_eq_true_iff.1 h
    simp [hmodel, hreads]
  · rename_i h
    simp only [Bool.and_eq_true, not_and, Bool.not_eq_true] at h
    refine ⟨nofun, fun ⟨hmodel, hreads, _⟩ => ?_⟩
    rw [h hmodel] at hreads
    cases hreads

section Field

variable {s : Scope} {codec : FieldCodec} (hc : codec.CarriesWording) {name : String}
  (hn : name ∈ wordedAttributes)

include hc hn

/-- An attribute with texts for users is given by an element, or is not there and stays as it is. -/
theorem givesAttribute_of_readAttributes {es : List Element} {g g' : Field} {m n : Nat}
    (h : (readAttributes s codec g es).Yields m n g') :
    (∃ e ∈ es, GivesAttribute s codec name g' e) ∨
      (g'.attribute? name = g.attribute? name ∧ ∀ e ∈ es, e.isModelElement = true →
        e.localName = name → codec.attributes.get? name = none) := by
  induction es generalizing g m with
  | nil =>
    rw [readAttributes] at h
    obtain ⟨-, rfl⟩ := Reading.yields_pure h
    exact .inr ⟨rfl, List.forall_mem_nil _⟩
  | cons e es ih =>
    have hskip (h : (readAttributes s codec g es).Yields m n g')
        (hunread : e.isModelElement = true → e.localName = name →
          codec.attributes.get? name = none) :
        (∃ c ∈ e :: es, GivesAttribute s codec name g' c) ∨
          (g'.attribute? name = g.attribute? name ∧ ∀ c ∈ e :: es, c.isModelElement = true →
            c.localName = name → codec.attributes.get? name = none) := by
      rcases ih h with ⟨c, hc', hgives⟩ | ⟨hsame, hnone⟩
      · exact .inl ⟨c, .tail _ hc', hgives⟩
      · exact .inr ⟨hsame, List.forall_mem_cons.2 ⟨hunread, hnone⟩⟩
    cases hattribute : attributeOf? codec e with
    | none =>
      rw [readAttributes, hattribute] at h
      refine hskip h fun hmodel hlocal => Option.eq_none_iff_forall_not_mem.2 fun spec hspec => ?_
      rw [attributeOf?_eq_some.2 ⟨hmodel, hlocal ▸ hc.reads name hn, hlocal ▸ hspec⟩] at hattribute
      cases hattribute
    | some spec =>
      obtain ⟨hmodel, -, hspec⟩ := attributeOf?_eq_some.1 hattribute
      cases hk : spec.kind.isOwnType with
      | true =>
        rw [readAttributes_cons_own hattribute hk] at h
        refine hskip h fun _ hlocal => ?_
        rw [hlocal] at hspec
        rw [hc.described hn hspec] at hk
        cases hk
      | false =>
        rw [readAttributes_cons_described hattribute hk] at h
        obtain ⟨k, f, hfirst, hmore⟩ := h.bind
        have hfirst := hfirst.of_within
        rcases ih hmore with ⟨c, hc', hgives⟩ | ⟨hsame, hnone⟩
        · exact .inl ⟨c, .tail _ hc', hgives⟩
        · by_cases hlocal : e.localName = name
          · exact .inl ⟨e, .head _, hmodel, hlocal, spec, g, f, m, k, hlocal ▸ hspec, hfirst, hsame⟩
          · have hchange := changesOnly_readDescription hfirst
            rw [(hc.named _ spec hspec).1] at hchange
            refine .inr ⟨hsame.trans (hchange.others name hn (Ne.symm hlocal)), ?_⟩
            exact List.forall_mem_cons.2 ⟨fun _ h => absurd h hlocal, hnone⟩

end Field

/-- Values of a field's own type are none of its texts for users. -/
theorem changesOnly_readOwnType {s : Scope} {codec : FieldCodec} {es : List Element} {g g' : Field}
    {name : String} {m n : Nat} (h : (readOwnType s codec es g name).Yields m n g') :
    ChangesOnly name g g' := by
  cases hfind : (ownElements codec es).find? (·.localName == name) with
  | none =>
    rw [readOwnType_of_none hfind] at h
    obtain ⟨-, rfl⟩ := Reading.yields_pure h
    exact .refl name g'
  | some e =>
    rw [readOwnType_of_some hfind] at h
    obtain ⟨_, v, -, h⟩ := h.of_within.bind
    exact changesOnly_assign (Reading.yields_ofModel h).2

/-- What stays while one attribute is read stays while all that come first are read. -/
theorem of_readAttributes {P : Field → Prop} {s : Scope} {codec : FieldCodec} {es : List Element}
    {g g' : Field} {m n : Nat}
    (step : ∀ e spec f f' m n, attributeOf? codec e = some spec → spec.kind.isOwnType = false →
      (readDescription s f spec e).Yields m n f' → P f → P f')
    (h : (readAttributes s codec g es).Yields m n g') (hg : P g) : P g' := by
  induction es generalizing g m with
  | nil =>
    rw [readAttributes] at h
    rwa [(Reading.yields_pure h).2]
  | cons e es ih =>
    cases hattribute : attributeOf? codec e with
    | none =>
      rw [readAttributes, hattribute] at h
      exact ih h hg
    | some spec =>
      cases hk : spec.kind.isOwnType with
      | true =>
        rw [readAttributes_cons_own hattribute hk] at h
        exact ih h hg
      | false =>
        rw [readAttributes_cons_described hattribute hk] at h
        obtain ⟨_, f, hfirst, hmore⟩ := h.bind
        exact ih hmore (step e spec g f _ _ hattribute hk hfirst.of_within hg)

theorem name_of_readAttributes {s : Scope} {codec : FieldCodec} {es : List Element} {g g' : Field}
    {m n : Nat} (h : (readAttributes s codec g es).Yields m n g') : g'.name = g.name :=
  of_readAttributes (P := fun f => f.name = g.name)
    (fun _ _ _ _ _ _ _ _ hread hb => (changesOnly_readDescription hread).name.trans hb) h rfl

/-- A field has the name that its element gives. -/
theorem name_of_readField {s : Scope} {codec : FieldCodec} {e : Element} {g : Field} {m n : Nat}
    (h : (readField s codec e).Yields m n g) : g.name = (e.get? "name").getD "" := by
  obtain ⟨_, f, hdescribe, hvalues, -⟩ := exists_described_of_readField h
  have hname : g.name = f.name := by
    refine hvalues.foldlM (P := fun _ f' => f'.name = f.name) (fun own hmem b _ _ b' hb hstep => ?_) rfl
    rw [(changesOnly_readOwnType hstep).name, hb]
  rw [hname, name_of_readAttributes hdescribe]
  rfl

/-- Each text for users of a field that was read is given by an element inside the field's element, or
is that of a new field; so is each nested field. -/
theorem givesAttribute_of_readField {s : Scope} {codec : FieldCodec} (hc : codec.CarriesWording)
    {e : Element} {g : Field} {m n : Nat} (h : (readField s codec e).Yields m n g) {name : String}
    (hn : name ∈ wordedAttributes) :
    (∃ c ∈ e.children, GivesAttribute s codec name g c) ∨
      (g.attribute? name = (Field.ofType codec.type).attribute? name ∧
        ∀ c ∈ e.children, c.isModelElement = true → c.localName = name →
          codec.attributes.get? name = none) := by
  obtain ⟨_, f, hdescribe, hvalues, -⟩ := exists_described_of_readField h
  have hown : ∀ own ∈ ownTypeAttributes, own ∉ wordedAttributes := by decide
  have hsame : g.attribute? name = f.attribute? name := by
    refine hvalues.foldlM (P := fun _ f' => f'.attribute? name = f.attribute? name)
      (fun own hmem b _ _ b' hb hstep => ?_) rfl
    rw [(changesOnly_readOwnType hstep).others name hn fun he => hown own hmem (he ▸ hn), hb]
  rcases givesAttribute_of_readAttributes hc hn hdescribe with ⟨c, hmem, hgives⟩ | ⟨hnew, hnone⟩
  · obtain ⟨hmodel, hlocal, spec, k, k', i, j, hspec, hread, hgiven⟩ := hgives
    exact .inl ⟨c, hmem, hmodel, hlocal, spec, k, k', i, j, hspec, hread, hsame.trans hgiven⟩
  · refine .inr ⟨(hsame.trans hnew).trans ?_, hnone⟩
    simp only [wordedAttributes, List.mem_cons, List.not_mem_nil, or_false] at hn
    rcases hn with rfl | rfl | rfl | rfl <;> rfl

end Document
end ContentSchema
