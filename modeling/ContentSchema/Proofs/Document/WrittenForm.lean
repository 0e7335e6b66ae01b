import ContentSchema.Proofs.Document.WordedField

/-!
# The canonical form of the element of a field

The element of a field holds an element for each attribute that its codec writes and that differs from
its default, and for a choice one for its terms. Their names are in the order of bytes, and distinct,
and so it is in the elements of nested fields (`CanonicalForm`).

The attributes come in the order of their codec (`tags_sublist`). The terms of a choice are written
behind them, and this is their place too: no attribute that is written has a name that comes behind
those of terms (`lt_of_holdsTerms`). The order of a codec is by code points, which for these names is
the order of bytes (`precedes_of_lt`).

Result: what is written for a field by a standard codec has the canonical form
(`canonicalForm_of_writeField`).
-/
namespace ContentSchema.Document

open FieldCodec (standard)
open Markup (Element)

/-- Whether a name comes before another one in the order of their bytes. -/
def Precedes (a b : String) : Prop := compareBytes a.toUTF8 b.toUTF8 = .lt

instance (a b : String) : Decidable (Precedes a b) := inferInstanceAs (Decidable (_ = _))

/-- Whether a field has something to write under an attribute: a value other than the default, or a
nested field. -/
def IsSet (f : Field) (spec : AttributeSpec) : Prop :=
  (∃ v, f.attribute? spec.name = some (.value v) ∧ (v == spec.default) = false) ∨
    ∃ k, f.attribute? spec.name = some (.field (some k))

/-- Whether a codec writes an attribute of a name. -/
def WritesAttribute (codec : FieldCodec) (name : String) (spec : AttributeSpec) : Prop :=
  codec.attributes.get? name = some spec ∧ codec.writes name = true

/-- Whether an element has the name of the terms of a choice. -/
def HoldsTerms (c : Element) : Prop := c.tag = "values" ∨ c.tag = "vocabulary"

/-- Whether an element has the canonical form of the element of a field. -/
inductive CanonicalForm (registry : Registry) : Field → FieldCodec → Element → Prop
  /-- It has this form itself, and so have the elements of nested fields in it. -/
  | intro {f : Field} {codec : FieldCodec} {e : Element}
    (ordered : e.children.Pairwise fun c d => c.tag ≠ d.tag ∧ Precedes c.tag d.tag)
    (attributes : ∀ name spec, WritesAttribute codec name spec →
      ((∃ c ∈ e.children, c.tag = name) ↔ IsSet f spec))
    (terms : codec.type = .choice → ∃! c, c ∈ e.children ∧ HoldsTerms c)
    (only : ∀ c ∈ e.children, (∃ spec, WritesAttribute codec c.tag spec) ∨
      codec.type = .choice ∧ HoldsTerms c)
    (known : ∀ c ∈ e.children, ∀ k, f.attribute? c.tag = some (.field (some k)) →
      registry.get? k.typeIdentifier ≠ none)
    (nested : ∀ c ∈ e.children, ∀ k, f.attribute? c.tag = some (.field (some k)) →
      ∀ inner, registry.get? k.typeIdentifier = some inner → CanonicalForm registry k inner c) :
    CanonicalForm registry f codec e

/-! ## Order -/

/-- The names that stand inside the element of a field. -/
def innerNames : List String := writtenSpecs.map (·.name) ++ ["values", "vocabulary"]

/-- Among the names inside, the order of code points is that of bytes. -/
theorem precedes_of_lt {a b : String} (ha : a ∈ innerNames) (hb : b ∈ innerNames) (h : a < b) :
    Precedes a b := by
  have hall : ∀ a ∈ innerNames, ∀ b ∈ innerNames, a < b → Precedes a b := by decide +kernel
  exact hall a ha b hb h

/-- The attributes of a codec come in the order of their names. -/
theorem pairwise_written (t : FieldType) :
    ((standard t).attributes.values.filter fun spec => (standard t).writes spec.name).Pairwise
      fun a b => a.name < b.name := by
  refine List.Pairwise.filter _ (List.pairwise_map.2 ((standard t).attributes.sorted.imp_of_mem
    fun {a b} ha hb hlt => ?_))
  rw [(FieldCodec.mem_declared ((NameMap.mem_entries_iff _).1 ha)).1,
    (FieldCodec.mem_declared ((NameMap.mem_entries_iff _).1 hb)).1]
  exact hlt

/-- The elements of attributes come in the order of the attributes. -/
theorem tags_sublist {registry : Registry} {f : Field} {specs : List AttributeSpec}
    {written : List (Option Element)}
    (h : List.Forall₂ (fun spec w => attributeElement registry f spec = .ok w) specs written) :
    ((written.filterMap id).map (·.tag)).Sublist (specs.map (·.name)) := by
  induction h with
  | nil => exact .slnil
  | @cons spec w specs written hok _ ih =>
    cases w with
    | none => exact .cons _ ih
    | some c =>
      rw [List.map_cons, ← tag_attributeElement hok]
      exact .cons_cons _ ih

/-! ## What is inside -/

/-- An attribute that is set has an element, and no other one has. -/
theorem isSome_iff_isSet {registry : Registry} {f : Field} {spec : AttributeSpec} {w : Option Element}
    (h : attributeElement registry f spec = .ok w) : w.isSome = true ↔ IsSet f spec := by
  unfold IsSet
  cases writtenAttribute h with
  | unknown hnone => simp [hnone]
  | default hv hdefault => simp [hv, hdefault]
  | noField hnone => simp [hnone]
  | value hv hdefault => simp [hv, hdefault]
  | field hk => simp [hk]

/-! ## The canonical form -/

theorem mem_innerNames_of_spec {spec : AttributeSpec} (h : spec ∈ writtenSpecs) :
    spec.name ∈ innerNames :=
  List.mem_append_left _ (List.mem_map_of_mem h)

/-- What an attribute is that a standard codec writes. -/
theorem mem_writtenSpecs {t : FieldType} {name : String} {spec : AttributeSpec}
    (h : WritesAttribute (standard t) name spec) : spec.name = name ∧ spec ∈ writtenSpecs := by
  obtain ⟨hget, hwrites⟩ := h
  obtain ⟨rfl, -⟩ := FieldCodec.mem_declared hget
  exact ⟨rfl, (FieldCodec.mem_written
    (List.mem_map.2 ⟨(spec.name, spec), (NameMap.mem_entries_iff _).2 hget, rfl⟩) hwrites).2⟩

/-- The names of terms come behind those of all attributes. -/
theorem lt_of_holdsTerms {spec : AttributeSpec} (h : spec ∈ writtenSpecs) {c : Element}
    (hc : HoldsTerms c) : spec.name < c.tag := by
  have hall : ∀ spec ∈ writtenSpecs, spec.name < "values" ∧ spec.name < "vocabulary" := by
    decide +kernel
  rcases hc with hc | hc <;> rw [hc]
  · exact (hall spec h).1
  · exact (hall spec h).2

section Inside

variable {registry : Registry} {f : Field} {t : FieldType} {label : Option String} {tag : String}
  {e : Element} (h : writeField registry f (standard t) label tag = .ok e)

include h

/-- An element inside is that of an attribute, or of the terms of a choice. -/
theorem inside_cases {c : Element} (hc : c ∈ e.children) :
    (∃ spec, WritesAttribute (standard t) c.tag spec ∧
      attributeElement registry f spec = .ok (some c)) ∨
    (standard t).type = .choice ∧ HoldsTerms c ∧ writeTerms f = .ok c := by
  obtain ⟨written, terms, rfl, hall, hterms⟩ := exists_of_writeField h
  rcases List.mem_append.1 hc with hc | hc
  · obtain ⟨w, hw, rfl⟩ := List.mem_filterMap.1 hc
    obtain ⟨spec, hspec, hok⟩ := exists_of_forall₂_right hall hw
    obtain ⟨hmem, hwrites⟩ := List.mem_filter.1 hspec
    have hname := tag_attributeElement hok
    refine .inl ⟨spec, ⟨?_, hname ▸ hwrites⟩, hok⟩
    rw [hname]
    exact (FieldCodec.mem_written hmem hwrites).1
  · split at hterms
    · obtain ⟨d, rfl, hd⟩ := hterms
      obtain rfl := List.mem_singleton.1 hc
      exact .inr ⟨‹_›, (tag_writeTerms hd).symm, hd⟩
    · rw [hterms] at hc
      cases hc

theorem ordered_of_writeField :
    e.children.Pairwise fun c d => c.tag ≠ d.tag ∧ Precedes c.tag d.tag := by
  have hnames : ∀ c ∈ e.children, c.tag ∈ innerNames := fun c hc => by
    rcases inside_cases h hc with ⟨spec, hspec, -⟩ | ⟨-, hc, -⟩
    · obtain ⟨hname, hmem⟩ := mem_writtenSpecs hspec
      rw [← hname]
      exact mem_innerNames_of_spec hmem
    · rcases hc with hc | hc <;> rw [hc] <;> decide
  have hlt : e.children.Pairwise fun c d => c.tag < d.tag := by
    obtain ⟨written, terms, rfl, hall, hterms⟩ := exists_of_writeField h
    have hfirst : (written.filterMap id).Pairwise fun c d => c.tag < d.tag :=
      List.pairwise_map.1 (List.Pairwise.sublist (tags_sublist hall)
        (List.pairwise_map.2 (pairwise_written t)))
    split at hterms
    · obtain ⟨d, rfl, hd⟩ := hterms
      refine List.pairwise_append.2 ⟨hfirst, List.pairwise_singleton _ _, fun c hc d' hd' => ?_⟩
      obtain rfl := List.mem_singleton.1 hd'
      obtain ⟨w, hw, rfl⟩ := List.mem_filterMap.1 hc
      obtain ⟨spec, hspec, hok⟩ := exists_of_forall₂_right hall hw
      obtain ⟨hmem, hwrites⟩ := List.mem_filter.1 hspec
      rw [tag_attributeElement hok]
      exact lt_of_holdsTerms (FieldCodec.mem_written hmem hwrites).2 (tag_writeTerms hd).symm
    · rw [hterms, List.append_nil]
      exact hfirst
  exact hlt.imp_of_mem fun hc hd hcd =>
    ⟨String.ne_of_lt hcd, precedes_of_lt (hnames _ hc) (hnames _ hd) hcd⟩

theorem exists_tag_iff_isSet {name : String} {spec : AttributeSpec}
    (hspec : WritesAttribute (standard t) name spec) :
    (∃ c ∈ e.children, c.tag = name) ↔ IsSet f spec := by
  obtain ⟨hname, hmem⟩ := mem_writtenSpecs hspec
  obtain ⟨w, hok, hinside⟩ := (isWritten_of_writeField h).written name spec hspec.1
    (hname.symm ▸ hspec.2)
  rw [← isSome_iff_isSet hok]
  constructor
  · rintro ⟨c, hc, rfl⟩
    rcases inside_cases h hc with ⟨spec', hspec', hok'⟩ | ⟨-, hterms, -⟩
    · cases hspec.1.symm.trans hspec'.1
      cases hok.symm.trans hok'
      rfl
    · exact absurd (hname ▸ lt_of_holdsTerms hmem hterms) (String.lt_irrefl _)
  · intro hw
    obtain ⟨c, rfl⟩ := Option.isSome_iff_exists.1 hw
    exact ⟨c, hinside c rfl, (tag_attributeElement hok).trans hname⟩

theorem existsUnique_terms (hchoice : (standard t).type = .choice) :
    ∃! c, c ∈ e.children ∧ HoldsTerms c := by
  obtain ⟨written, terms, rfl, -, hterms⟩ := exists_of_writeField h
  rw [if_pos hchoice] at hterms
  obtain ⟨d, rfl, hd⟩ := hterms
  refine ⟨d, ⟨List.mem_append_right _ (.head _), (tag_writeTerms hd).symm⟩, fun c ⟨hc, hterms⟩ => ?_⟩
  rcases inside_cases h hc with ⟨spec, hspec, -⟩ | ⟨-, -, hc⟩
  · obtain ⟨hname, hmem⟩ := mem_writtenSpecs hspec
    exact absurd (hname ▸ lt_of_holdsTerms hmem hterms) (String.lt_irrefl _)
  · cases hc.symm.trans hd
    rfl

/-- The element of a nested field is written by the codec of its type. -/
theorem exists_codec_of_inside {c : Element} (hc : c ∈ e.children) {k : Field}
    (hk : f.attribute? c.tag = some (.field (some k))) :
    ∃ codec, registry.get? k.typeIdentifier = some codec ∧
      writeField registry k codec none c.tag = .ok c := by
  rcases inside_cases h hc with ⟨spec, hspec, hok⟩ | ⟨-, hterms, -⟩
  · rw [tag_attributeElement hok] at hk ⊢
    rcases written_of_attributeElement hok with ⟨v, hv, -⟩ | ⟨k', hk', hwritten⟩
    · cases hv.symm.trans hk
    · cases hk'.symm.trans hk
      exact exists_codec_of_nested hwritten
  · rcases name_of_field hk with ⟨hname, -⟩ | ⟨hname, -⟩ <;>
      rcases hterms with hterms | hterms <;> rw [hterms] at hname <;> exact absurd hname (by decide)

end Inside

/-- What a standard codec writes for a field has the canonical form. -/
theorem canonicalForm_of_writeField {f : Field} {codec : FieldCodec} {identifier : String}
    (hcodec : Registry.standard.get? identifier = some codec) {label : Option String} {tag : String}
    {e : Element} (h : writeField Registry.standard f codec label tag = .ok e) :
    CanonicalForm Registry.standard f codec e := by
  induction f using Field.nested_induction generalizing codec identifier label tag e with
  | step f key value =>
    obtain ⟨t, -, rfl⟩ := Registry.of_get?_standard hcodec
    refine .intro (ordered_of_writeField h) (fun _ _ => exists_tag_iff_isSet h)
      (existsUnique_terms h) (fun c hc => ?_) (fun c hc k hk => ?_) fun c hc k hk inner hinner => ?_
    · exact (inside_cases h hc).imp (fun ⟨spec, hspec, _⟩ => ⟨spec, hspec⟩)
        fun ⟨htype, hterms, _⟩ => ⟨htype, hterms⟩
    · obtain ⟨codec, hget, -⟩ := exists_codec_of_inside h hc hk
      rw [hget]
      exact Option.some_ne_none _
    · obtain ⟨codec, hget, hwrite⟩ := exists_codec_of_inside h hc hk
      cases hget.symm.trans hinner
      rcases name_of_field hk with ⟨-, hk⟩ | ⟨-, hk⟩
      · exact key k hk.symm hget hwrite
      · exact value k hk.symm hget hwrite

/-- Sizes by the code of an article. -/
def sizesByCode : Field :=
  { Field.ofType .dict with
    title := .text "Sizes"
    keyType := some { Field.ofType .asciiLine with maxLength := some 8, required := false }
    valueType := some { Field.ofType .choice with
      vocabulary := some (.inline ⟨[.ofValue (.text "S"), .ofValue (.text "L")], by decide⟩) } }

/-- The element of such a field. -/
def sizesByCodeElement : Element where
  tag := "field"
  attributes := [("name", "sizes"), ("type", "zope.schema.Dict")]
  children :=
    [{ tag := "key_type", attributes := [("type", "zope.schema.ASCIILine")]
       children := [{ tag := "max_length", text := some "8" },
        { tag := "required", text := some "False" }] },
      { tag := "title", text := some "Sizes" },
      { tag := "value_type", attributes := [("type", "zope.schema.Choice")]
        children := [{ tag := "values"
                       children := [{ tag := "element", text := some "S" },
                        { tag := "element", text := some "L" }] }] }]

theorem canonicalForm_of_writeField_sizes :
    Registry.standard.get? "zope.schema.Dict" = some (standard .dict) ∧
      writeField Registry.standard sizesByCode (standard .dict) (some "sizes") "field" =
        .ok sizesByCodeElement ∧
      CanonicalForm Registry.standard sizesByCode (standard .dict) sizesByCodeElement := by
  have hcodec : Registry.standard.get? "zope.schema.Dict" = some (standard .dict) :=
    Registry.get?_standard .dict
  have hwrite : writeField Registry.standard sizesByCode (standard .dict) (some "sizes") "field" =
      .ok sizesByCodeElement := by
    rfl
  exact ⟨hcodec, hwrite, canonicalForm_of_writeField hcodec hwrite⟩

end ContentSchema.Document
