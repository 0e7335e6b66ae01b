import ContentSchema.Document.FieldCodec
import ContentSchema.Proofs.NameMap
import Mathlib.Data.List.Nodup

/-!
# What the standard codecs declare

An attribute that a standard codec declares is found by its name (`FieldCodec.mem_declared`), and
those that are written are from a fixed list (`FieldCodec.mem_written`).
The standard registry has the codec of each standard type under its identifier
(`Registry.get?_standard`).
-/
namespace ContentSchema

/-! ## Identifiers of types -/

theorem FieldType.shortName_injective {t u : FieldType} (h : t.shortName = u.shortName) : t = u := by
  cases t <;> cases u <;> first | rfl | exact absurd h (by decide)

theorem FieldType.identifier_injective {t u : FieldType} (h : t.identifier = u.identifier) :
    t = u :=
  shortName_injective (String.append_right_inj "zope.schema." |>.1 h)

namespace FieldCodec

theorem type_standard (t : FieldType) : (standard t).type = t := by cases t <;> rfl

theorem identifier_standard (t : FieldType) : (standard t).identifier = t.identifier := by
  cases t <;> rfl

end FieldCodec

/-- The standard registry has the codec of each standard type under its identifier. -/
theorem Registry.get?_standard (t : FieldType) :
    Registry.standard.get? t.identifier = some (FieldCodec.standard t) := by
  refine NameMap.get?_ofList_of_mem ?_ (List.mem_map.2 ⟨t, t.mem_all, rfl⟩)
  rw [List.map_map]
  exact List.Nodup.map (fun t u h => FieldType.identifier_injective h) (by decide)

/-- The standard registry has nothing else. -/
theorem Registry.of_get?_standard {identifier : String} {codec : FieldCodec}
    (h : Registry.standard.get? identifier = some codec) :
    ∃ t : FieldType, identifier = t.identifier ∧ codec = FieldCodec.standard t := by
  obtain ⟨t, -, heq⟩ :=
    List.mem_map.1 (NameMap.mem_of_mem_ofList ((NameMap.mem_entries_iff _).2 h))
  obtain ⟨hidentifier, hcodec⟩ := Prod.mk.inj heq
  exact ⟨t, hidentifier.symm, hcodec.symm⟩

/-! ## Attributes -/

/-- The attributes that are written as elements, apart from the terms of a choice. -/
def writtenSpecs : List AttributeSpec :=
  [⟨"default", .ownType, none⟩, ⟨"description", .text, some (.text "")⟩,
    ⟨"key_type", .nestedField, none⟩, ⟨"max", .ownType, none⟩, ⟨"max_dots", .int, none⟩,
    ⟨"max_length", .int, none⟩, ⟨"min", .ownType, none⟩, ⟨"min_dots", .int, some (.int 0)⟩,
    ⟨"min_length", .int, some (.int 0)⟩, ⟨"missing_value", .ownTypeUnvalidated, none⟩,
    ⟨"readonly", .bool, some (.bool false)⟩, ⟨"required", .bool, some (.bool true)⟩,
    ⟨"schema", .schemaRef, none⟩, ⟨"title", .textLine, some (.text "")⟩,
    ⟨"validate_invariants", .bool, some (.bool true)⟩, ⟨"value_type", .nestedField, none⟩]

/-- The attributes that never stand in written documents. -/
def hiddenNames : List String := ["order", "unique", "defaultFactory"]

/-- The attributes with those names. -/
def hiddenSpecs : List AttributeSpec :=
  [⟨"order", .int, none⟩, ⟨"unique", .bool, some (.bool false)⟩,
    ⟨"defaultFactory", .defaultFactory, none⟩]

/-- The attributes that hold the terms of a choice. -/
def termNames : List String := ["vocabulary", "vocabularyName", "values", "source"]

/-- The attributes with those names. -/
def termSpecs : List AttributeSpec :=
  [⟨"vocabulary", .textLine, none⟩, ⟨"vocabularyName", .textLine, none⟩, ⟨"values", .values, none⟩,
    ⟨"source", .source, none⟩]

namespace FieldCodec

/-- A type declares attributes of a fixed list. -/
theorem mem_attributes_cases {t : FieldType} {spec : AttributeSpec} (h : spec ∈ t.attributes) :
    spec ∈ writtenSpecs ∨ spec ∈ hiddenSpecs ∨ t = .choice ∧ spec ∈ termSpecs := by
  unfold FieldType.attributes at h
  simp only [List.mem_append] at h
  rcases h with (((h | h) | h) | h) | h
  · simp only [List.mem_cons, List.not_mem_nil, or_false] at h
    rcases h with rfl | rfl | rfl | rfl | rfl | rfl | rfl | rfl <;>
      simp [writtenSpecs, hiddenSpecs]
  · split at h
    · simp only [List.mem_cons, List.not_mem_nil, or_false] at h
      rcases h with rfl | rfl <;> simp [writtenSpecs]
    · cases h
  · split at h
    · simp only [List.mem_cons, List.not_mem_nil, or_false] at h
      rcases h with rfl | rfl <;> simp [writtenSpecs]
    · cases h
  · split at h
    · simp only [List.mem_cons, List.not_mem_nil, or_false] at h
      rcases h with rfl | rfl <;> simp [writtenSpecs, hiddenSpecs]
    · cases h
  · split at h
    · simp only [List.mem_cons, List.not_mem_nil, or_false] at h
      rcases h with rfl | rfl <;> simp [writtenSpecs]
    · simp only [List.mem_cons, List.not_mem_nil, or_false] at h
      subst h
      simp [writtenSpecs]
    · simp only [List.mem_cons, List.not_mem_nil, or_false] at h
      rcases h with rfl | rfl | rfl | rfl <;> simp [termSpecs]
    · cases h

theorem mem_attributes {t : FieldType} {spec : AttributeSpec} (h : spec ∈ t.attributes) :
    spec ∈ writtenSpecs ∨ spec.name ∈ hiddenNames ∨ t = .choice ∧ spec.name ∈ termNames :=
  (mem_attributes_cases h).imp_right (Or.imp (List.mem_map_of_mem (f := AttributeSpec.name))
    (And.imp_right (List.mem_map_of_mem (f := AttributeSpec.name))))

/-- The standard codecs are the plain ones but for three types. -/
theorem standard_cases (t : FieldType) :
    (t = .dict ∧ standard t = ((plain .dict).withAttribute ⟨"key_type", .nestedField, none⟩
        |>.withAttribute ⟨"value_type", .nestedField, none⟩)) ∨
      (t = .object ∧ standard t = ((plain .object).withAttribute ⟨"schema", .schemaRef, none⟩
        |>.withFilter "default" .write |>.withFilter "missing_value" .write)) ∨
      (t = .choice ∧ standard t = ((plain .choice).withFilter "vocabulary" .write
        |>.withFilter "values" .write |>.withFilter "source" .write
        |>.withFilter "vocabularyName" .always)) ∨
      standard t = plain t := by
  cases t <;> simp [standard, mapping, object, choice]

theorem get?_plain {t : FieldType} {name : String} {spec : AttributeSpec}
    (h : (plain t).attributes.get? name = some spec) : spec.name = name ∧ spec ∈ t.attributes := by
  simp only [plain] at h
  obtain ⟨spec', hm, heq⟩ :=
    List.mem_map.1 (NameMap.mem_of_mem_ofList ((NameMap.mem_entries_iff _).2 h))
  cases heq
  exact ⟨rfl, hm⟩

theorem get?_withAttribute {c : FieldCodec} {added spec : AttributeSpec} {name : String}
    (h : (c.withAttribute added).attributes.get? name = some spec) :
    spec = added ∧ added.name = name ∨ c.attributes.get? name = some spec := by
  rw [withAttribute, NameMap.get?_insert] at h
  split at h
  · cases h
    exact .inl ⟨rfl, ‹_›⟩
  · exact .inr h

/-- A declared attribute is found by its name. It is one that the type declares or one of the few
that the codec adds. -/
theorem mem_attributes_or_added {t : FieldType} {name : String} {spec : AttributeSpec}
    (h : (standard t).attributes.get? name = some spec) :
    spec.name = name ∧ (spec ∈ t.attributes ∨
      spec ∈ writtenSpecs ∧ name ∈ ["key_type", "value_type", "schema"]) := by
  have declared {u : FieldType} (hu : t = u) (hp : (plain u).attributes.get? name = some spec) :
      spec.name = name ∧ (spec ∈ t.attributes ∨
        spec ∈ writtenSpecs ∧ name ∈ ["key_type", "value_type", "schema"]) := by
    obtain ⟨hname, hm⟩ := get?_plain hp
    exact ⟨hname, .inl (hu ▸ hm)⟩
  rcases standard_cases t with ⟨ht, hs⟩ | ⟨ht, hs⟩ | ⟨ht, hs⟩ | hs <;> rw [hs] at h
  · rcases get?_withAttribute h with ⟨rfl, hname⟩ | h
    · exact ⟨hname, .inr ⟨by simp [writtenSpecs], by simp [← hname]⟩⟩
    · rcases get?_withAttribute h with ⟨rfl, hname⟩ | h
      · exact ⟨hname, .inr ⟨by simp [writtenSpecs], by simp [← hname]⟩⟩
      · exact declared ht h
  · rcases get?_withAttribute (c := plain .object) h with ⟨rfl, hname⟩ | h
    · exact ⟨hname, .inr ⟨by simp [writtenSpecs], by simp [← hname]⟩⟩
    · exact declared ht h
  · exact declared ht h
  · exact declared rfl h

/-- A declared attribute is one of a fixed list. -/
theorem mem_declared {t : FieldType} {name : String} {spec : AttributeSpec}
    (h : (standard t).attributes.get? name = some spec) :
    spec.name = name ∧ (spec ∈ writtenSpecs ∨ spec.name ∈ hiddenNames ∨
      t = .choice ∧ spec.name ∈ termNames) := by
  obtain ⟨hname, hm | ⟨hm, -⟩⟩ := mem_attributes_or_added h
  · exact ⟨hname, mem_attributes hm⟩
  · exact ⟨hname, .inl hm⟩

/-- Only fields of ordered values have bounds. -/
theorem isOrderable_of_declared {t : FieldType} {name : String} {spec : AttributeSpec}
    (h : (standard t).attributes.get? name = some spec) (hn : name = "min" ∨ name = "max") :
    t.isOrderable = true := by
  obtain ⟨rfl, hm | ⟨-, hm⟩⟩ := mem_attributes_or_added h
  · by_contra hno
    have hnames : ∀ a ∈ t.attributes, a.name ≠ "min" ∧ a.name ≠ "max" := by
      cases t <;> first | exact absurd rfl hno | decide
    exact hn.elim (hnames _ hm).1 (hnames _ hm).2
  · rcases hn with hn | hn <;> rw [hn] at hm <;> exact absurd hm (by decide)

theorem writes_hidden {t : FieldType} {name : String} (h : name ∈ hiddenNames) :
    (standard t).writes name = false := by
  simp only [hiddenNames, List.mem_cons, List.not_mem_nil, or_false] at h
  rcases standard_cases t with ⟨-, hs⟩ | ⟨-, hs⟩ | ⟨-, hs⟩ | hs <;> rw [hs] <;>
    rcases h with rfl | rfl | rfl <;> rfl

theorem writes_termNames {name : String} (h : name ∈ termNames) :
    (standard .choice).writes name = false := by
  simp only [termNames, List.mem_cons, List.not_mem_nil, or_false] at h
  rcases h with rfl | rfl | rfl | rfl <;> rfl

theorem filter_plain_mem {t : FieldType} {name : String} {filter : AttributeFilter}
    (h : (plain t).filters.get? name = some filter) : name ∈ hiddenNames := by
  simp only [plain] at h
  have hm := NameMap.mem_of_mem_ofList ((NameMap.mem_entries_iff _).2 h)
  simp only [List.mem_cons, Prod.mk.injEq, List.not_mem_nil, or_false] at hm
  rcases hm with ⟨rfl, -⟩ | ⟨rfl, -⟩ | ⟨rfl, -⟩ <;> decide

theorem filter_withFilter {c : FieldCodec} {name other : String} {added filter : AttributeFilter}
    (h : (c.withFilter other added).filters.get? name = some filter) :
    other = name ∧ added = filter ∨ c.filters.get? name = some filter := by
  rw [withFilter, NameMap.get?_insert] at h
  split at h
  · exact .inl ⟨‹_›, Option.some.inj h⟩
  · exact .inr h

/-- What is left out on writing: some attributes of all fields, the values of objects, and the terms
of choices. -/
theorem of_writes_eq_false {t : FieldType} {name : String} (h : (standard t).writes name = false) :
    name ∈ hiddenNames ∨ t = .object ∧ (name = "default" ∨ name = "missing_value") ∨
      t = .choice ∧ name ∈ termNames := by
  obtain ⟨filter, hf⟩ : ∃ filter, (standard t).filters.get? name = some filter := by
    unfold writes at h
    cases hg : (standard t).filters.get? name with
    | none => simp [hg] at h
    | some filter => exact ⟨filter, rfl⟩
  rcases standard_cases t with ⟨-, hs⟩ | ⟨ht, hs⟩ | ⟨ht, hs⟩ | hs <;> rw [hs] at hf
  · simp only [withAttribute] at hf
    exact .inl (filter_plain_mem hf)
  · rcases filter_withFilter hf with ⟨hn, -⟩ | hf
    · exact .inr (.inl ⟨ht, .inr hn.symm⟩)
    · rcases filter_withFilter hf with ⟨hn, -⟩ | hf
      · exact .inr (.inl ⟨ht, .inl hn.symm⟩)
      · simp only [withAttribute] at hf
        exact .inl (filter_plain_mem hf)
  · refine (Decidable.em (name ∈ termNames)).elim (fun hm => .inr (.inr ⟨ht, hm⟩)) fun hm => .inl ?_
    have added {c : FieldCodec} {other : String} {a : AttributeFilter} (ho : other ∈ termNames)
        (hf : (c.withFilter other a).filters.get? name = some filter) :
        c.filters.get? name = some filter :=
      (filter_withFilter hf).resolve_left fun hw => hm (hw.1 ▸ ho)
    exact filter_plain_mem (added (by decide) (added (by decide) (added (by decide)
      (added (by decide) hf))))
  · exact .inl (filter_plain_mem hf)

theorem eq_of_nestedField {spec : AttributeSpec} (h : spec ∈ writtenSpecs)
    (hk : spec.kind = .nestedField) :
    spec = ⟨"key_type", .nestedField, none⟩ ∨ spec = ⟨"value_type", .nestedField, none⟩ := by
  simp only [writtenSpecs, List.mem_cons, List.not_mem_nil, or_false] at h
  rcases h with rfl | rfl | rfl | rfl | rfl | rfl | rfl | rfl | rfl | rfl | rfl | rfl | rfl | rfl |
    rfl | rfl <;> first | exact .inl rfl | exact .inr rfl | cases hk

/-- What a standard codec writes is declared, and is one of a fixed list. -/
theorem mem_written {t : FieldType} {spec : AttributeSpec}
    (h : spec ∈ (standard t).attributes.values) (hw : (standard t).writes spec.name = true) :
    (standard t).attributes.get? spec.name = some spec ∧ spec ∈ writtenSpecs := by
  obtain ⟨⟨name, spec'⟩, hm, heq⟩ := List.mem_map.1 h
  cases heq
  have hget := (NameMap.mem_entries_iff _).1 hm
  obtain ⟨hname, hs⟩ := mem_declared hget
  refine ⟨by rwa [hname], ?_⟩
  rcases hs with hs | hs | ⟨rfl, hs⟩
  · exact hs
  · rw [writes_hidden hs] at hw
    cases hw
  · rw [writes_termNames hs] at hw
    cases hw

theorem filter_plain {t : FieldType} {name : String} {filter : AttributeFilter}
    (h : (plain t).filters.get? name = some filter) (hf : filter ≠ .write) :
    name = "order" ∨ name = "unique" := by
  simp only [plain] at h
  have hm := NameMap.mem_of_mem_ofList ((NameMap.mem_entries_iff _).2 h)
  simp only [List.mem_cons, Prod.mk.injEq, List.not_mem_nil, or_false] at hm
  rcases hm with ⟨hn, -⟩ | ⟨hn, -⟩ | ⟨-, hw⟩
  · exact .inl hn
  · exact .inr hn
  · exact absurd hw hf

/-- Few attributes are left out on reading. -/
theorem filter_standard {t : FieldType} {name : String} {filter : AttributeFilter}
    (h : (standard t).filters.get? name = some filter) (hf : filter ≠ .write) :
    name = "order" ∨ name = "unique" ∨ name = "vocabularyName" := by
  have hplain {u : FieldType} (h : (plain u).filters.get? name = some filter) :
      name = "order" ∨ name = "unique" ∨ name = "vocabularyName" :=
    (filter_plain h hf).imp_right .inl
  have added {c : FieldCodec} {other : String}
      (h : (c.withFilter other .write).filters.get? name = some filter) :
      c.filters.get? name = some filter :=
    (filter_withFilter h).resolve_left fun hw => hf hw.2.symm
  rcases standard_cases t with ⟨-, hs⟩ | ⟨-, hs⟩ | ⟨-, hs⟩ | hs <;> rw [hs] at h
  · simp only [withAttribute] at h
    exact hplain h
  · have h := added (added h)
    simp only [withAttribute] at h
    exact hplain h
  · rcases filter_withFilter h with ⟨hn, -⟩ | h
    · exact .inr (.inr hn.symm)
    · exact hplain (added (added (added h)))
  · exact hplain h

theorem reads_of_ne {t : FieldType} {name : String} (ho : name ≠ "order") (hu : name ≠ "unique")
    (hv : name ≠ "vocabularyName") : (standard t).reads name = true := by
  have hfilter {filter : AttributeFilter} (h : (standard t).filters.get? name = some filter)
      (hf : filter ≠ .write) : False := by
    rcases filter_standard h hf with h | h | h
    · exact ho h
    · exact hu h
    · exact hv h
  unfold reads
  split
  · rename_i h
    exact (hfilter h nofun).elim
  · rename_i h
    exact (hfilter h nofun).elim
  · rfl

theorem reads_written {t : FieldType} {spec : AttributeSpec} (h : spec ∈ writtenSpecs) :
    (standard t).reads spec.name = true := by
  have hnames : ∀ spec ∈ writtenSpecs,
      spec.name ≠ "order" ∧ spec.name ≠ "unique" ∧ spec.name ≠ "vocabularyName" := by decide
  obtain ⟨ho, hu, hv⟩ := hnames spec h
  exact reads_of_ne ho hu hv

/-- What a standard codec reads: what is written, default factories, and the terms of a choice, which
have one name only. -/
theorem mem_read {t : FieldType} {name : String} {spec : AttributeSpec}
    (h : (standard t).attributes.get? name = some spec) (hr : (standard t).reads name = true) :
    spec.name = name ∧ (spec ∈ writtenSpecs ∨ spec = ⟨"defaultFactory", .defaultFactory, none⟩ ∨
      t = .choice ∧ spec ∈ [⟨"vocabulary", .textLine, none⟩, ⟨"values", .values, none⟩,
        ⟨"source", .source, none⟩]) := by
  have horder : (standard t).reads "order" = false := by cases t <;> rfl
  have hunique : (standard t).reads "unique" = false := by cases t <;> rfl
  have halias : (standard .choice).reads "vocabularyName" = false := rfl
  obtain ⟨rfl, hdeclared | ⟨hm, -⟩⟩ := mem_attributes_or_added h
  · refine ⟨rfl, ?_⟩
    rcases mem_attributes_cases hdeclared with hm | hm | ⟨rfl, hm⟩
    · exact .inl hm
    · simp only [hiddenSpecs, List.mem_cons, List.not_mem_nil, or_false] at hm
      rcases hm with rfl | rfl | rfl
      · rw [horder] at hr
        cases hr
      · rw [hunique] at hr
        cases hr
      · exact .inr (.inl rfl)
    · simp only [termSpecs, List.mem_cons, List.not_mem_nil, or_false] at hm
      rcases hm with rfl | rfl | rfl | rfl
      · exact .inr (.inr ⟨rfl, .head _⟩)
      · rw [halias] at hr
        cases hr
      · exact .inr (.inr ⟨rfl, .tail _ (.head _)⟩)
      · exact .inr (.inr ⟨rfl, .tail _ (.tail _ (.head _))⟩)
  · exact ⟨rfl, .inl hm⟩

end FieldCodec
end ContentSchema
