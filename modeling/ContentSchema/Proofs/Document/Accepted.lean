import ContentSchema.Proofs.Document.AcceptedField
import ContentSchema.Proofs.Document.ModelWriter
import ContentSchema.Proofs.Document.SchemaReader

/-!
# Models that were read can be written

Whatever a document says, the schemas that are read from it are sound (`IsSound`): names, fieldsets,
bases, terms and bounds fit together. What reading keeps of the fieldsets is `Grouped`; each field of a
schema's own, and each field nested in it, was read from an element of the document (`ReadInside`).

Result: a model that was read has a document, unless the terms of a field come from a `source` element,
or a default or missing value holds the reference of an object (`write_of_parse`).
-/
namespace ContentSchema

/-! ## Fieldsets -/

namespace Schema

theorem map_name_mergeFieldset (added : Fieldset) (sets : List Fieldset) :
    (mergeFieldset added sets).map (·.name) =
      if added.name ∈ sets.map (·.name) then sets.map (·.name)
      else sets.map (·.name) ++ [added.name] := by
  induction sets with
  | nil => rfl
  | cons set sets ih =>
    unfold mergeFieldset
    by_cases hname : set.name = added.name
    · simp [hname, Fieldset.addFields]
    · have hne : ¬ added.name = set.name := fun h => hname h.symm
      have hbeq : (set.name == added.name) = false := beq_false_of_ne hname
      simp only [hbeq, Bool.false_eq_true, if_false, List.map_cons, ih, List.mem_cons, hne, false_or]
      split <;> rfl

theorem mem_mergeFieldset {added set : Fieldset} {sets : List Fieldset}
    (h : set ∈ mergeFieldset added sets) :
    set ∈ sets ∨ set = added ∨ ∃ old ∈ sets, set = old.addFields added.fields := by
  induction sets with
  | nil => exact .inr (.inl (List.mem_singleton.1 h))
  | cons old sets ih =>
    unfold mergeFieldset at h
    split at h
    · rcases List.mem_cons.1 h with rfl | h
      · exact .inr (.inr ⟨old, .head _, rfl⟩)
      · exact .inl (.tail _ h)
    · rcases List.mem_cons.1 h with rfl | h
      · exact .inl (.head _)
      · rcases ih h with h | h | ⟨old', hold, heq⟩
        · exact .inl (.tail _ h)
        · exact .inr (.inl h)
        · exact .inr (.inr ⟨old', .tail _ hold, heq⟩)

end Schema

theorem Fieldset.fields_addFields_one (set : Fieldset) (name : String) :
    (set.addFields [name]).fields =
      if name ∈ set.fields then set.fields else set.fields ++ [name] := by
  simp [addFields]

theorem Fieldset.nodup_addFields_one {set : Fieldset} (h : set.fields.Nodup) (name : String) :
    (set.addFields [name]).fields.Nodup := by
  rw [fields_addFields_one]
  split
  · exact h
  · rename_i hnew
    exact List.concat_eq_append ▸ h.concat hnew

theorem Fieldset.of_mem_addFields_one {set : Fieldset} {name member : String}
    (h : member ∈ (set.addFields [name]).fields) : member ∈ set.fields ∨ member = name := by
  rw [fields_addFields_one] at h
  split at h
  · exact .inl h
  · exact (List.mem_append.1 h).imp_right List.mem_singleton.1

end ContentSchema

namespace ContentSchema.Document

open FieldCodec (standard)
open Markup (Element)

/-- Whether the fieldsets of the parts of a schema have distinct names and labels of their own, and list
fields that are there, each once. -/
structure Grouped (parts : SchemaParts) : Prop where
  /-- The names are distinct. -/
  names : (parts.fieldsets.map (·.name)).Nodup
  /-- The labels are there. -/
  labels (set : Fieldset) : set ∈ parts.fieldsets → set.label ≠ none
  /-- No member stands twice. -/
  distinct (set : Fieldset) : set ∈ parts.fieldsets → set.fields.Nodup
  /-- The members are there. -/
  members (set : Fieldset) : set ∈ parts.fieldsets →
    ∀ name ∈ set.fields, ∃ f, parts.fields.get? name = some f

section Steps

variable {s : Scope} {orders : NameMap Nat} {first : Nat} {es : List Element}
  {parts parts' : SchemaParts}

theorem exists_get?_addField (parts : SchemaParts) (added : String) (f : Field) (e : Element)
    {name : String} (h : name = added ∨ ∃ g, parts.fields.get? name = some g) :
    ∃ g, (parts.addField added f e).fields.get? name = some g := by
  simp only [SchemaParts.addField, NameMap.get?_insert]
  split
  · exact ⟨f, rfl⟩
  · rename_i hne
    rcases h with rfl | h
    · exact absurd rfl hne
    · exact h

theorem Grouped.addField (h : Grouped parts) (name : String) (f : Field) (e : Element) :
    Grouped (parts.addField name f e) where
  names := h.names
  labels := h.labels
  distinct := h.distinct
  members set hset member hmember :=
    exists_get?_addField parts name f e (.inr (h.members set hset member hmember))

theorem Grouped.addFieldset (h : Grouped parts) {added : Fieldset}
    (fresh : ∀ t ∈ parts.fieldsets, t.name ≠ added.name) (empty : added.fields = [])
    (labelled : added.label ≠ none) :
    Grouped { parts with fieldsets := parts.fieldsets ++ [added] } := by
  refine ⟨?_, fun set hset => ?_, fun set hset => ?_, fun set hset name hname => ?_⟩
  · have hnew : added.name ∉ parts.fieldsets.map (·.name) := fun hmem => by
      obtain ⟨set, hset, heq⟩ := List.mem_map.1 hmem
      exact fresh set hset heq
    rw [List.map_append]
    exact List.concat_eq_append ▸ h.names.concat hnew
  · rcases List.mem_append.1 hset with hset | hset
    · exact h.labels set hset
    · rw [List.mem_singleton.1 hset]
      exact labelled
  · rcases List.mem_append.1 hset with hset | hset
    · exact h.distinct set hset
    · rw [List.mem_singleton.1 hset, empty]
      exact List.nodup_nil
  · rcases List.mem_append.1 hset with hset | hset
    · exact h.members set hset name hname
    · rw [List.mem_singleton.1 hset, empty] at hname
      cases hname

theorem Grouped.addMember (h : Grouped parts) (name : String) (f : Field) (e : Element)
    (label : String) :
    Grouped { parts.addField name f e with
      fieldsets := Schema.mergeFieldset { name := label, fields := [name] } parts.fieldsets } := by
  have hadded := h.addField name f e
  have hthere : ∃ g, (parts.addField name f e).fields.get? name = some g :=
    exists_get?_addField parts name f e (.inl rfl)
  refine ⟨?_, fun set hset => ?_, fun set hset => ?_, fun set hset member hmember => ?_⟩
  · rw [Schema.map_name_mergeFieldset]
    split
    · exact h.names
    · rename_i hnew
      exact List.concat_eq_append ▸ h.names.concat hnew
  · rcases Schema.mem_mergeFieldset hset with hset | rfl | ⟨old, hold, rfl⟩
    · exact h.labels set hset
    · exact Option.some_ne_none _
    · exact h.labels old hold
  · rcases Schema.mem_mergeFieldset hset with hset | rfl | ⟨old, hold, rfl⟩
    · exact h.distinct set hset
    · exact List.nodup_singleton _
    · exact Fieldset.nodup_addFields_one (h.distinct old hold) name
  · rcases Schema.mem_mergeFieldset hset with hset | rfl | ⟨old, hold, rfl⟩
    · exact hadded.members set hset member hmember
    · cases List.mem_singleton.1 hmember
      exact hthere
    · rcases Fieldset.of_mem_addFields_one hmember with hmember | rfl
      · exact hadded.members old hold member hmember
      · exact hthere

/-- Every step keeps the fieldsets in order. -/
theorem PartStep.grouped (hstep : PartStep s orders first parts es parts') (h : Grouped parts) :
    Grouped parts' := by
  cases hstep with
  | @field e name f _ => exact h.addField name f e
  | fieldset fresh empty labelled => exact h.addFieldset fresh empty labelled
  | @member e name label f _ => exact h.addMember name f e label
  | invariant => exact ⟨h.names, h.labels, h.distinct, h.members⟩

/-- The fieldsets that are read are in order. -/
theorem PartsRead.grouped (h : PartsRead s orders first {} es parts) : Grouped parts := by
  induction h with
  | refl => exact ⟨List.nodup_nil, nofun, nofun, nofun⟩
  | tail _ hstep ih => exact hstep.grouped ih

end Steps

/-! ## Fields -/

/-- A field without the place and the schema that it got. -/
def asNumbered (m : Nat) (f : Field) : Field := { f with order := m, interface := none }

/-- Whether a field was read from an element, apart from its place and its schema. -/
def ReadAs (s : Scope) (e : Element) (f : Field) : Prop := ∃ t m, ReadFrom s t e m (asNumbered m f)

theorem Textless.of_asNumbered {f : Field} {v : Value} {m : Nat} (h : Textless f v) :
    Textless (asNumbered m f) v := by
  cases h with
  | scalar hv h => exact .scalar hv h
  | item hv hw h => exact .item hv hw h
  | key hd h => exact .key hd h
  | value hd h => exact .value hd h

theorem Inexpressible.asNumbered {f : Field} (h : Inexpressible f) (m : Nat) :
    Inexpressible (asNumbered m f) := by
  cases h with
  | terms choice h => exact .terms choice h
  | @value spec v mem written holds h =>
    have hsame : (Document.asNumbered m f).attribute? spec.name = f.attribute? spec.name := by
      simp only [writtenSpecs, List.mem_cons, List.not_mem_nil, or_false] at mem
      rcases mem with rfl | rfl | rfl | rfl | rfl | rfl | rfl | rfl | rfl | rfl | rfl | rfl | rfl |
        rfl | rfl | rfl <;> rfl
    refine .value mem written (hsame.trans holds) ?_
    unfold typedBy at h ⊢
    split
    · rename_i hown
      rw [if_pos hown] at h
      exact h.of_asNumbered
    · rename_i hown
      rw [if_neg hown] at h
      exact h

theorem HoldsReference.of_asNumbered {f : Field} {m : Nat} (h : HoldsReference (asNumbered m f)) :
    HoldsReference f := by
  obtain ⟨v, hv, hcontainer, hrefers⟩ := h
  refine ⟨v, hv, hcontainer, ?_⟩
  cases hrefers with
  | reference type => exact .reference type
  | item hv hw h => exact .item hv hw h
  | key hd h => exact .key hd h
  | value hd h => exact .value hd h

theorem ScalarMissing.of_asNumbered {f : Field} {m : Nat} (h : ScalarMissing (asNumbered m f)) :
    ScalarMissing f := fun v hv ht => ⟨(h v hv ht).parsed, (h v hv ht).object⟩

theorem ScalarMissing.asNumbered {f : Field} (h : ScalarMissing f) (m : Nat) :
    ScalarMissing (asNumbered m f) := fun v hv ht => ⟨(h v hv ht).parsed, (h v hv ht).object⟩

section Fields

variable {s : Scope} {orders : NameMap Nat} {first : Nat} {root e : Element} {f : Field} {name : String}

/-- A field that was read and stays as it is was read as that. -/
theorem ReadFrom.readAs {t : FieldType} {m : Nat} (h : ReadFrom s t e m f) : ReadAs s e f := by
  have hsame : asNumbered m f = f := by
    have horder : f.order = m := h.fixed.2.2.2.2
    have hinterface : f.interface = none := congrArg Field.interface h.described.eq
    cases f
    cases horder
    cases hinterface
    rfl
  exact ⟨t, m, hsame.symm ▸ h⟩

/-- A field that was read under a name and belongs to a schema, and each field nested in it, was read
from an element inside. -/
theorem NamedField.readAs (hr : s.registry = Registry.standard)
    (h : NamedField s orders first e name f) (identifier : String) :
    (ownedBy identifier f).Everywhere fun g => ∃ c, e.Inside c ∧ ReadAs s c g := by
  obtain ⟨t, m, n, g, -, hread, rfl⟩ := h.read_standard hr
  obtain ⟨u, i, hown⟩ := (readFrom_of_yields hr hread).readAs
  obtain ⟨-, key, value⟩ : g.Everywhere fun k => ∃ c, e.Inside c ∧ ReadAs s c k :=
    (everywhere_of_yields hr hread).imp fun k ⟨_, c, _, hc, hk⟩ => ⟨c, hc, hk.readAs⟩
  exact .intro ⟨e, .self, u, i, hown⟩ key value

/-- Whether the terms and the bounds of a field are as they should be. -/
structure IsComplete (f : Field) : Prop where
  /-- A choice has terms. -/
  terms : f.type = .choice → f.vocabulary ≠ none
  /-- The greatest value is not below the least. -/
  bounds (a b : Value) : f.min = some a → f.max = some b → b.compareBound? a ≠ some .lt

theorem ReadAs.isComplete (h : ReadAs s e f) : IsComplete f := by
  obtain ⟨t, m, h⟩ := h
  exact ⟨h.complete, fun a b ha hb => h.bounds ha hb⟩

/-- What documents cannot express of a field that was read. -/
theorem ReadAs.of_inexpressible (h : ReadAs s e f) (hf : f.Everywhere ScalarMissing)
    (hbad : Inexpressible f) : TakesTermsFrom s.resolve e f ∨ HoldsReference f := by
  obtain ⟨t, m, h⟩ := h
  obtain ⟨here, key, value⟩ := hf
  have hmissing : (asNumbered m f).Everywhere ScalarMissing := .intro (here.asNumbered m) key value
  rcases h.of_inexpressible hmissing (hbad.asNumbered m) with hterms | hheld
  · exact .inl hterms
  · exact .inr hheld.of_asNumbered

/-- Whether a field takes its terms from a `source` element of a document, inside its own element. -/
def TakesTermsFromSource (s : Scope) (root : Element) (f : Field) : Prop :=
  ∃ e, root.Inside e ∧ ReadAs s e f ∧ TakesTermsFrom s.resolve e f

/-- At some level a field that was read takes its terms from a source, or holds a reference. -/
theorem somewhere_of_inexpressible (h : f.Everywhere fun g => ∃ c, root.Inside c ∧ ReadAs s c g)
    (hbad : f.Somewhere Inexpressible) :
    f.Somewhere fun g => TakesTermsFromSource s root g ∨ HoldsReference g := by
  refine h.somewhere hbad fun k hk hbad => ?_
  obtain ⟨c, hc, hread⟩ := hk.here
  have hmissing : k.Everywhere ScalarMissing :=
    hk.imp fun _ ⟨_, _, _, _, hg⟩ => hg.scalarMissing.of_asNumbered
  exact (hread.of_inexpressible hmissing hbad).imp (fun hterms => ⟨c, hc, hread, hterms⟩) id

end Fields

/-! ## Schemas -/

/-- Whether names, fieldsets, bases, terms and bounds of a schema fit together. -/
structure IsSound (s : Schema) : Prop where
  /-- Each own field is stored under its name, and belongs to the schema. -/
  own (name : String) (f : Field) : s.fields.get? name = some f →
    f.name = name ∧ f.interface = some s.identifier
  /-- The fieldsets have distinct names. -/
  fieldsetNames : (s.fieldsets.map (·.name)).Nodup
  /-- A fieldset lists own fields, each once. -/
  fieldsets (set : Fieldset) : set ∈ s.fieldsets →
    set.fields.Nodup ∧ ∀ name ∈ set.fields, ∃ f, s.fields.get? name = some f
  /-- The last base is the root schema. -/
  bases : s.bases.getLast? = some Schema.root
  /-- The own fields are complete, at every level. -/
  fields (name : String) (f : Field) : s.fields.get? name = some f → f.Everywhere IsComplete

/-- Whether a schema was read from an element, apart from the work of handlers: it is sound, and its
fields were read from elements inside. -/
structure SchemaReadFrom (s : Scope) (e : Element) (schema : Schema) : Prop where
  /-- Everything fits together. -/
  sound : IsSound schema
  /-- The fields were read. -/
  fields (name : String) (f : Field) : schema.fields.get? name = some f →
    f.Everywhere fun g => ∃ c, e.Inside c ∧ ReadAs s c g

section Schemas

variable {c : Context} (hschemas : c.schemaHandlers = []) (hfields : c.fieldHandlers = [])

include hschemas hfields

theorem Handled.eq {a b : Schema} (h : Handled c a b) : b = a := by
  induction h with
  | refl => rfl
  | tail _ hstep ih =>
    rcases hstep with ⟨handler, hmem, -⟩ | ⟨handler, hmem, -⟩
    · rw [hfields] at hmem
      cases hmem
    · rw [hschemas] at hmem
      cases hmem

/-- A schema that was read is sound. -/
theorem schemaReadFrom_of_yields {s : Scope} (hr : s.registry = Registry.standard) {policy : Policy}
    {root e : Element} {name : String} {schema : Schema} {m n : Nat}
    (h : (readSchema c s policy root e).Yields m n (name, schema)) : SchemaReadFrom s e schema := by
  obtain ⟨-, bases, parts, -, hparts, hhandled⟩ := exists_parts_of_yields h
  obtain rfl := hhandled.eq hschemas hfields
  have hread (key : String) (f : Field) (hf : parts.fields.get? key = some f) :
      ∃ c, e.Inside c ∧ NamedField s (inheritedOrders bases) m c key f := by
    obtain ⟨c, hc, hnamed⟩ := hparts.field rfl hf
    exact ⟨c, (encloses_of_mem_fieldElements hc).inside, hnamed⟩
  have hnames (key : String) (f : Field) (hf : parts.fields.get? key = some f) : f.name = key := by
    obtain ⟨c, -, hc⟩ := hread key f hf
    exact hc.name_eq hr
  have hget := get?_toSchema parts policy name root bases hnames
  have hsets : (parts.toSchema policy name root bases).fieldsets = parts.fieldsets := by
    rw [toSchema_eq]
  have hlast : (parts.toSchema policy name root bases).bases.getLast? = some Schema.root := by
    rw [toSchema_eq]
    exact List.getLast?_concat
  generalize parts.toSchema policy name root bases = schema at hget hsets hlast
  have hown (key : String) (f : Field) (hf : schema.fields.get? key = some f) :
      f.Everywhere fun g => ∃ c, e.Inside c ∧ ReadAs s c g := by
    rw [hget] at hf
    obtain ⟨g, hg, rfl⟩ := Option.map_eq_some_iff.1 hf
    obtain ⟨c, hc, hnamed⟩ := hread key g hg
    exact (hnamed.readAs hr _).imp fun _ ⟨i, hi, hread⟩ => ⟨i, hc.trans hi, hread⟩
  refine ⟨⟨fun key f hf => ?_, ?_, fun set hset => ?_, hlast, fun key f hf => ?_⟩, hown⟩
  · rw [hget] at hf
    obtain ⟨g, hg, rfl⟩ := Option.map_eq_some_iff.1 hf
    exact ⟨hnames key g hg, rfl⟩
  · rw [hsets]
    exact hparts.grouped.names
  · rw [hsets] at hset
    refine ⟨hparts.grouped.distinct set hset, fun member hmember => ?_⟩
    obtain ⟨f, hf⟩ := hparts.grouped.members set hset member hmember
    exact ⟨_, (hget member).trans (congrArg (Option.map _) hf)⟩
  · exact (hown key f hf).imp fun _ ⟨_, _, hread⟩ => hread.isComplete

end Schemas

theorem SchemaReadFrom.fitsTogether {s : Scope} {e : Element} {schema : Schema}
    (h : SchemaReadFrom s e schema) : FitsTogether schema where
  typeName name f hf := (h.fields name f hf).imp fun _ ⟨_, _, _, _, hread⟩ => hread.fixed.2.2.1
  members set hset := (h.sound.fieldsets set hset).2

/-! ## Models -/

/-- The schemas of a model that was read are sound. The model has a document, unless at some level of a
field the terms come from a `source` element of the document that was read, or the default or missing
value holds the reference of an object. -/
theorem write_of_parse {c : Context} (hr : c.registry = Registry.standard)
    (hschemas : c.schemaHandlers = []) (hfields : c.fieldHandlers = []) {file : Option String}
    {policyName document : String} {first n : Nat} {m : Model}
    (h : c.parse file policyName document first = (.ok m, n)) :
    (∀ entry ∈ m.entries, IsSound entry.2) ∧
      ∀ pretty fault, c.write pretty m = .error fault →
        (∃ cause, fault = .notSupported cause) ∧
          ∃ root, Element.read document = .ok root ∧
            ∃ entry ∈ m.entries, ∃ name f, entry.2.fields.get? name = some f ∧
              f.Somewhere fun g =>
                TakesTermsFromSource (c.scope (root.get? domainAttribute)) root g ∨
                  HoldsReference g := by
  obtain ⟨policy, root, -, hroot, hentries⟩ := exists_readSchema_of_parse h
  have hread (entry : String × Schema) (hentry : entry ∈ m.entries) : ∃ e, root.Inside e ∧
      SchemaReadFrom (c.scope (root.get? domainAttribute)) e entry.2 := by
    obtain ⟨e, he, k, l, -, hyields⟩ := hentries entry hentry
    exact ⟨e, he, schemaReadFrom_of_yields hschemas hfields hr hyields⟩
  refine ⟨fun entry hentry => ?_, fun pretty fault hfault => ?_⟩
  · obtain ⟨e, -, hschema⟩ := hread entry hentry
    exact hschema.sound
  · have hfits : ∀ entry ∈ m.entries, FitsTogether entry.2 := fun entry hentry => by
      obtain ⟨e, -, hschema⟩ := hread entry hentry
      exact hschema.fitsTogether
    obtain ⟨hcause, entry, hentry, name, f, hf, hbad⟩ :=
      (failsOnly_write hr hschemas hfields hfits pretty).error fault hfault
    obtain ⟨e, he, hschema⟩ := hread entry hentry
    have hlevels := (hschema.fields name f hf).imp fun _ ⟨c, hc, hread⟩ =>
      (⟨c, he.trans hc, hread⟩ : ∃ c, root.Inside c ∧ ReadAs _ c _)
    exact ⟨hcause, root, hroot, entry, hentry, name, f, hf, somewhere_of_inexpressible hlevels hbad⟩

/-- A context in which every name stands for one schema. -/
def oneSchemaContext : Context :=
  { resolve := fun _ => some (.schema { name := "B", module := "a" }) }

/-- A document with a list of objects, whose default holds a reference. -/
def referencesDocument : String :=
  "<model><schema name=\"s\"><field name=\"refs\" type=\"zope.schema.List\">" ++
    "<value_type type=\"zope.schema.Object\"/><default><element>a.B</element></default>" ++
    "</field></schema></model>"

/-- That document is accepted, and the model has no document again. -/
theorem write_of_parse_references :
    ∃ m n fault, oneSchemaContext.parse none "" referencesDocument 1 = (.ok m, n) ∧
      (∀ entry ∈ m.entries, IsSound entry.2) ∧ oneSchemaContext.write true m = .error fault ∧
      (∃ cause, fault = .notSupported cause) ∧
        ∃ root, Element.read referencesDocument = .ok root ∧
          ∃ entry ∈ m.entries, ∃ name f, entry.2.fields.get? name = some f ∧
            f.Somewhere fun g =>
              TakesTermsFromSource (oneSchemaContext.scope (root.get? domainAttribute)) root g ∨
                HoldsReference g := by
  have hrun : (oneSchemaContext.parse none "" referencesDocument 1).1.toOption.map
      (fun m => (oneSchemaContext.write true m).isOk) = some false := by decide +kernel
  obtain ⟨m, n, hparse, hfails⟩ := exists_of_fst_toOption_map hrun
  cases hwrite : oneSchemaContext.write true m with
  | ok text =>
    rw [hwrite] at hfails
    cases hfails
  | error fault =>
    obtain ⟨hsound, hfault⟩ := write_of_parse rfl rfl rfl hparse
    exact ⟨m, n, fault, hparse, hsound, hwrite, hfault true fault hwrite⟩

end ContentSchema.Document
