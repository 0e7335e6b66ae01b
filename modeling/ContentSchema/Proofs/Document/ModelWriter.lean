import ContentSchema.Proofs.Document.Schema
import ContentSchema.Proofs.Document.Unsupported

/-!
# Writing models fails in one way

A model has a document unless something in a field of it is inexpressible, as long as its schemas fit
together (`Writes`): fields have standard types, and fieldsets list own fields.

Result: a fault of `Context.write` is that a document cannot express something, and a field of the
model's own has something inexpressible at some level (`failsOnly_write`).
-/
namespace ContentSchema.Document

open FieldCodec (standard)
open Markup (Element IsAttributeName Reread Writable isPlainName)

/-! ## The message domain -/

/-- A walk keeps what does not need the attribute of the domain, and hangs on the elements inside only
as it holds of them. -/
theorem walk_takeDomain_keeps {P : Element → Prop}
    (erase : ∀ e, P e → P (e.erase domainAttribute)) (inside : ∀ e, P e → ∀ c ∈ e.children, P c)
    (replace : ∀ e cs, P e → (∀ c ∈ cs, P c) → P { e with children := cs }) {e : Element} (h : P e)
    (before : Option String) : P (Element.walk takeDomain before e).1 := by
  refine Element.walk_keeps (fun e before h => ?_) inside replace h before
  rcases fst_takeDomain e before with htaken | htaken <;> rw [htaken]
  · exact h
  · exact erase e h

theorem writable_walk {e : Element} (h : Writable e) (domain : Option String) :
    Writable (Element.walk takeDomain domain e).1 := by
  refine walk_takeDomain_keeps (P := Writable) (fun e h => ?_) (fun e h => ?_) (fun e es h hes => ?_)
    h domain
  · obtain ⟨tag, names, distinct, undeclared, children⟩ := h
    have hsub : (e.erase domainAttribute).attributes.Sublist e.attributes := List.eraseP_sublist
    exact .intro tag (fun a ha => names a (hsub.subset ha)) ((hsub.map _).nodup distinct)
      undeclared children
  · obtain ⟨-, -, -, -, children⟩ := h
    exact children
  · obtain ⟨tag, names, distinct, undeclared, -⟩ := h
    exact .intro tag names distinct undeclared hes

/-- Elements that can be written have a document, and what is read from it is what was written. -/
theorem exists_reread_hoistDomain {root : Element} (ht : isPlainName root.tag = true)
    (hattributes : root.attributes = []) (hdeclared : root.namespaces = Markup.declared)
    (hc : ∀ e ∈ root.children, Writable e) (pretty : Bool) :
    ∃ text root', (hoistDomain root).write pretty = .ok text ∧ Element.read text = .ok root' ∧
      Reread (hoistDomain root) root' := by
  have hchildren := Element.walkAll_keeps (fun e he => writable_walk (hc e he)) none
  rw [hoistDomain_eq hattributes]
  generalize Element.walkAll takeDomain none root.children = inside at hchildren ⊢
  let domains := inside.2.filter (!·.isEmpty)
  have hnames : ∀ a ∈ domains.toList.map (domainAttribute, ·), IsAttributeName a.1 := fun a ha => by
    obtain ⟨domain, -, rfl⟩ := List.mem_map.1 ha
    exact isAttributeName_of_mem (show domainAttribute ∈ attributeNames by decide)
  have hdistinct : ((domains.toList.map (domainAttribute, ·)).map (·.1)).Nodup := by
    cases domains <;> simp
  let hoisted : Element := { root with
    attributes := domains.toList.map (domainAttribute, ·), children := inside.1 }
  exact Markup.read_write (show isPlainName hoisted.tag = true from ht) hnames hdistinct hdeclared
    hchildren pretty

/-- Attributes with some of the known names, each once, can be written. -/
theorem attributes_of_sublist {attributes : List (String × String)} {names : List String}
    (h : (attributes.map (·.1)).Sublist names) (hknown : ∀ name ∈ names, name ∈ attributeNames)
    (hnames : names.Nodup) :
    (∀ a ∈ attributes, IsAttributeName a.1) ∧ (attributes.map (·.1)).Nodup :=
  ⟨fun a ha => isAttributeName_of_mem (hknown _ (h.subset (List.mem_map.2 ⟨a, ha, rfl⟩))),
    h.nodup hnames⟩

theorem attributes_fieldset (set : Fieldset) : (∀ a ∈ fieldsetAttributes set, IsAttributeName a.1) ∧
    ((fieldsetAttributes set).map (·.1)).Nodup :=
  attributes_of_sublist (keys_fieldsetAttributes set) (by decide) (by decide)

theorem attributes_schema (name : String) (s : Schema) :
    (∀ a ∈ schemaAttributes name s, IsAttributeName a.1) ∧ ((schemaAttributes name s).map (·.1)).Nodup :=
  attributes_of_sublist (keys_schemaAttributes name s) (by decide) (by decide)

/-- Whether the fields of a schema have standard types, and the fieldsets list fields of its own. -/
structure FitsTogether (s : Schema) : Prop where
  /-- No type has another name. -/
  typeName (name : String) (f : Field) : s.fields.get? name = some f →
    f.Everywhere fun k => k.typeName = none
  /-- The members of fieldsets are own fields. -/
  members (set : Fieldset) : set ∈ s.fieldsets → ∀ name ∈ set.fields, ∃ f, s.fields.get? name = some f

/-- Whether a field of a schema's own has something inexpressible. -/
def HasInexpressible (s : Schema) : Prop :=
  ∃ name f, s.fields.get? name = some f ∧ f.Somewhere Inexpressible

section Write

variable {c : Context} (hr : c.registry = Registry.standard) (hschemas : c.schemaHandlers = [])
  (hfields : c.fieldHandlers = []) {s : Schema} (hs : FitsTogether s)

include hr hfields hs

theorem failsOnly_fieldElement {name : String} {f : Field} (hf : s.fields.get? name = some f) :
    FailsOnly (fieldElement c s f) Writable (HasInexpressible s) := by
  have htypes := hs.typeName name f hf
  have hcodec : c.registry.get? f.typeIdentifier = some (standard f.type) := by
    rw [hr, Field.typeIdentifier, htypes.here, Option.getD_none, Registry.get?_standard]
  unfold fieldElement
  rw [hcodec, hfields, hr]
  have hwrite : FailsOnly (writeField Registry.standard f (standard f.type) (some f.name) "field")
      Writable (HasInexpressible s) :=
    (failsOnly_writeField htypes (some f.name) (by decide)).imp (fun _ => id)
      fun h => ⟨name, f, hf, h⟩
  exact hwrite.bind fun e he => failsOnly_ok he

theorem failsOnly_fieldsetElement {set : Fieldset} (hset : set ∈ s.fieldsets) :
    FailsOnly (fieldsetElement c s set) Writable (HasInexpressible s) := by
  unfold fieldsetElement
  have hchildren : FailsOnly (set.fields.mapM fun name => do
      fieldElement c s (← (s.require name).mapError .model)) (fun es => ∀ e ∈ es, Writable e)
      (HasInexpressible s) := by
    refine FailsOnly.mapM fun name hname => ?_
    obtain ⟨f, hf⟩ := hs.members set hset name hname
    rw [Schema.require, Schema.get?_own hf]
    exact failsOnly_fieldElement hr hfields hs hf
  refine hchildren.bind fun es hes => failsOnly_ok ?_
  obtain ⟨hnames, hdistinct⟩ := attributes_fieldset set
  exact .intro (show isPlainName "fieldset" = true by decide) hnames hdistinct rfl hes

include hschemas

theorem failsOnly_schemaElement (name : String) :
    FailsOnly (schemaElement c name s) Writable (HasInexpressible s) := by
  have hungrouped : FailsOnly ((ungroupedFields s).mapM (fieldElement c s))
      (fun es => ∀ e ∈ es, Writable e) (HasInexpressible s) := by
    refine FailsOnly.mapM fun f hf => ?_
    obtain ⟨e, he, rfl⟩ := List.mem_map.1 (mem_ungroupedFields.1 hf).1
    exact failsOnly_fieldElement hr hfields hs ((NameMap.mem_entries_iff _).1 he)
  have hsets : FailsOnly (s.fieldsets.mapM (fieldsetElement c s)) (fun es => ∀ e ∈ es, Writable e)
      (HasInexpressible s) := FailsOnly.mapM fun set hset => failsOnly_fieldsetElement hr hfields hs hset
  unfold schemaElement
  rw [hschemas]
  refine hungrouped.bind fun fields hfields => hsets.bind fun sets hsets => failsOnly_ok ?_
  obtain ⟨hnames, hdistinct⟩ := attributes_schema name s
  refine .intro (show isPlainName "schema" = true by decide) hnames hdistinct rfl fun e he => ?_
  rcases List.mem_append.1 he with he | he
  · rcases List.mem_append.1 he with he | he
    · obtain ⟨i, -, rfl⟩ := List.mem_map.1 he
      exact writable_of_children (by decide) (List.forall_mem_nil _)
    · exact hfields e he
  · exact hsets e he

end Write

/-! ## Models -/

/-- A model has a document, unless a field of one of its schemas has something inexpressible. -/
theorem failsOnly_write {c : Context} (hr : c.registry = Registry.standard)
    (hschemas : c.schemaHandlers = []) (hfields : c.fieldHandlers = []) {m : Model}
    (hm : ∀ e ∈ m.entries, FitsTogether e.2) (pretty : Bool) :
    FailsOnly (c.write pretty m) (fun _ => True) (∃ e ∈ m.entries, HasInexpressible e.2) := by
  have hes : FailsOnly (m.entries.mapM fun s => schemaElement c s.1 s.2)
      (fun es => ∀ e ∈ es, Writable e) (∃ e ∈ m.entries, HasInexpressible e.2) :=
    FailsOnly.mapM fun e he =>
      (failsOnly_schemaElement hr hschemas hfields (hm e he) e.1).imp (fun _ => id)
        fun h => ⟨e, he, h⟩
  unfold Context.write
  rw [modelElement_eq hschemas hfields, bind_assoc]
  refine hes.bind fun es hes => ?_
  let root : Element := { tag := "model", namespaces := Markup.declared, children := es }
  have ht : isPlainName root.tag = true := show isPlainName "model" = true by decide
  obtain ⟨text, -, hwrite, -⟩ := exists_reread_hoistDomain ht rfl rfl hes pretty
  rw [pure_bind, hwrite]
  exact failsOnly_ok trivial

end ContentSchema.Document
