import ContentSchema.Proofs.Document.Parts
import ContentSchema.Proofs.Schema.Inheritance

/-!
# Fieldsets read back

A fieldset is written with its fields inside. A fieldset that is proper (`IsProper`) has an element,
and whatever has the content of that element adds the fieldset as it was, behind those that were
read before.

Results: the element (`exists_fieldsetElement`) and what is read from it (`exists_readFieldset`).
-/
namespace ContentSchema.Document

open Markup (Element isPlainName)

/-- Contexts with the standard types and the default policy, and without handlers. -/
structure IsStandard (c : Context) : Prop where
  /-- The types. -/
  registry : c.registry = Registry.standard
  /-- No schema has further markup. -/
  schemaHandlers : c.schemaHandlers = []
  /-- No field has further markup. -/
  fieldHandlers : c.fieldHandlers = []
  /-- The policy without a name is the default one. -/
  policy : c.policies.get? "" = some Policy.default

/-- A fieldset that a document can describe, in a schema with some fields. A label is only left out
where it is the name. -/
structure IsProper (fields : NameMap Field) (set : Fieldset) : Prop where
  /-- The label is there, and is empty only if the name is. -/
  label : ∃ label, set.label = some label ∧ (label = "" → set.name = "")
  /-- The description is not empty. -/
  description : set.description ≠ some ""
  /-- The members are fields of the schema's own. -/
  members : ∀ name ∈ set.fields, ∃ f, fields.get? name = some f
  /-- No member stands twice. -/
  distinct : set.fields.Nodup

/-! ## The attributes of fieldsets -/

/-- The attributes of the element of a fieldset. -/
def fieldsetAttributes (set : Fieldset) : List (String × String) :=
  ("name", set.name) :: optionalAttribute "label" set.label ++
    optionalAttribute "description" set.description ++
    (if set.order = Fieldset.defaultOrder then [] else [("order", int64Text set.order)])

/-- An attribute that may be left out stands for its value, if that is not empty. -/
theorem find?_optionalAttribute (name key : String) (value : Option String) :
    ((optionalAttribute name value).find? (·.1 == key)).map (·.2) =
      if name = key then value.filter (!·.isEmpty) else none := by
  unfold optionalAttribute
  cases value.filter (!·.isEmpty) with
  | none => simp
  | some v => by_cases h : name = key <;> simp [h]

theorem keys_optionalAttribute (name : String) (value : Option String) :
    (optionalAttribute name value).map (·.1) = [] ∨
      (optionalAttribute name value).map (·.1) = [name] := by
  unfold optionalAttribute
  split
  · exact .inr rfl
  · exact .inl rfl

/-- The attributes of fieldsets are attributes of models, each once. -/
theorem keys_fieldsetAttributes (set : Fieldset) :
    ((fieldsetAttributes set).map (·.1)).Sublist ["name", "label", "description", "order"] := by
  have horder : ((if set.order = Fieldset.defaultOrder then []
      else [("order", int64Text set.order)]).map (·.1)).Sublist ["order"] := by
    split
    · exact List.nil_sublist _
    · exact List.Sublist.refl _
  have hoptional (name : String) (value : Option String) :
      ((optionalAttribute name value).map (·.1)).Sublist [name] := by
    rcases keys_optionalAttribute name value with h | h
    · rw [h]
      exact List.nil_sublist _
    · rw [h]
  simp only [fieldsetAttributes, List.cons_append, List.map_cons, List.map_append]
  exact (((hoptional "label" _).append (hoptional "description" _)).append horder).cons_cons "name"

/-- What is found under a key behind the name. -/
theorem find?_fieldsetAttributes (set : Fieldset) {key : String} (h : "name" ≠ key) :
    ((fieldsetAttributes set).find? (·.1 == key)).map (·.2) =
      ((if "label" = key then set.label.filter (!·.isEmpty) else none).or
        (if "description" = key then set.description.filter (!·.isEmpty) else none)).or
        (if "order" = key then
          if set.order = Fieldset.defaultOrder then none else some (int64Text set.order)
        else none) := by
  have horder : ((if set.order = Fieldset.defaultOrder then []
      else [("order", int64Text set.order)]).find? (·.1 == key)).map (·.2) =
        if "order" = key then
          if set.order = Fieldset.defaultOrder then none else some (int64Text set.order)
        else none := by
    by_cases hk : "order" = key <;> by_cases hd : set.order = Fieldset.defaultOrder <;>
      simp [hk, hd]
  rw [fieldsetAttributes, List.cons_append, List.cons_append,
    List.find?_cons_of_neg (by simpa using h), List.find?_append, List.find?_append,
    Option.map_or, Option.map_or, find?_optionalAttribute, find?_optionalAttribute, horder]

section Describes

variable {fields : NameMap Field} {set : Fieldset} (h : IsProper fields set) {e : Element}
  (attributes : ∀ name, name ≠ domainAttribute →
    e.get? name = ((fieldsetAttributes set).find? (·.1 == name)).map (·.2))

include h attributes

/-- The attributes of a fieldset describe it, without its fields. -/
theorem newFieldset_written : newFieldset set.name e = .ok { set with fields := [] } := by
  obtain ⟨label, hlabel, hempty⟩ := h.label
  have hlabel' : (e.get? "label").getD set.name = label := by
    rw [attributes "label" (by decide), find?_fieldsetAttributes set (by decide), hlabel]
    by_cases hl : label = ""
    · simp [Option.filter, hl, hempty hl]
    · simp [Option.filter, hl]
  have hdescription : e.get? "description" = set.description := by
    rw [attributes "description" (by decide), find?_fieldsetAttributes set (by decide)]
    cases hd : set.description with
    | none => simp
    | some d =>
      have hne : d ≠ "" := fun he => h.description (hd.trans (congrArg some he))
      simp [Option.filter, hne]
  have horder : readFieldsetOrder e = .ok set.order := by
    rw [readFieldsetOrder, attributes "order" (by decide),
      find?_fieldsetAttributes set (by decide)]
    by_cases ho : set.order = Fieldset.defaultOrder
    · simp [ho]
    · simp [ho, trim_int64Text, readInt64_int64Text]
  rw [newFieldset, hlabel', hdescription, horder, ← hlabel]
  rfl

end Describes

/-! ## The members of fieldsets -/

/-- A fieldset that is not there yet is put behind the others. -/
theorem mergeFieldset_last {sets : List Fieldset} (set added : Fieldset)
    (h : ∀ t ∈ sets, t.name ≠ added.name) (hname : set.name = added.name) :
    Schema.mergeFieldset added (sets ++ [set]) = sets ++ [set.addFields added.fields] := by
  induction sets with
  | nil => simp [Schema.mergeFieldset, hname]
  | cons t sets ih =>
    have hne : (t.name == added.name) = false := by simpa using h t (.head _)
    rw [List.cons_append, Schema.mergeFieldset, hne, if_neg Bool.false_ne_true,
      ih fun u hu => h u (.tail _ hu)]
    rfl

/-- Members that are added one by one are those of the fieldset in the end. -/
theorem foldl_mergeFieldset {sets : List Fieldset} {set : Fieldset}
    (h : ∀ t ∈ sets, t.name ≠ set.name) (names added : List String) (hd : (names ++ added).Nodup) :
    added.foldl (fun sets n => Schema.mergeFieldset { name := set.name, fields := [n] } sets)
        (sets ++ [{ set with fields := names }]) =
      sets ++ [{ set with fields := names ++ added }] := by
  induction added generalizing names with
  | nil => rw [List.append_nil, List.foldl_nil]
  | cons n added ih =>
    have hn : names.contains n = false := by
      have hnot : n ∉ names := fun hn => List.disjoint_of_nodup_append hd hn (.head _)
      simpa using hnot
    have hstep : Schema.mergeFieldset { name := set.name, fields := [n] }
        (sets ++ [{ set with fields := names }]) =
          sets ++ [{ set with fields := names ++ [n] }] := by
      refine (mergeFieldset_last { set with fields := names } { name := set.name, fields := [n] } h
        rfl).trans ?_
      rw [Fieldset.addFields, List.foldl_cons, List.foldl_nil, hn, if_neg Bool.false_ne_true]
    rw [List.foldl_cons, hstep, ih _ (by simpa using hd), List.append_assoc]
    rfl

/-! ## The elements of fieldsets -/

/-- Whether an element is that of a fieldset with given fields inside. -/
structure IsFieldsetElement (resolve : Resolver) (domains : Set String) (set : Fieldset)
    (fs : List Field) (e : Element) : Prop where
  /-- The tag. -/
  tag : e.tag = "fieldset"
  /-- The attributes. -/
  attributes : e.attributes = fieldsetAttributes set
  /-- The fields are the members. -/
  names : fs.map (·.name) = set.fields
  /-- The elements inside are those of the fields. -/
  children : List.Forall₂ (IsFieldElement resolve domains) fs e.children
  /-- The element can be written and read. -/
  regular : Regular domains e

variable {resolve : Resolver} {domains : Set String}

theorem allRegular_fields {fs : List Field} {es : List Element}
    (h : List.Forall₂ (IsFieldElement resolve domains) fs es) : AllRegular domains es := by
  intro e he
  obtain ⟨f, -, hf⟩ := exists_of_forall₂_right h he
  exact ⟨by rw [hf.tag]; decide, hf.stands.regular⟩

section Write

variable {c : Context} (hc : IsStandard c)

include hc

theorem exists_schemaFieldElement {f : Field}
    (hf : f.Everywhere (ExpressibleAttributes resolve domains)) (schema : Schema) :
    ∃ e, fieldElement c schema f = .ok e ∧ IsFieldElement resolve domains f e := by
  obtain ⟨e, he, htag, hstands⟩ := exists_fieldElement hf (some f.name) "field"
  refine ⟨e, ?_, htag, hstands⟩
  unfold fieldElement
  rw [hc.registry, Field.typeIdentifier, hf.here.typeName, Option.getD_none, Registry.get?_standard]
  simp only [he, hc.fieldHandlers, bind, Except.bind, List.foldlM_nil, pure, Except.pure]

theorem exists_fieldElements {fs : List Field}
    (hfs : ∀ f ∈ fs, f.Everywhere (ExpressibleAttributes resolve domains)) (schema : Schema) :
    ∃ es, fs.mapM (fieldElement c schema) = .ok es ∧
      List.Forall₂ (IsFieldElement resolve domains) fs es := by
  obtain ⟨es, hes⟩ := exists_forall₂ fun f hf => exists_schemaFieldElement hc (hfs f hf) schema
  exact ⟨es, mapM_of_forall₂ (hes.imp fun _ _ h => h.1), hes.imp fun _ _ h => h.2⟩

/-- A fieldset has an element with its fields, which are fields of the schema's own. -/
theorem exists_fieldsetElement {s : Schema} {set : Fieldset} (h : IsProper s.fields set)
    (hnames : ∀ name f, s.fields.get? name = some f → f.name = name)
    (hfields : ∀ name f, s.fields.get? name = some f →
      f.Everywhere (ExpressibleAttributes resolve domains)) :
    ∃ fs e, fieldsetElement c s set = .ok e ∧ IsFieldsetElement resolve domains set fs e ∧
      ∀ f ∈ fs, s.fields.get? f.name = some f := by
  have hmember : ∀ name ∈ set.fields, ∃ p : Field × Element,
      (do fieldElement c s (← (s.require name).mapError Fault.model)) = .ok p.2 ∧
        IsFieldElement resolve domains p.1 p.2 ∧ p.1.name = name ∧
          s.fields.get? name = some p.1 := fun name hname => by
    obtain ⟨f, hget⟩ := h.members name hname
    obtain ⟨e, he, hstands⟩ := exists_schemaFieldElement (c := c) hc (hfields name f hget) s
    refine ⟨(f, e), ?_, hstands, hnames name f hget, hget⟩
    rw [Schema.require, Schema.get?_own hget]
    exact he
  obtain ⟨ps, hps⟩ := exists_forall₂ hmember
  have hchildren : List.Forall₂ (IsFieldElement resolve domains) (ps.map (·.1)) (ps.map (·.2)) :=
    List.forall₂_map_left_iff.2 (List.forall₂_map_right_iff.2
      (List.forall₂_same.2 fun p hp =>
        let ⟨_, _, _, hstands, _⟩ := exists_of_forall₂_right hps hp
        hstands))
  have hsub := keys_fieldsetAttributes set
  let e : Element :=
    { tag := "fieldset", attributes := fieldsetAttributes set, children := ps.map (·.2) }
  refine ⟨ps.map (·.1), e, ?_, ⟨rfl, rfl, ?_, hchildren, ?_⟩, fun f hf => ?_⟩
  · have hmapM := mapM_of_forall₂ (List.forall₂_map_right_iff.2 (hps.imp fun _ _ hp => hp.1))
    unfold fieldsetElement
    rw [hmapM]
    rfl
  · have hnames : set.fields.map id = ps.map (·.1.name) :=
      map_eq_of_forall₂ (hps.imp fun _ _ hp => hp.2.2.1.symm)
    rw [List.map_map, ← List.map_id set.fields, hnames]
    rfl
  · refine regular_unmarked (fun a ha => ?_) (hsub.nodup (by decide)) (allRegular_fields hchildren)
    have hkeys : ∀ name ∈ ["name", "label", "description", "order"], name ∈ ["name", "type", keyAttribute, "based-on", "label", "description", "order"] := by decide
    exact hkeys _ (hsub.subset (List.mem_map_of_mem ha))
  · obtain ⟨p, hp, rfl⟩ := List.mem_map.1 hf
    obtain ⟨name, -, -, -, hname, hget⟩ := exists_of_forall₂_right hps hp
    rw [hname, hget]

end Write

/-! ## Fieldsets that are read -/

/-- Elements with one tag are read as elements of the model under that name. -/
theorem modelChildren_of_same {domain : Option String} {tag : String}
    (ht : isPlainName tag = true) {e e' : Element} (h : ∀ c ∈ e.children, c.tag = tag)
    (same : SameElements domain e.children e'.children) : e'.modelChildren tag = e'.children := by
  unfold Element.modelChildren
  generalize e.children = es at h same
  generalize e'.children = es' at same
  induction es generalizing es' with
  | nil =>
    cases same
    rfl
  | cons c es ih =>
    cases same with
    | @cons _ c' _ es' model localName _ _ rest =>
      have hc := h c (.head _)
      obtain ⟨hmodel, hlocal⟩ := Element.isModelElement_of_plain (by rw [hc]; exact ht)
      rw [List.filter_cons_of_pos (by rw [model, localName, hmodel, hlocal, hc]; simp),
        ih (fun d hd => h d (.tail _ hd)) _ rest]

section Read

variable {s : Scope} (hs : s.resolve = resolve) (hr : s.registry = Registry.standard)
  {orders : NameMap Nat}

include hs hr

/-- The element of a fieldset is read as the fieldset, with its fields. -/
theorem exists_readFieldset {fields : NameMap Field} {set : Fieldset} (h : IsProper fields set)
    {fs : List Field} {e e' : Element}
    (he : IsFieldsetElement resolve domains set fs e)
    (attributes : ∀ name, name ≠ domainAttribute → e'.get? name = e.get? name)
    (content : SameContent s.domain e e') (schemaName : String) {parts : SchemaParts}
    (hnew : ∀ t ∈ parts.fieldsets, t.name ≠ set.name) (m : Nat) :
    ∃ n parts' gs, m ≤ n ∧ (readFieldset s schemaName orders parts e').Succeeds m n parts' ∧
      TakesFields orders parts m n fs parts' gs ∧ parts'.fieldsets = parts.fieldsets ++ [set] := by
  have hget (name : String) (hn : name ≠ domainAttribute) :
      e'.get? name = ((fieldsetAttributes set).find? (·.1 == name)).map (·.2) := by
    rw [attributes name hn, Element.get?, he.attributes]
  have hname : e'.get? "name" = some set.name := hget "name" (by decide)
  have hany : parts.fieldsets.any (·.name == set.name) = false := by simpa using hnew
  obtain ⟨-, -, -, same⟩ := content
  have htags : ∀ c ∈ e.children, c.tag = "field" := fun c hc => by
    obtain ⟨f, -, hf⟩ := exists_of_forall₂_right he.children hc
    exact hf.tag
  let added : SchemaParts :=
    { parts with fieldsets := parts.fieldsets ++ [{ set with fields := [] }] }
  obtain ⟨n, parts', gs, hmn, hreads, htakes, hsets⟩ := exists_takeFields hs hr
    (fun sets n => Schema.mergeFieldset { name := set.name, fields := [n] } sets) he.children
    same added m
  refine ⟨n, parts', gs, hmn, ?_, htakes.of_fieldsets, ?_⟩
  · unfold readFieldset
    rw [hname]
    simp only [hany, Bool.false_eq_true, if_false]
    refine (Reading.succeeds_liftM (newFieldset_written h hget) m).bind
      ((Reading.succeeds_pure added m).bind ?_)
    rw [modelChildren_of_same (by decide) htags same]
    exact hreads
  · rw [hsets, he.names]
    exact foldl_mergeFieldset hnew [] set.fields h.distinct

end Read

end ContentSchema.Document
