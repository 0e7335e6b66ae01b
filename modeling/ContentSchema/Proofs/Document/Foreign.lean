import ContentSchema.Document.ModelReader
import ContentSchema.Proofs.Document.Parts
import ContentSchema.Proofs.Markup.Foreign

/-!
# Documents with markup of other namespaces

Every reader gives for the model part of a tree, which is without the elements of other namespaces,
what it gives for the tree.

The fields of a schema are kept with their elements for handlers, and these differ. So what is read
of a schema is compared up to the elements (`SameRead`), by a relation on runs (`Reading.Alike`).

Result: reading without handlers gives the same model or the same fault, and the same progress, after
elements of other namespaces were put in (`read_enriched`).
-/
namespace ContentSchema.Document

open Markup (Element Enriched EnrichedAll qualified)

/-! ## Values -/

theorem isItem_modelPart (e : Element) : isItem e.modelPart = isItem e := by
  rw [isItem, isItem, Element.modelPart_isModelElement, Element.modelPart_localName]

theorem not_isItem_of_foreign {e : Element} (h : e.isModelElement = false) : isItem e = false := by
  rw [isItem, h, Bool.false_and]

mutual

/-- The value of an element is that of its model part. -/
theorem decode_modelPart (s : Surroundings) (validate : Bool) (f : Field) (e : Element) :
    decode s validate f e.modelPart = decode s validate f e := by
  obtain ⟨tag, attributes, children, text, line, namespaces⟩ := e
  rw [Element.modelPart, decode, decode, decodeItems_modelParts, decodeEntries_modelParts]
  rfl

theorem decodeItems_modelParts (s : Surroundings) (validate : Bool) (item : Field)
    (es : List Element) :
    decodeItems s validate item (Element.modelParts es) = decodeItems s validate item es := by
  match es with
  | [] => rfl
  | e :: es =>
    rw [Element.modelParts, decodeItems]
    by_cases hmodel : e.isModelElement = true
    · rw [if_pos hmodel, decodeItems, isItem_modelPart, decode_modelPart, decodeItems_modelParts]
    · rw [if_neg hmodel, decodeItems_modelParts,
        not_isItem_of_foreign (Bool.eq_false_iff.2 hmodel), if_neg Bool.false_ne_true]

theorem decodeEntries_modelParts (s : Surroundings) (validate : Bool) (key item : Field)
    (es : List Element) :
    decodeEntries s validate key item (Element.modelParts es) =
      decodeEntries s validate key item es := by
  match es with
  | [] => rfl
  | e :: es =>
    rw [Element.modelParts, decodeEntries]
    by_cases hmodel : e.isModelElement = true
    · rw [if_pos hmodel, decodeEntries, isItem_modelPart, Element.modelPart_get?, decode_modelPart,
        decodeEntries_modelParts]
    · rw [if_neg hmodel, decodeEntries_modelParts,
        not_isItem_of_foreign (Bool.eq_false_iff.2 hmodel), if_neg Bool.false_ne_true]

end

/-! ## Fields -/

section Fields

variable (s : Scope)

theorem readKeyedTerm_modelPart (e : Element) : readKeyedTerm s e.modelPart = readKeyedTerm s e := by
  rw [readKeyedTerm, readKeyedTerm, Element.modelPart_get?, decode_modelPart]

theorem readVocabulary_modelPart (e : Element) :
    readVocabulary s e.modelPart = readVocabulary s e := by
  unfold readVocabulary
  simp only [Element.modelChildren_modelPart, List.any_map, List.mapM_map, Function.comp_def,
    Element.modelPart_get?, Element.modelPart_line, Element.modelPart_text,
    readKeyedTerm_modelPart]

theorem dottedName_modelPart (e : Element) : dottedName e.modelPart = dottedName e := by
  rw [dottedName, dottedName, Element.modelPart_text]

theorem readAttribute_modelPart (f : Field) (spec : AttributeSpec) (e : Element) :
    readAttribute s f spec e.modelPart = readAttribute s f spec e := by
  unfold readAttribute
  simp only [dottedName_modelPart, readVocabulary_modelPart, decode_modelPart]

theorem nestedCodec_modelPart (spec : AttributeSpec) (e : Element) :
    nestedCodec s spec e.modelPart = nestedCodec s spec e := by
  unfold nestedCodec
  rw [Element.modelPart_get?]

theorem attributeOf?_modelPart (codec : FieldCodec) (e : Element) :
    attributeOf? codec e.modelPart = attributeOf? codec e := by
  rw [attributeOf?, attributeOf?, Element.modelPart_isModelElement, Element.modelPart_localName]

theorem attributeOf?_of_foreign {e : Element} (h : e.isModelElement = false) (codec : FieldCodec) :
    attributeOf? codec e = none := by
  rw [attributeOf?, h, Bool.false_and, if_neg Bool.false_ne_true]

theorem ownElements_modelParts (codec : FieldCodec) (es : List Element) :
    ownElements codec (Element.modelParts es) = (ownElements codec es).map Element.modelPart := by
  refine Element.filter_modelParts (fun e h => ?_) (fun e => ?_) es
  · by_contra hmodel
    rw [attributeOf?_of_foreign (Bool.eq_false_iff.2 hmodel)] at h
    cases h
  · rw [attributeOf?_modelPart]

theorem readOwnType_modelParts (codec : FieldCodec) (es : List Element) (f : Field)
    (name : String) :
    readOwnType s codec (Element.modelParts es) f name = readOwnType s codec es f name := by
  have hfind : (ownElements codec (Element.modelParts es)).find? (·.localName == name) =
      ((ownElements codec es).find? (·.localName == name)).map Element.modelPart := by
    rw [ownElements_modelParts, List.find?_map]
    simp only [Function.comp_def, Element.modelPart_localName]
  cases h : (ownElements codec es).find? (·.localName == name) with
  | none => rw [readOwnType_of_none h, readOwnType_of_none (by rw [hfind, h, Option.map_none])]
  | some e =>
    rw [readOwnType_of_some h, readOwnType_of_some (e := e.modelPart) (by rw [hfind, h]; rfl),
      Element.modelPart_line, decode_modelPart]

mutual

/-- The field of an element is that of its model part. -/
theorem readField_modelPart (codec : FieldCodec) (e : Element) :
    readField s codec e.modelPart = readField s codec e := by
  obtain ⟨tag, attributes, children, text, line, namespaces⟩ := e
  rw [readField_eq, readField_eq, Element.modelPart_get?, Element.modelPart_children]
  refine bind_congr fun n => ?_
  rw [readAttributes_modelParts _ _ children]
  refine bind_congr fun f => ?_
  rw [foldlM_congr fun name _ f => readOwnType_modelParts s codec children f name]

theorem readAttributes_modelParts (codec : FieldCodec) (f : Field) (es : List Element) :
    readAttributes s codec f (Element.modelParts es) = readAttributes s codec f es := by
  match es with
  | [] => rfl
  | e :: es =>
    rw [Element.modelParts, readAttributes]
    by_cases hmodel : e.isModelElement = true
    · rw [if_pos hmodel, readAttributes, attributeOf?_modelPart]
      simp only [Element.modelPart_line, nestedCodec_modelPart, readAttribute_modelPart,
        readField_modelPart _ e, readAttributes_modelParts _ _ es]
    · rw [if_neg hmodel, readAttributes_modelParts _ _ es,
        attributeOf?_of_foreign (Bool.eq_false_iff.2 hmodel)]

end

theorem readNamedField_modelPart (orders : NameMap Nat) (e : Element) :
    readNamedField s orders e.modelPart = readNamedField s orders e := by
  unfold readNamedField requireAttribute
  simp only [Element.modelPart_get?, Element.modelPart_localName, readField_modelPart]

end Fields

namespace Reading

variable {α β γ δ : Type}

/-- Whether two steps end alike from every progress: with results that are related or with one fault,
and with one progress. -/
def Alike (R : α → β → Prop) (x : Reading α) (y : Reading β) : Prop :=
  ∀ p, (∃ a b q, R a b ∧ x.start p = (.ok a, q) ∧ y.start p = (.ok b, q)) ∨
    ∃ fault q, x.start p = (.error fault, q) ∧ y.start p = (.error fault, q)

theorem alike_pure {R : α → β → Prop} {a : α} {b : β} (h : R a b) : Alike R (pure a) (pure b) :=
  fun p => .inl ⟨a, b, p, h, rfl, rfl⟩

theorem alike_refl (x : Reading α) : Alike Eq x x := by
  intro p
  cases hx : x.start p with
  | mk result q =>
    cases result with
    | ok a => exact .inl ⟨a, a, q, rfl, rfl, rfl⟩
    | error fault => exact .inr ⟨fault, q, rfl, rfl⟩

theorem alike_throw {R : α → β → Prop} (fault : Fault) : Alike R (throw fault) (throw fault) :=
  fun p => .inr ⟨fault, p, rfl, rfl⟩

theorem Alike.bind {R : α → β → Prop} {S : γ → δ → Prop} {x : Reading α} {y : Reading β}
    {f : α → Reading γ} {g : β → Reading δ} (h : Alike R x y)
    (hfg : ∀ a b, R a b → Alike S (f a) (g b)) : Alike S (x >>= f) (y >>= g) := by
  intro p
  rw [start_bind, start_bind]
  rcases h p with ⟨a, b, q, hab, hx, hy⟩ | ⟨fault, q, hx, hy⟩
  · rw [hx, hy]
    exact hfg a b hab q
  · rw [hx, hy]
    exact .inr ⟨fault, q, rfl, rfl⟩

theorem Alike.within {R : α → β → Prop} {x : Reading α} {y : Reading β} (h : Alike R x y)
    (line : Option Nat) : Alike R (Reading.within line x) (Reading.within line y) :=
  (alike_refl _).bind fun _ _ _ => h.bind fun _ _ hab => (alike_refl _).bind fun _ _ _ =>
    alike_pure hab

theorem Alike.foldlM {R : α → β → Prop} {f : α → γ → Reading α} {g : β → δ → Reading β}
    {cs : List γ} {ds : List δ}
    (h : List.Forall₂ (fun c d => ∀ a b, R a b → Alike R (f a c) (g b d)) cs ds) {a : α} {b : β}
    (hab : R a b) : Alike R (cs.foldlM f a) (ds.foldlM g b) := by
  induction h generalizing a b with
  | nil => exact alike_pure hab
  | cons hcd _ ih =>
    rw [List.foldlM_cons, List.foldlM_cons]
    exact (hcd a b hab).bind fun _ _ h => ih h

/-- Steps that end alike with equal results are the same. -/
theorem Alike.start_eq {x y : Reading α} (h : Alike Eq x y) (p : Progress) :
    x.start p = y.start p := by
  rcases h p with ⟨a, b, q, rfl, hx, hy⟩ | ⟨fault, q, hx, hy⟩
  · rw [hx, hy]
  · rw [hx, hy]

end Reading

/-! ## Schemas -/

/-- Whether the same was read of two schemas, the elements of the fields apart. -/
structure SameRead (parts parts' : SchemaParts) : Prop where
  /-- The fields. -/
  fields : parts.fields = parts'.fields
  /-- The fieldsets. -/
  fieldsets : parts.fieldsets = parts'.fieldsets
  /-- The invariants. -/
  invariants : parts.invariants = parts'.invariants

/-- Whether a policy decides the same for a root element and its model part. -/
structure Policy.IgnoresForeign (policy : Policy) : Prop where
  /-- The module. -/
  module : ∀ name root, policy.module name root.modelPart = policy.module name root
  /-- The bases. -/
  bases : ∀ name root, policy.bases name root.modelPart = policy.bases name root
  /-- The name. -/
  name : ∀ name root, policy.name name root.modelPart = policy.name name root

theorem Policy.ignoresForeign_default : Policy.default.IgnoresForeign :=
  ⟨fun _ _ => rfl, fun _ _ => rfl, fun _ _ => rfl⟩

section Schemas

variable {s : Scope} {parts parts' : SchemaParts}

theorem SameRead.addField (h : SameRead parts parts') (name : String) (f : Field)
    (e e' : Element) : SameRead (parts.addField name f e) (parts'.addField name f e') :=
  ⟨congrArg (·.insert name f) h.fields, h.fieldsets, h.invariants⟩

theorem newFieldset_modelPart (name : String) (e : Element) :
    newFieldset name e.modelPart = newFieldset name e := by
  simp only [newFieldset, readFieldsetOrder, Element.modelPart_get?]

theorem alike_takeField (h : SameRead parts parts') (orders : NameMap Nat)
    (grow : List Fieldset → String → List Fieldset) (e : Element) :
    Reading.Alike SameRead (takeField s orders grow parts e.modelPart)
      (takeField s orders grow parts' e) := by
  unfold takeField
  rw [Element.modelPart_line, readNamedField_modelPart]
  refine ((Reading.alike_refl _).bind fun f _ hf => Reading.alike_pure ?_).within _
  rw [← hf]
  have hadd := h.addField f.1 f.2 e.modelPart e
  exact ⟨hadd.fields, congrArg (grow · f.1) hadd.fieldsets, hadd.invariants⟩

theorem alike_readFieldset (h : SameRead parts parts') (schemaName : String)
    (orders : NameMap Nat) (e : Element) :
    Reading.Alike SameRead (readFieldset s schemaName orders parts e.modelPart)
      (readFieldset s schemaName orders parts' e) := by
  unfold readFieldset
  rw [Element.modelPart_get?, Element.modelChildren_modelPart]
  cases e.get? "name" with
  | none => exact Reading.alike_throw _
  | some name =>
    have hmembers {parts parts' : SchemaParts} (h : SameRead parts parts') :=
      Reading.Alike.foldlM (List.forall₂_map_left_iff.2 (List.forall₂_same.2
        fun c (_ : c ∈ e.modelChildren "field") _ _ h => alike_takeField (s := s) h orders
          (fun sets field => Schema.mergeFieldset { name, fields := [field] } sets) c)) h
    dsimp only
    rw [newFieldset_modelPart, h.fieldsets]
    split
    · exact hmembers h
    · refine (Reading.alike_refl _).bind fun f _ hf => ?_
      rw [← hf]
      exact hmembers ⟨h.fields, rfl, h.invariants⟩

theorem alike_readPart (h : SameRead parts parts') (schemaName : String) (orders : NameMap Nat)
    (e : Element) :
    Reading.Alike SameRead (readPart s schemaName orders parts e.modelPart)
      (readPart s schemaName orders parts' e) := by
  unfold readPart
  rw [Element.modelPart_isModelElement, Element.modelPart_line, Element.modelPart_localName,
    readNamedField_modelPart, dottedName_modelPart]
  split
  · exact Reading.alike_pure h
  · refine Reading.Alike.within ?_ _
    split
    · refine (Reading.alike_refl _).bind fun f _ hf => Reading.alike_pure ?_
      rw [← hf]
      exact h.addField ..
    · exact alike_readFieldset h _ _ _
    · refine (Reading.alike_refl _).bind fun i _ hi => Reading.alike_pure ?_
      rw [← hi]
      exact ⟨h.fields, h.fieldsets, congrArg (· ++ [i]) h.invariants⟩
    · exact Reading.alike_pure h

/-- Foreign elements among the parts of a schema are passed over. -/
theorem foldlM_readPart_filter (schemaName : String) (orders : NameMap Nat) (es : List Element) :
    es.foldlM (readPart s schemaName orders) parts =
      (es.filter (·.isModelElement)).foldlM (readPart s schemaName orders) parts := by
  rw [List.foldlM_filter]
  refine foldlM_congr (fun e _ parts => ?_) parts
  cases h : e.isModelElement with
  | true => rfl
  | false => rw [readPart, h]; rfl

theorem SameRead.toSchema (h : SameRead parts parts') {policy : Policy}
    (hp : policy.IgnoresForeign) (name : String) (root : Element) (bases : List Schema) :
    parts.toSchema policy name root.modelPart bases = parts'.toSchema policy name root bases := by
  simp only [SchemaParts.toSchema, hp.module, hp.bases, hp.name, h.fields, h.fieldsets,
    h.invariants]

theorem alike_readSchema {c : Context} (hs : c.schemaHandlers = []) (hf : c.fieldHandlers = [])
    {policy : Policy} (hp : policy.IgnoresForeign) (root e : Element) :
    Reading.Alike Eq (readSchema c s policy root.modelPart e.modelPart)
      (readSchema c s policy root e) := by
  unfold readSchema
  rw [Element.modelPart_get?, Element.modelPart_get?, Element.modelPart_children, hs, hf]
  refine (Reading.alike_refl _).bind fun bases _ hbases => ?_
  rw [← hbases, foldlM_readPart_filter _ _ e.children, Element.modelParts_eq]
  refine Reading.Alike.bind (R := SameRead) (Reading.Alike.foldlM ?_ ⟨rfl, rfl, rfl⟩)
    fun parts parts' h => ?_
  · exact List.forall₂_map_left_iff.2 (List.forall₂_same.2 fun c _ _ _ h => alike_readPart h _ _ _)
  · rw [h.toSchema hp]
    exact Reading.alike_refl _

end Schemas

/-! ## Models -/

/-- Without handlers the model of a root element is that of its model part. -/
theorem start_readRoot_modelPart {c : Context} (hs : c.schemaHandlers = [])
    (hf : c.fieldHandlers = []) {policy : Policy} (hp : policy.IgnoresForeign) (root : Element)
    (p : Progress) :
    (readRoot c policy root.modelPart).start p = (readRoot c policy root).start p := by
  refine Reading.Alike.start_eq ?_ p
  unfold readRoot
  rw [Element.modelPart_line, Element.modelPart_isModelElement, Element.modelPart_localName,
    Element.modelPart_get?, Element.modelChildren_modelPart]
  refine Reading.Alike.within ?_ _
  split
  · exact Reading.alike_throw _
  · refine Reading.Alike.foldlM ?_ rfl
    refine List.forall₂_map_left_iff.2 (List.forall₂_same.2 fun e _ model _ hmodel => ?_)
    rw [← hmodel, Element.modelPart_line]
    refine ((alike_readSchema hs hf hp root e).bind fun f _ hf => ?_).within _
    rw [← hf]
    exact Reading.alike_refl _

theorem start_readRoot_enriched {c : Context} (hs : c.schemaHandlers = [])
    (hf : c.fieldHandlers = []) {policy : Policy} (hp : policy.IgnoresForeign)
    {root root' : Element} (h : Enriched root root') (p : Progress) :
    (readRoot c policy root').start p = (readRoot c policy root).start p := by
  rw [← start_readRoot_modelPart hs hf hp root', h.modelPart_eq,
    start_readRoot_modelPart hs hf hp root]

/-- A document that is read is read from the tree of its elements. -/
theorem parse_eq_of_read {c : Context} {policy document : String} {p : Policy} {root : Element}
    (hp : c.policy policy = .ok p) (hroot : Element.read document = .ok root)
    (file : Option String) (first : Nat) :
    c.parse file policy document first =
      let (result, progress) := (readRoot c p root).start { nextNumber := first }
      (result.mapError fun cause => Diagnostic.locate ⟨cause, none⟩ file progress.line? document,
        progress.nextNumber) := by
  unfold Context.parse readModel
  rw [hp, hroot]
  rfl

/-- Foreign markup is inert: wherever elements of other namespaces are put into a tree, reading it
without handlers gives the same model, or the same fault in the element on the same line, and numbers
as many fields. So do the documents of the two trees. -/
theorem read_enriched {c : Context} (hs : c.schemaHandlers = []) (hf : c.fieldHandlers = [])
    {root root' : Element} (h : Enriched root root') :
    (∀ p, (readRoot c Policy.default root').start p = (readRoot c Policy.default root).start p) ∧
      ∀ (file : Option String) (policy document document' : String) (first : Nat),
        c.policy policy = .ok Policy.default →
        Element.read document = .ok root → Element.read document' = .ok root' →
        (c.parse file policy document' first).1.mapError (fun d => (d.cause, d.line?)) =
          (c.parse file policy document first).1.mapError fun d => (d.cause, d.line?) := by
  have hrun := start_readRoot_enriched hs hf Policy.ignoresForeign_default h
  refine ⟨hrun, fun file policy document document' first hp hroot hroot' => ?_⟩
  rw [parse_eq_of_read hp hroot, parse_eq_of_read hp hroot', hrun]
  obtain ⟨result, progress⟩ := (readRoot c Policy.default root).start { nextNumber := first }
  cases result with
  | ok model => rfl
  | error fault => rfl

/-- The tree of a document with a list of choices in a fieldset, and further elements everywhere inside
it. -/
def choicesTree (further : List Element) : Element :=
  let item : Element := { tag := itemTag, text := some "a", children := further }
  let terms : Element := { tag := "values", children := further ++ [item] }
  let items : Element :=
    { tag := "value_type", attributes := [("type", FieldType.choice.identifier)]
      children := further ++ [terms] }
  let value : Element := { tag := "default", children := further ++ [item] }
  let field : Element :=
    { tag := "field", attributes := [("name", "f"), ("type", FieldType.list.identifier)]
      line := some 4, children := further ++ [items, value] }
  let fieldset : Element :=
    { tag := "fieldset", attributes := [("name", "g")], line := some 3
      children := further ++ [field] }
  let schema : Element :=
    { tag := "schema", attributes := [("name", "s")], line := some 2
      children := further ++ [fieldset] }
  { tag := "model", line := some 1, children := further ++ [schema] }

/-- An element of another namespace with an element of the model inside. -/
def foreignField : Element :=
  { tag := qualified "field" "urn:other"
    children := [{ tag := "field", attributes := [("name", "h")] }] }

theorem enriched_choicesTree : Enriched (choicesTree []) (choicesTree [foreignField]) := by
  have hput {es es' : List Element} (h : EnrichedAll es es') :
      EnrichedAll es (foreignField :: es') := .insert (Element.isForeign_iff.2 (by decide)) h
  have hone {e e' : Element} (h : Enriched e e') : EnrichedAll [e] [foreignField, e'] :=
    hput (.keep h .nil)
  have hitem : Enriched { tag := itemTag, text := some "a" }
      { tag := itemTag, text := some "a", children := [foreignField] } := .node (hput .nil)
  refine .node (hone (.node (hone (.node (hone (.node (hput (.keep ?items (.keep ?value .nil)))))))))
  case items => exact .node (hone (.node (hone hitem)))
  case value => exact .node (hone hitem)

/-- A document with one schema behind further markup. -/
def schemaDocument (further : String) : String := "<model>" ++ further ++ "<schema/></model>"

/-- The tree of that document. -/
def schemaTree (further : List Element) : Element :=
  { tag := "model", line := some 1, children := further ++ [{ tag := "schema", line := some 1 }] }

/-- Markup in a namespace that it declares. -/
def noteMarkup : String := "<note xmlns=\"urn:other\"/>"

/-- The element of that markup. -/
def noteElement : Element :=
  { tag := qualified "note" "urn:other", line := some 1, namespaces := [(none, "urn:other")] }

theorem read_schemaDocument :
    (Element.read (schemaDocument "")).toOption = some (schemaTree []) ∧
      (Element.read (schemaDocument noteMarkup)).toOption = some (schemaTree [noteElement]) := by
  decide +kernel

theorem enriched_schemaTree : Enriched (schemaTree []) (schemaTree [noteElement]) :=
  .node (.insert (Element.isForeign_iff.2 (by decide)) (.keep (.node .nil) .nil))

/-- The list of choices is read the same with further elements everywhere, and so is a document with
further markup. -/
theorem read_enriched_choices :
    ((readRoot {} Policy.default (choicesTree [])).start {}).1.toOption.map Model.names =
        some ["s"] ∧
      Enriched (choicesTree []) (choicesTree [foreignField]) ∧
      (readRoot {} Policy.default (choicesTree [foreignField])).start {} =
        (readRoot {} Policy.default (choicesTree [])).start {} ∧
      ((Context.parse {} none "" (schemaDocument noteMarkup) 1).1.mapError fun d =>
          (d.cause, d.line?)) =
        (Context.parse {} none "" (schemaDocument "") 1).1.mapError fun d => (d.cause, d.line?) := by
  obtain ⟨hplain, hfurther⟩ := read_schemaDocument
  refine ⟨by decide +kernel, enriched_choicesTree,
    (read_enriched rfl rfl enriched_choicesTree).1 {}, ?_⟩
  exact (read_enriched rfl rfl enriched_schemaTree).2 none "" _ _ 1 rfl (of_toOption hplain)
    (of_toOption hfurther)

end ContentSchema.Document
