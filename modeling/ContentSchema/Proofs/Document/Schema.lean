import ContentSchema.Proofs.Document.Fieldset
import ContentSchema.Proofs.Text.Space

/-!
# Schemas read back

`Describable` says which schemas can be written. Such a schema has an element, and whatever has the
content of that element is read as a schema with the same bases, invariants and fieldsets, and with
fields that read back as they should (`RereadSchema`). The fields outside fieldsets have to stay in
their order, though a base has places for some of them (`StaysInOrder`). A `WellFormed` schema is one
of which no base knows a field.

Results: the element of such a schema (`exists_schemaElement`), what is read from it
(`exists_readSchema`), and that what is read is written by the same element if no bound is lost
(`schemaElement_of_reread`).
-/
namespace ContentSchema.Document

open Markup (Element isPlainName)

/-! ## Schemas that can be written -/

/-- A base that a document can name: it is found by its identifier, which is one word. -/
structure IsNamed (resolve : Resolver) (b : Schema) : Prop where
  /-- The root schema is no further base. -/
  notRoot : b.isRoot = false
  /-- The identifier is not empty. -/
  named : b.identifier ≠ ""
  /-- The identifier holds no white space. -/
  word : ∀ c ∈ b.identifier.toList, Text.isSpace c = false
  /-- The identifier stands for the base. -/
  resolved : resolve b.identifier = some (.schema b)

/-- The schemas that a document can describe. -/
structure Describable (resolve : Resolver) (s : Schema) : Prop where
  /-- The bases are such that a document can name, and the root schema. -/
  bases : ∃ parents, s.bases = parents ++ [Schema.root] ∧ ∀ b ∈ parents, IsNamed resolve b
  /-- The invariants are found by their identifiers. -/
  invariants : ∀ i ∈ s.invariants, Text.trim i.identifier = i.identifier ∧
    resolve i.identifier = some (.invariant i)
  /-- The fields are stored under their names. -/
  names : ∀ name f, s.fields.get? name = some f → f.name = name
  /-- The fields can be written. -/
  fields : ∀ name f, s.fields.get? name = some f →
    f.Everywhere (ExpressibleAttributes resolve properDomains)
  /-- The fieldsets have distinct names. -/
  fieldsetNames : (s.fieldsets.map (·.name)).Nodup
  /-- The fieldsets can be described. -/
  fieldsets : ∀ set ∈ s.fieldsets, IsProper s.fields set

/-- Whether the fields outside fieldsets stay in their order when they are read with numbers from
`first` on, and with the places that the bases have. -/
def StaysInOrder (first : Nat) (s : Schema) : Prop :=
  ((ungroupedFields s).map (·.name)).Pairwise (StaysBefore (inheritedOrders s.bases) first)

/-- The schemas that can be written, and override nothing. -/
structure WellFormed (resolve : Resolver) (s : Schema) : Prop extends Describable resolve s where
  /-- No base defines or inherits a field of the schema's own. -/
  unrelated : ∀ b ∈ s.bases, ∀ name f, s.fields.get? name = some f → b.get? name = none

/-- Whether a schema is what is read for another one. -/
structure RereadSchema (s s' : Schema) : Prop where
  /-- The bases are the same. -/
  bases : s'.bases = s.bases
  /-- The invariants are the same. -/
  invariants : s'.invariants = s.invariants
  /-- The fieldsets are the same. -/
  fieldsets : s'.fieldsets = s.fieldsets
  /-- The fields outside fieldsets have the same names in the same order. -/
  ungrouped : (ungroupedFields s').map (·.name) = (ungroupedFields s).map (·.name)
  /-- The fields are those that should be read, under the same names. -/
  fields (name : String) : Option.Rel Rereads (s.fields.get? name) (s'.fields.get? name)

theorem RereadSchema.names {s s' : Schema} (h : RereadSchema s s')
    (hs : ∀ name f, s.fields.get? name = some f → f.name = name) (name : String) (g : Field)
    (hg : s'.fields.get? name = some g) : g.name = name := by
  have hrel := h.fields name
  rw [hg] at hrel
  generalize hf : s.fields.get? name = f at hrel
  cases hrel with
  | some hfg => exact hfg.name.trans (hs name _ hf)

/-! ## Elements of schemas -/

/-- The element of an invariant. -/
def invariantElement (i : Invariant) : Element := { tag := "invariant", text := some i.identifier }

/-- The identifiers of the bases that a document names. -/
def baseNames (s : Schema) : List String := (s.bases.filter (!·.isRoot)).map (·.identifier)

/-- The attributes of the element of a schema under a name. -/
def schemaAttributes (name : String) (s : Schema) : List (String × String) :=
  optionalAttribute "name" (some name) ++
    (if (baseNames s).isEmpty then [] else [("based-on", " ".intercalate (baseNames s))])

/-- Whether elements are those of the fieldsets of a schema, with some of its fields inside. -/
def AreFieldsets (resolve : Resolver) (s : Schema) (ps : List (List Field × Element)) : Prop :=
  List.Forall₂ (fun set p => IsFieldsetElement resolve properDomains set p.1 p.2 ∧
    ∀ f ∈ p.1, s.fields.get? f.name = some f) s.fieldsets ps

/-- Whether an element is that of a schema under a name. -/
structure IsSchemaElement (resolve : Resolver) (name : String) (s : Schema) (e : Element) : Prop where
  /-- The tag. -/
  tag : e.tag = "schema"
  /-- The attributes. -/
  attributes : e.attributes = schemaAttributes name s
  /-- The elements inside are those of invariants, of fields, and of fieldsets. -/
  children : ∃ es ps, e.children = s.invariants.map invariantElement ++ es ++ ps.map (·.2) ∧
    List.Forall₂ (IsFieldElement resolve properDomains) (ungroupedFields s) es ∧
    AreFieldsets resolve s ps
  /-- The element can be written and read. -/
  regular : Regular properDomains e

section Write

variable {resolve : Resolver} {c : Context} (hc : IsStandard c) {s : Schema}
  (hs : Describable resolve s)

theorem keys_schemaAttributes (name : String) (s : Schema) :
    ((schemaAttributes name s).map (·.1)).Sublist ["name", "based-on"] := by
  have hname : ((optionalAttribute "name" (some name)).map (·.1)).Sublist ["name"] := by
    rcases keys_optionalAttribute "name" (some name) with h | h
    · rw [h]
      exact List.nil_sublist _
    · rw [h]
  have hbases : ((if (baseNames s).isEmpty then []
      else [("based-on", " ".intercalate (baseNames s))]).map (·.1)).Sublist ["based-on"] := by
    split
    · exact List.nil_sublist _
    · exact List.Sublist.refl _
  rw [schemaAttributes, List.map_append]
  exact hname.append hbases

theorem mem_ungroupedFields {s : Schema} {f : Field} :
    f ∈ ungroupedFields s ↔
      f ∈ s.fields.values ∧ ∀ set ∈ s.fieldsets, f.name ∉ set.fields := by
  unfold ungroupedFields Schema.fieldsInOrder Field.sortByOrder
  rw [List.mem_filter, List.mem_mergeSort]
  simp

/-- The fields outside fieldsets have distinct names. -/
theorem nodup_ungroupedFields {s : Schema}
    (h : ∀ name f, s.fields.get? name = some f → f.name = name) :
    ((ungroupedFields s).map (·.name)).Nodup := by
  have hkeys : s.fields.values.map (·.name) = s.fields.keys := by
    rw [NameMap.values, NameMap.keys, List.map_map]
    exact List.map_congr_left fun e he => h e.1 e.2 ((NameMap.mem_entries_iff _).1 he)
  have hvalues : (s.fields.values.map (·.name)).Nodup := by
    rw [hkeys]
    exact s.fields.nodup_keys
  have hsorted : (s.fieldsInOrder.map (·.name)).Nodup :=
    ((List.mergeSort_perm s.fields.values _).map _).nodup_iff.2 hvalues
  exact (List.filter_sublist.map _).nodup hsorted

include hc hs

/-- A well-formed schema has an element. -/
theorem exists_schemaElement (name : String) :
    ∃ e, schemaElement c name s = .ok e ∧ IsSchemaElement resolve name s e := by
  have hown (f : Field) (hf : f ∈ ungroupedFields s) : s.fields.get? f.name = some f :=
    Schema.get?_of_mem_values hs.names (mem_ungroupedFields.1 hf).1
  obtain ⟨es, hes, hfields⟩ :=
    exists_fieldElements hc (fun f hf => hs.fields f.name f (hown f hf)) s
  have hsets : ∀ set ∈ s.fieldsets, ∃ p : List Field × Element, fieldsetElement c s set = .ok p.2 ∧
      IsFieldsetElement resolve properDomains set p.1 p.2 ∧
        ∀ f ∈ p.1, s.fields.get? f.name = some f := fun set hset => by
    obtain ⟨fs, e, he⟩ := exists_fieldsetElement hc (hs.fieldsets set hset) hs.names hs.fields
    exact ⟨(fs, e), he⟩
  obtain ⟨ps, hps⟩ := exists_forall₂ hsets
  let e : Element :=
    { tag := "schema", attributes := schemaAttributes name s
      children := s.invariants.map invariantElement ++ es ++ ps.map (·.2) }
  refine ⟨e, ?_, rfl, rfl, ⟨es, ps, rfl, hfields, hps.imp fun _ _ h => h.2⟩, ?_⟩
  · unfold schemaElement
    rw [hes, mapM_of_forall₂ (List.forall₂_map_right_iff.2 (hps.imp fun _ _ h => h.1)),
      hc.schemaHandlers]
    rfl
  · have hsub := keys_schemaAttributes name s
    refine regular_unmarked (fun a ha => ?_) (hsub.nodup (by decide)) fun d hd => ?_
    · have hkeys : ∀ name ∈ ["name", "based-on"], name ∈ ["name", "type", keyAttribute, "based-on",
        "label", "description", "order"] := by decide
      exact hkeys _ (hsub.subset (List.mem_map_of_mem ha))
    · rcases List.mem_append.1 hd with hd | hd
      · rcases List.mem_append.1 hd with hd | hd
        · obtain ⟨i, -, rfl⟩ := List.mem_map.1 hd
          exact ⟨show isPlainName "invariant" = true by decide,
            regular_unmarked (by simp) (by simp) allRegular_nil⟩
        · exact allRegular_fields hfields d hd
      · obtain ⟨p, hp, rfl⟩ := List.mem_map.1 hd
        obtain ⟨set, -, -, hset, -⟩ := exists_of_forall₂_right hps hp
        exact ⟨by rw [hset.tag]; decide, hset.regular⟩

end Write

/-! ## Parts that are read -/

section Read

variable {resolve : Resolver} {s : Scope} (hs : s.resolve = resolve)
  (hr : s.registry = Registry.standard) {orders : NameMap Nat} (schemaName : String)

/-- The elements of fields are taken up, and no fieldset changes. -/
theorem readPart_field {domains : Set String} {fs : List Field} {es es' : List Element}
    (hes : List.Forall₂ (IsFieldElement resolve domains) fs es) {domain : Option String}
    (same : SameElements domain es es') (parts : SchemaParts) :
    es'.foldlM (readPart s schemaName orders) parts =
      es'.foldlM (takeField s orders fun sets _ => sets) parts := by
  refine foldlM_congr (fun e' he' parts => ?_) parts
  obtain ⟨hmodel, hlocal⟩ : e'.isModelElement = true ∧ e'.localName = "field" := by
    induction hes generalizing es' with
    | nil =>
      cases same
      cases he'
    | cons he _ ih =>
      cases same with
      | cons model localName _ _ rest =>
        rcases List.mem_cons.1 he' with rfl | he'
        · rw [model, localName, ← he.tag]
          exact Element.isModelElement_of_plain (by rw [he.tag]; decide)
        · exact ih rest he'
  unfold readPart
  rw [hmodel, hlocal]
  rfl

include hs

/-- The elements of invariants are read one by one. -/
theorem succeeds_readInvariants {is : List Invariant}
    (h : ∀ i ∈ is, Text.trim i.identifier = i.identifier ∧
      resolve i.identifier = some (.invariant i)) {es' : List Element}
    (same : SameElements s.domain (is.map invariantElement) es') (parts : SchemaParts) (m : Nat) :
    (es'.foldlM (readPart s schemaName orders) parts).Succeeds m m
      { parts with invariants := parts.invariants ++ is } := by
  induction is generalizing es' parts with
  | nil =>
    cases same
    rw [List.append_nil]
    exact Reading.succeeds_pure parts m
  | cons i is ih =>
    cases same with
    | @cons _ e' _ es' model localName _ content rest =>
      obtain ⟨htrim, hresolve⟩ := h i (.head _)
      obtain ⟨hmodel, hlocal⟩ :=
        Element.isModelElement_of_plain (e := invariantElement i)
          (show isPlainName "invariant" = true by decide)
      obtain ⟨-, -, htext, -⟩ := content
      have hname : dottedName e' = i.identifier := by
        rw [dottedName, htext rfl]
        exact htrim
      have hread : resolveInvariant s.resolve (dottedName e') = .ok i := by
        rw [resolveInvariant, Field.resolveName, hname, hs, hresolve]
        rfl
      have hrest := ih (fun j hj => h j (.tail _ hj)) rest
        { parts with invariants := parts.invariants ++ [i] }
      rw [List.append_assoc] at hrest
      rw [List.foldlM_cons]
      refine Reading.Succeeds.bind ?_ hrest
      unfold readPart
      rw [model, localName, hmodel, hlocal]
      exact Reading.Succeeds.within e'.line
        ((Reading.succeeds_liftM hread m).bind (Reading.succeeds_pure _ m))

include hr

/-- The elements of fieldsets are read one by one. -/
theorem exists_readFieldsets {fields : NameMap Field} {sets : List Fieldset}
    (h : ∀ set ∈ sets, IsProper fields set) (hd : (sets.map (·.name)).Nodup)
    {ps : List (List Field × Element)}
    (hps : List.Forall₂ (fun set p => IsFieldsetElement resolve properDomains set p.1 p.2 ∧
      ∀ f ∈ p.1, fields.get? f.name = some f) sets ps) {es' : List Element}
    (same : SameElements s.domain (ps.map (·.2)) es') {parts : SchemaParts}
    (hnew : ∀ t ∈ parts.fieldsets, t.name ∉ sets.map (·.name)) (m : Nat) :
    ∃ n parts' gs, m ≤ n ∧
      (es'.foldlM (readPart s schemaName orders) parts).Succeeds m n parts' ∧
      TakesFields orders parts m n (ps.flatMap (·.1)) parts' gs ∧
      parts'.fieldsets = parts.fieldsets ++ sets := by
  induction hps generalizing es' parts m with
  | nil =>
    cases same
    exact ⟨m, parts, [], m.le_refl, Reading.succeeds_pure parts m, takesFields_nil orders parts m,
      (List.append_nil _).symm⟩
  | @cons set p sets ps hset _ ih =>
    obtain ⟨hset, hown⟩ := hset
    obtain ⟨hname, hd⟩ := List.nodup_cons.1 hd
    cases same with
    | @cons _ e' _ es' model localName attributes content rest =>
      obtain ⟨k, parts₁, gs₁, hmk, hread, htakes, hsets⟩ :=
        exists_readFieldset hs hr (h set (.head _)) hset
          attributes content schemaName (fun t ht he => hnew t ht (by rw [he]; exact .head _)) m
      have hnext : ∀ t ∈ parts₁.fieldsets, t.name ∉ sets.map (·.name) := fun t ht => by
        rw [hsets] at ht
        rcases List.mem_append.1 ht with ht | ht
        · exact fun hmem => hnew t ht (.tail _ hmem)
        · cases List.mem_singleton.1 ht
          exact hname
      obtain ⟨n, parts₂, gs₂, hkn, hreads, hmore, hall⟩ :=
        ih (fun t ht => h t (.tail _ ht)) hd rest hnext k
      refine ⟨n, parts₂, gs₁ ++ gs₂, by omega, ?_, htakes.append hmk hkn hmore, ?_⟩
      · rw [List.foldlM_cons]
        refine Reading.Succeeds.bind ?_ hreads
        obtain ⟨hmodel, hlocal⟩ :=
          Element.isModelElement_of_plain (e := p.2) (by rw [hset.tag]; decide)
        unfold readPart
        rw [model, localName, hmodel, hlocal, hset.tag]
        exact hread.within e'.line
      · rw [hall, hsets, List.append_assoc]
        rfl

end Read

/-! ## The schema of the parts -/

/-- The place of a field is that of the last base that knows one of the name. -/
theorem get?_inheritedOrders (bases : List Schema) (name : String) :
    (inheritedOrders bases).get? name =
      (bases.reverse.findSome? (·.get? name)).map (·.order) := by
  have hbase (b : Schema) (orders : NameMap Nat) :
      (b.allFields.entries.foldl (fun orders e => orders.insert e.1 e.2.order) orders).get? name =
        ((b.get? name).map (·.order)).or (orders.get? name) := by
    have hfold := NameMap.get?_foldl_insert (b.allFields.entries.map fun e => (e.1, e.2.order))
      (by rw [List.map_map]; exact b.allFields.nodup_keys) orders name
    rw [List.foldl_map, List.find?_map, Option.map_map] at hfold
    have hall : (b.get? name).map (·.order) =
        (b.allFields.entries.find? (·.1 == name)).map (·.2.order) := by
      rw [← b.get?_allFields name, NameMap.get?, Option.map_map]
      rfl
    exact hfold.trans (by rw [hall]; rfl)
  have hbases (bases : List Schema) (orders : NameMap Nat) :
      (bases.foldl (fun orders b => b.allFields.entries.foldl
        (fun orders e => orders.insert e.1 e.2.order) orders) orders).get? name =
        ((bases.reverse.findSome? (·.get? name)).map (·.order)).or (orders.get? name) := by
    induction bases generalizing orders with
    | nil => rfl
    | cons b bases ih =>
      rw [List.foldl_cons, ih, hbase, List.reverse_cons, List.findSome?_append, Option.map_or,
        Option.or_assoc, List.findSome?_singleton]
  exact (hbases bases ∅).trans (Option.or_none)

theorem get?_root (name : String) : Schema.root.get? name = none := by
  rw [Schema.get?, Schema.resolutionOrder_of_no_bases rfl]
  rfl

/-- The root schema has no places for fields. -/
theorem inheritedOrders_root (bases : List Schema) :
    inheritedOrders (bases ++ [Schema.root]) = inheritedOrders bases := by
  have hempty : Schema.root.allFields.entries = [] := by
    rw [Schema.allFields, Schema.resolutionOrder_of_no_bases rfl]
    rfl
  rw [inheritedOrders, List.foldl_append, List.foldl_cons, List.foldl_nil, hempty]
  rfl

/-- A field that belongs to a schema. -/
def ownedBy (identifier : String) (f : Field) : Field := { f with interface := some identifier }

theorem Rereads.ownedBy {f g : Field} (h : Rereads f g) (identifier : String) :
    Rereads f (ownedBy identifier g) := by
  refine ⟨h.name, ?_⟩
  rw [← h.bare, Field.bare_eq, Field.bare_eq g]
  rfl

theorem foldl_insertField (s : Schema) (fs : List Field) :
    fs.foldl Schema.insertField s =
      { s with fields := insertFields s.fields (fs.map (ownedBy s.identifier)) } := by
  induction fs generalizing s with
  | nil => cases s; rfl
  | cons f fs ih =>
    rw [List.foldl_cons, ih]
    rfl

section Parts

variable (parts : SchemaParts) (policy : Policy) (name : String) (root : Element)
  (bases : List Schema)

theorem toSchema_eq :
    parts.toSchema policy name root bases =
      { name := policy.name name root
        module := policy.module name root
        bases := bases ++ policy.bases name root ++ [Schema.root]
        fields := insertFields ∅ (parts.fields.values.map
          (ownedBy (Schema.identifierOf (policy.module name root) (policy.name name root))))
        fieldsets := parts.fieldsets
        invariants := parts.invariants } :=
  foldl_insertField _ _

/-- The fields of the schema are those of the parts, which belong to it now. -/
theorem get?_toSchema (h : ∀ key f, parts.fields.get? key = some f → f.name = key) (key : String) :
    (parts.toSchema policy name root bases).fields.get? key =
      (parts.fields.get? key).map (ownedBy (parts.toSchema policy name root bases).identifier) := by
  have hvalues (key : String) (f : Field) (hf : parts.fields.get? key = some f) :
      f ∈ parts.fields.values ∧ f.name = key :=
    ⟨List.mem_map.2 ⟨(key, f), (NameMap.mem_entries_iff _).2 hf, rfl⟩, h key f hf⟩
  rw [toSchema_eq]
  generalize hid : Schema.identifierOf (policy.module name root) (policy.name name root) = identifier
  have hrel := rel_insertFields (R := fun f g => g = ownedBy identifier f)
    (List.forall₂_map_right_iff.2 (List.forall₂_same.2 fun _ _ => rfl))
    (fun f g (hg : g = ownedBy identifier f) => by rw [hg]; rfl)
    (fun f hf => Schema.get?_of_mem_values h hf) hvalues key
  simp only [Schema.identifier, hid]
  generalize parts.fields.get? key = found at hrel
  generalize (insertFields ∅ (parts.fields.values.map (ownedBy identifier))).get? key = g at hrel
  cases hrel with
  | some hg => rw [hg, Option.map_some]
  | none => rfl

end Parts

/-! ## What is read for a schema -/

section Reread

variable {resolve : Resolver} {s : Schema} (hs : Describable resolve s)
  {ps : List (List Field × Element)} (hps : AreFieldsets resolve s ps)

include hs hps

/-- The fields that are written are those of the schema's own. -/
theorem mem_writtenFields_iff (name : String) (f : Field) :
    s.fields.get? name = some f ↔
      f ∈ ungroupedFields s ++ ps.flatMap (·.1) ∧ f.name = name := by
  have hown {f : Field} (hf : f ∈ ungroupedFields s ++ ps.flatMap (·.1)) :
      s.fields.get? f.name = some f := by
    rcases List.mem_append.1 hf with hf | hf
    · exact Schema.get?_of_mem_values hs.names (mem_ungroupedFields.1 hf).1
    · obtain ⟨p, hp, hf⟩ := List.mem_flatMap.1 hf
      obtain ⟨set, -, -, hown⟩ := exists_of_forall₂_right hps hp
      exact hown f hf
  refine ⟨fun hget => ⟨?_, hs.names name f hget⟩, fun ⟨hf, hname⟩ => hname ▸ hown hf⟩
  have hname := hs.names name f hget
  by_cases hgrouped : ∃ set ∈ s.fieldsets, name ∈ set.fields
  · obtain ⟨set, hset, hmem⟩ := hgrouped
    obtain ⟨p, hp, hel, hown'⟩ := exists_of_forall₂_right hps.flip hset
    rw [← hel.names] at hmem
    obtain ⟨f', hf', hname'⟩ := List.mem_map.1 hmem
    have heq := hown' f' hf'
    rw [hname', hget] at heq
    cases heq
    exact List.mem_append_right _ (List.mem_flatMap.2 ⟨p, hp, hf'⟩)
  · refine List.mem_append_left _ (mem_ungroupedFields.2 ⟨?_, fun set hset hmem => ?_⟩)
    · exact List.mem_map.2 ⟨(name, f), (NameMap.mem_entries_iff _).2 hget, rfl⟩
    · exact hgrouped ⟨set, hset, hname ▸ hmem⟩

variable {orders : NameMap Nat} {parts₁ parts₂ parts₃ : SchemaParts} {m k n : Nat}
  {gs₁ gs₂ : List Field} (hmk : m ≤ k) (hkn : k ≤ n) (hempty : parts₁.fields = ∅)
  (h₁ : TakesFields orders parts₁ m k (ungroupedFields s) parts₂ gs₁)
  (h₂ : TakesFields orders parts₂ k n (ps.flatMap (·.1)) parts₃ gs₂)

include hmk hkn hempty h₁ h₂

theorem rel_parts (name : String) :
    Option.Rel Rereads (s.fields.get? name) (parts₃.fields.get? name) := by
  have htakes := h₁.append hmk hkn h₂
  rw [htakes.fields, hempty]
  exact rel_insertFields htakes.rereads (fun _ _ h => h.name)
    (fun f hf => (mem_writtenFields_iff hs hps _ f).2 ⟨hf, rfl⟩)
    (fun name f hf => (mem_writtenFields_iff hs hps name f).1 hf) name

/-- A field outside fieldsets is the only one with its name. -/
theorem get?_ungrouped {g : Field} (hg : g ∈ gs₁) : parts₃.fields.get? g.name = some g := by
  have hnames : gs₁.map (·.name) = (ungroupedFields s).map (·.name) :=
    (map_eq_of_forall₂ (h₁.rereads.imp fun _ _ h => h.name.symm)).symm
  have hnodup : (gs₁.map (·.name)).Nodup := hnames ▸ nodup_ungroupedFields hs.names
  have htakes := h₁.append hmk hkn h₂
  rw [htakes.fields, hempty]
  refine get?_insertFields_of_mem (List.mem_append_left _ hg) fun g' hg' hname => ?_
  rcases List.mem_append.1 hg' with hg' | hg'
  · exact List.inj_on_of_nodup_map hnodup hg' hg hname
  · obtain ⟨f, hf, hfg⟩ := exists_of_forall₂_right h₁.rereads hg
    obtain ⟨f', hf', hfg'⟩ := exists_of_forall₂_right h₂.rereads hg'
    obtain ⟨p, hp, hmem⟩ := List.mem_flatMap.1 hf'
    obtain ⟨set, hset, hel, -⟩ := exists_of_forall₂_right hps hp
    have hin : f'.name ∈ set.fields := hel.names ▸ List.mem_map_of_mem hmem
    rw [← hfg'.name, hname, hfg.name] at hin
    exact absurd hin ((mem_ungroupedFields.1 hf).2 set hset)

theorem mem_of_get?_ungrouped {name : String} {g : Field}
    (hg : parts₃.fields.get? name = some g) (hout : ∀ set ∈ s.fieldsets, name ∉ set.fields) :
    g ∈ gs₁ := by
  have hrel := rel_parts hs hps hmk hkn hempty h₁ h₂ name
  rw [hg] at hrel
  generalize hget : s.fields.get? name = found at hrel
  cases hrel with
  | @some f _ hfg =>
    have hname := hs.names name f hget
    have hf : f ∈ ungroupedFields s := mem_ungroupedFields.2
      ⟨List.mem_map.2 ⟨(name, f), (NameMap.mem_entries_iff _).2 hget, rfl⟩, hname ▸ hout⟩
    obtain ⟨g', hg', hfg'⟩ := exists_of_forall₂_right h₁.rereads.flip hf
    have hg'' := get?_ungrouped hs hps hmk hkn hempty h₁ h₂ hg'
    rw [hfg'.name, hname, hg] at hg''
    cases hg''
    exact hg'

/-- The fields outside fieldsets keep their order, which is now that of their places. -/
theorem ungroupedFields_toSchema
    (hstays : ((ungroupedFields s).map (·.name)).Pairwise (StaysBefore orders m)) (policy : Policy)
    (name : String) (root : Element) (bases : List Schema) (hsets : parts₃.fieldsets = s.fieldsets) :
    ungroupedFields (parts₃.toSchema policy name root bases) =
      gs₁.map (ownedBy (parts₃.toSchema policy name root bases).identifier) := by
  have hnames (key : String) (g : Field) (hg : parts₃.fields.get? key = some g) : g.name = key := by
    rw [(h₁.append hmk hkn h₂).fields, hempty] at hg
    exact (mem_of_get?_insertFields hg).2
  have hget := get?_toSchema parts₃ policy name root bases hnames
  have hsets' : (parts₃.toSchema policy name root bases).fieldsets = s.fieldsets := by
    rw [toSchema_eq, hsets]
  generalize parts₃.toSchema policy name root bases = s' at hget hsets'
  have hnames' (key : String) (g : Field) (hg : s'.fields.get? key = some g) : g.name = key := by
    rw [hget key] at hg
    obtain ⟨g', hg', rfl⟩ := Option.map_eq_some_iff.1 hg
    exact hnames key g' hg'
  have hmem (g : Field) :
      g ∈ ungroupedFields s' ↔ g ∈ gs₁.map (ownedBy s'.identifier) := by
    rw [mem_ungroupedFields, hsets']
    constructor
    · rintro ⟨hvalue, hout⟩
      have hfound := Schema.get?_of_mem_values hnames' hvalue
      rw [hget] at hfound
      obtain ⟨g', hg', hown⟩ := Option.map_eq_some_iff.1 hfound
      exact hown ▸ List.mem_map_of_mem
        (mem_of_get?_ungrouped hs hps hmk hkn hempty h₁ h₂ hg' hout)
    · rintro hg
      obtain ⟨g', hg', rfl⟩ := List.mem_map.1 hg
      have hfound := hget g'.name
      rw [get?_ungrouped hs hps hmk hkn hempty h₁ h₂ hg', Option.map_some] at hfound
      obtain ⟨f, hf, hfg⟩ := exists_of_forall₂_right h₁.rereads hg'
      refine ⟨List.mem_map.2 ⟨_, (NameMap.mem_entries_iff _).2 hfound, rfl⟩, fun set hset => ?_⟩
      have hout := (mem_ungroupedFields.1 hf).2 set hset
      rwa [← hfg.name] at hout
  refine Field.eq_of_precedes ((Schema.pairwise_fieldsInOrder hnames').filter _) ?_ hmem
  exact List.pairwise_map.2 (h₁.precedes hstays)

/-- What is read is the schema again. -/
theorem rereadSchema_toSchema
    (hstays : ((ungroupedFields s).map (·.name)).Pairwise (StaysBefore orders m)) {policy : Policy} {name : String} {root : Element}
    {bases : List Schema} (hbases : s.bases = bases ++ policy.bases name root ++ [Schema.root])
    (hinvariants : parts₁.invariants = s.invariants) (hsets : parts₃.fieldsets = s.fieldsets) :
    RereadSchema s (parts₃.toSchema policy name root bases) := by
  have htakes := h₁.append hmk hkn h₂
  have hungrouped := ungroupedFields_toSchema hs hps hmk hkn hempty h₁ h₂ hstays policy name root
    bases hsets
  have hnames (key : String) (g : Field) (hg : parts₃.fields.get? key = some g) : g.name = key := by
    rw [htakes.fields, hempty] at hg
    exact (mem_of_get?_insertFields hg).2
  have hget := get?_toSchema parts₃ policy name root bases hnames
  have heq := toSchema_eq parts₃ policy name root bases
  generalize parts₃.toSchema policy name root bases = s' at hungrouped hget heq
  refine ⟨by rw [heq, hbases], by rw [heq, htakes.invariants, hinvariants], by rw [heq, hsets], ?_, fun key => ?_⟩
  · rw [hungrouped, List.map_map]
    exact (map_eq_of_forall₂ (h₁.rereads.imp fun _ _ h => h.name.symm)).symm
  · have hrel := rel_parts hs hps hmk hkn hempty h₁ h₂ key
    rw [hget]
    generalize s.fields.get? key = f at hrel
    generalize parts₃.fields.get? key = g at hrel
    cases hrel with
    | some hfg => exact .some (hfg.ownedBy _)
    | none => exact .none

end Reread

/-! ## Schemas that override nothing -/

section Override

variable {resolve : Resolver} {s : Schema} (hs : WellFormed resolve s)

include hs

/-- Where nothing is overridden, all fields get numbers in their order. -/
theorem WellFormed.staysInOrder (first : Nat) : StaysInOrder first s := by
  have hnone : ∀ f ∈ ungroupedFields s, (inheritedOrders s.bases).get? f.name = none := fun f hf => by
    have hget := Schema.get?_of_mem_values hs.names (mem_ungroupedFields.1 hf).1
    rw [get?_inheritedOrders, List.findSome?_eq_none_iff.2 fun b hb =>
      hs.unrelated b (List.mem_reverse.1 hb) f.name f hget]
    rfl
  refine List.pairwise_map.2 (List.pairwise_of_forall_mem_list fun f hf g hg => ?_)
  unfold StaysBefore
  rw [hnone f hf, hnone g hg]
  trivial

end Override

theorem StaysInOrder.mono {first later : Nat} (hle : first ≤ later) {s : Schema}
    (h : StaysInOrder first s) : StaysInOrder later s := h.imp (StaysBefore.mono hle)

section Whole

variable {c : Context} (hc : IsStandard c) {s : Schema} (hs : Describable c.resolve s)

theorem find?_schemaAttributes (name : String) (s : Schema) (key : String) :
    ((schemaAttributes name s).find? (·.1 == key)).map (·.2) =
      (if "name" = key then (some name).filter (!·.isEmpty) else none).or
        (if "based-on" = key ∧ baseNames s ≠ [] then some (" ".intercalate (baseNames s))
        else none) := by
  have hbases : ((if (baseNames s).isEmpty then []
      else [("based-on", " ".intercalate (baseNames s))]).find? (·.1 == key)).map (·.2) =
        if "based-on" = key ∧ baseNames s ≠ [] then some (" ".intercalate (baseNames s))
        else none := by
    by_cases hk : "based-on" = key <;> by_cases hb : baseNames s = [] <;> simp [hk, hb]
  rw [schemaAttributes, List.find?_append, Option.map_or, find?_optionalAttribute, hbases]

theorem name_schemaAttributes (name : String) (s : Schema) :
    (((schemaAttributes name s).find? (·.1 == "name")).map (·.2)).getD "" = name := by
  rw [find?_schemaAttributes]
  by_cases hn : name = "" <;> simp [Option.filter, hn]

/-- The bases that a document can name stand in an attribute, the root schema apart. -/
theorem words_schemaAttributes {resolve : Resolver} (name : String) {s : Schema}
    (h : ∀ b ∈ s.bases, b.isRoot = false → IsNamed resolve b) :
    Text.words ((((schemaAttributes name s).find? (·.1 == "based-on")).map (·.2)).getD "") =
      baseNames s := by
  have hwords : ∀ w ∈ baseNames s, w ≠ "" ∧ ∀ d ∈ w.toList, Text.isSpace d = false := by
    intro w hw
    obtain ⟨b, hb, rfl⟩ := List.mem_map.1 hw
    obtain ⟨hmem, hroot⟩ := List.mem_filter.1 hb
    have hnamed := h b hmem (by simpa using hroot)
    exact ⟨hnamed.named, hnamed.word⟩
  rw [find?_schemaAttributes, if_neg (by decide), Option.none_or]
  by_cases hnone : baseNames s = []
  · rw [if_neg fun h => h.2 hnone, hnone]
    rfl
  · rw [if_pos ⟨rfl, hnone⟩]
    exact Text.words_intercalate hwords

include hs

/-- The bases of a schema that can be described are those that a document names. -/
theorem exists_parents : ∃ parents, s.bases = parents ++ [Schema.root] ∧
    baseNames s = parents.map (·.identifier) ∧ ∀ b ∈ parents, IsNamed c.resolve b := by
  obtain ⟨parents, hbases, hparents⟩ := hs.bases
  refine ⟨parents, hbases, ?_, hparents⟩
  have hroot : Schema.root.isRoot = true := by decide
  have hfilter : parents.filter (!·.isRoot) = parents :=
    List.filter_eq_self.2 fun b hb => by simp [(hparents b hb).notRoot]
  rw [baseNames, hbases, List.filter_append, hfilter,
    List.filter_cons_of_neg (by simp [hroot]), List.filter_nil, List.append_nil]

include hc

/-- What is inside the element of a schema is read as the fields and fieldsets of the schema. -/
theorem exists_readParts {name : String} {e : Element} (he : IsSchemaElement c.resolve name s e)
    {domain : Option String} {es' : List Element} (same : SameElements domain e.children es')
    (root : Element) {m : Nat} (hstays : StaysInOrder m s) {parents : List Schema}
    (hbases : s.bases = parents ++ [Schema.root]) :
    ∃ n parts, m ≤ n ∧ (es'.foldlM (readPart (c.scope domain) name (inheritedOrders parents))
        {}).Succeeds m n parts ∧
      RereadSchema s (parts.toSchema Policy.default name root parents) := by
  obtain ⟨es, ps, hchildren, hes, hps⟩ := he.children
  rw [StaysInOrder, hbases, inheritedOrders_root] at hstays
  rw [hchildren] at same
  obtain ⟨before, sets', hsplit, same, sameSets⟩ := same.append_left
  obtain ⟨is', fields', rfl, sameInvariants, sameFields⟩ := same.append_left
  have hr : (c.scope domain).registry = Registry.standard := hc.registry
  have hinvariants : (is'.foldlM (readPart (c.scope domain) name (inheritedOrders parents))
      {}).Succeeds m m { invariants := [] ++ s.invariants } :=
    succeeds_readInvariants rfl name hs.invariants sameInvariants {} m
  obtain ⟨k, parts₂, gs₁, hmk, hfields, h₁, hsets₂⟩ := exists_takeFields rfl hr (fun sets _ => sets)
    hes sameFields { invariants := [] ++ s.invariants } m
  have hnone : parts₂.fieldsets = [] := by
    rw [hsets₂]
    induction (ungroupedFields s).map (·.name) with
    | nil => rfl
    | cons _ _ ih => exact ih
  have hnew : ∀ t ∈ parts₂.fieldsets, t.name ∉ s.fieldsets.map (·.name) := by
    rw [hnone]
    exact List.forall_mem_nil _
  obtain ⟨n, parts₃, gs₂, hkn, hsets, h₂, hall⟩ := exists_readFieldsets rfl hr name hs.fieldsets
    hs.fieldsetNames hps sameSets hnew k
  refine ⟨n, parts₃, hmk.trans hkn, ?_, ?_⟩
  · rw [hsplit, List.foldlM_append, List.foldlM_append, bind_assoc]
    refine hinvariants.bind (Reading.Succeeds.bind ?_ hsets)
    rw [readPart_field name hes sameFields]
    exact hfields
  · exact rereadSchema_toSchema hs hps hmk hkn rfl h₁ h₂ hstays
      (hbases.trans (by rw [show Policy.default.bases name root = [] from rfl, List.append_nil]))
      rfl (by rw [hall, hnone, List.nil_append])

/-- The element of a schema is read as the schema, under its name. -/
theorem exists_readSchema {name : String} {e e' : Element}
    (he : IsSchemaElement c.resolve name s e) {domain : Option String}
    (same : HoldsSame domain e e') (root : Element) {m : Nat} (hstays : StaysInOrder m s) :
    ∃ n s', m ≤ n ∧
      (readSchema c (c.scope domain) Policy.default root e').Succeeds m n (name, s') ∧
      RereadSchema s s' := by
  obtain ⟨-, -, attributes, -, -, -, sameChildren⟩ := same
  obtain ⟨parents, hbases, hnames, hparents⟩ := exists_parents hs
  have hget (key : String) (hk : key ≠ domainAttribute) :
      e'.get? key = ((schemaAttributes name s).find? (·.1 == key)).map (·.2) := by
    rw [attributes key hk, Element.get?, he.attributes]
  have hname : (e'.get? "name").getD "" = name := by
    rw [hget "name" (by decide), name_schemaAttributes]
  have hwords : Text.words ((e'.get? "based-on").getD "") = baseNames s := by
    rw [hget "based-on" (by decide)]
    have hnamed : ∀ b ∈ s.bases, b.isRoot = false → IsNamed c.resolve b := fun b hb hroot => by
      rw [hbases] at hb
      rcases List.mem_append.1 hb with hb | hb
      · exact hparents b hb
      · rw [List.mem_singleton.1 hb] at hroot
        exact absurd hroot (by decide)
    exact words_schemaAttributes name hnamed
  have hresolve : List.Forall₂
      (fun identifier b => (Reading.ofExcept (resolveSchema (c.scope domain).resolve
        identifier)).Succeeds m m b) (baseNames s) parents := by
    rw [hnames, List.forall₂_map_left_iff]
    refine List.forall₂_same.2 fun b hb => Reading.succeeds_ofExcept ?_ m
    have hresolved : (c.scope domain).resolve b.identifier = some (.schema b) :=
      (hparents b hb).resolved
    rw [resolveSchema, Field.resolveName, hresolved]
    rfl
  obtain ⟨n, parts, hmn, hread, hreread⟩ := exists_readParts hc hs he sameChildren root hstays hbases
  refine ⟨n, _, hmn, ?_, hreread⟩
  unfold readSchema
  rw [hname, hwords, hc.fieldHandlers, hc.schemaHandlers]
  exact (Reading.succeeds_mapM hresolve).bind (hread.bind (Reading.succeeds_pure _ n))

end Whole

/-! ## Writing again -/

section Again

variable {c : Context} (hc : IsStandard c) {s s' : Schema}

include hc

theorem fieldElement_of_reread {f g : Field} (h : Rereads f g) (hb : f.Everywhere Field.BoundsDiffer)
    (schema schema' : Schema) : Agrees (fieldElement c schema f) (fieldElement c schema' g) := by
  have hkept : g.kept = f.kept := by
    rw [h.kept, (Field.reread_eq_kept_iff f).2 hb]
  unfold fieldElement
  rw [hc.registry, hc.fieldHandlers, typeIdentifier_of_unbounded (Field.unbounded_of_kept hkept), h.name]
  split
  · exact nofun
  · rename_i codec hcodec
    obtain ⟨t, -, rfl⟩ := Registry.of_get?_standard hcodec
    exact (writeField_of_kept hkept t (some f.name) "field").bind fun _ => .refl _

variable (hs : Describable c.resolve s) (h : RereadSchema s s')
  (hb : ∀ name f, s.fields.get? name = some f → f.Everywhere Field.BoundsDiffer)

include hs h hb

/-- A schema that was read for another one has the same element, if no bound was lost. -/
theorem schemaElement_of_reread (name : String) :
    Agrees (schemaElement c name s) (schemaElement c name s') := by
  have hfield {name : String} {f g : Field} (hf : s.fields.get? name = some f)
      (hg : s'.fields.get? name = some g) : Agrees (fieldElement c s f) (fieldElement c s' g) := by
    have hrel := h.fields name
    rw [hf, hg] at hrel
    cases hrel with
    | some hfg => exact fieldElement_of_reread hc hfg (hb name f hf) s s'
  have hungrouped : List.Forall₂ (fun f g => Agrees (fieldElement c s f) (fieldElement c s' g))
      (ungroupedFields s) (ungroupedFields s') := by
    refine forall₂_of_map_eq h.ungrouped.symm fun f hf g hg hfg => ?_
    have hf' := Schema.get?_of_mem_values hs.names (mem_ungroupedFields.1 hf).1
    have hg' := Schema.get?_of_mem_values (h.names hs.names) (mem_ungroupedFields.1 hg).1
    exact hfield hf' (by rw [hfg]; exact hg')
  have hsets : ∀ set ∈ s.fieldsets, Agrees (fieldsetElement c s set) (fieldsetElement c s' set) := by
    intro set hset
    unfold fieldsetElement
    refine Agrees.bind (Agrees.mapM fun name hname => ?_) fun _ => .refl _
    obtain ⟨f, hf⟩ := (hs.fieldsets set hset).members name hname
    have hrel := h.fields name
    rw [hf] at hrel
    generalize hg : s'.fields.get? name = g at hrel
    cases hrel with
    | some hfg =>
      rw [Schema.require, Schema.require, Schema.get?_own hf, Schema.get?_own hg]
      exact hfield hf hg
  unfold schemaElement
  rw [h.bases, h.invariants, h.fieldsets, hc.schemaHandlers]
  exact (Agrees.mapM_forall₂ hungrouped).bind fun _ => (Agrees.mapM hsets).bind fun _ => .refl _

end Again

end ContentSchema.Document
