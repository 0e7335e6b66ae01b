import ContentSchema.Proofs.Document.Handlers
import ContentSchema.Proofs.Document.Model
import ContentSchema.Proofs.Document.WordedField

/-!
# Models with markup of further namespaces

A context writes names that are read back if those of attributes are plain and its handlers only add
markup of further namespaces (`Context.WritesPlainly`). Then the element of a schema is one of the model
with this markup (`exists_adorned`), and it names the schema and its bases.

Result: when a model is written and read again, each schema is read from the element that was written
for it (`Context.WritesPlainly.exists_reread`).
-/
namespace ContentSchema.Document

open Markup (Element WellNamed isPlainName)

/-- Whether documents are written with names that are read back. -/
structure Context.WritesPlainly (c : Context) : Prop where
  /-- The codecs have plain names for attributes. -/
  registry : c.registry.NamesPlainly
  /-- Handlers write markup of further namespaces. -/
  handlers : HandlersAdorn c

/-! ## Elements that are written -/

section Written

variable {c : Context} (hc : Context.WritesPlainly c) {s : Schema} {name : String} {e : Element}

include hc

/-- The element of a field is what its codec writes, with markup of further namespaces. -/
theorem exists_writeField {f : Field} {d : Element} (h : fieldElement c s f = .ok d) :
    WellNamed d ∧ (d.isModelElement = true ∧ d.localName = "field") ∧
      ∃ codec e, c.registry.get? f.typeIdentifier = some codec ∧
        writeField c.registry f codec (some f.name) "field" = .ok e ∧ Adorns e d := by
  unfold fieldElement at h
  split at h
  · cases h
  · rename_i codec hcodec
    obtain ⟨e, hwrite, hfold⟩ := exists_of_bind h
    have hadorns := adorns_of_foldlM
      (fun handler hmem => hc.handlers.fieldWrite handler hmem s f) hfold
    have hnamed := (writable_writeField hc.registry (hc.registry _ _ hcodec) (by decide)
      hwrite).wellNamed
    exact ⟨hadorns.wellNamed hnamed,
      model_of_plain (hadorns.tag.trans (isWritten_of_writeField hwrite).tag) (by decide), codec, e,
      hcodec, hwrite, hadorns⟩

/-- The element of a fieldset holds an element for each member. -/
theorem exists_members {set : Fieldset} {d : Element} (h : fieldsetElement c s set = .ok d) :
    WellNamed d ∧ d.isModelElement = true ∧ d.localName = "fieldset" ∧
      List.Forall₂ (fun name d => ∃ f, s.get? name = some f ∧ fieldElement c s f = .ok d) set.fields
        d.children := by
  unfold fieldsetElement at h
  obtain ⟨members, hmembers, h⟩ := exists_of_bind h
  cases h
  have hall : List.Forall₂ (fun name d => ∃ f, s.get? name = some f ∧ fieldElement c s f = .ok d)
      set.fields members := (forall₂_of_mapM hmembers).imp fun name d hd => by
    obtain ⟨f, hrequire, hd⟩ := exists_of_bind hd
    have hrequire := of_mapError hrequire
    unfold Schema.require at hrequire
    split at hrequire
    · cases hrequire
      exact ⟨_, by assumption, hd⟩
    · cases hrequire
  obtain ⟨hnames, hdistinct⟩ := attributes_fieldset set
  have htag : isPlainName "fieldset" = true := by decide
  refine ⟨.intro (show isPlainName (Markup.localName "fieldset") = true by decide)
    (fun a ha => (hnames a ha).plain) hdistinct rfl fun d hd => ?_, (model_of_plain rfl htag).1,
    (model_of_plain rfl htag).2, hall⟩
  obtain ⟨name, -, f, -, hf⟩ := exists_of_forall₂_right hall hd
  exact (exists_writeField hc hf).1

/-- The element of a schema: what handlers added goes with the elements of invariants, of fields, and
of fieldsets. -/
theorem exists_adorned {name : String} {e : Element} (h : schemaElement c name s = .ok e) :
    ∃ fields sets, List.Forall₂ (fun f d => fieldElement c s f = .ok d) (ungroupedFields s) fields ∧
      List.Forall₂ (fun set d => fieldsetElement c s set = .ok d) s.fieldsets sets ∧
      Adorns { tag := "schema", attributes := schemaAttributes name s,
               children := s.invariants.map invariantElement ++ fields ++ sets } e := by
  unfold schemaElement at h
  obtain ⟨fields, hfields, h⟩ := exists_of_bind h
  obtain ⟨sets, hsets, h⟩ := exists_of_bind h
  exact ⟨fields, sets, forall₂_of_mapM hfields, forall₂_of_mapM hsets,
    adorns_of_foldlM (fun handler hmem => hc.handlers.schemaWrite handler hmem s) h⟩

theorem Context.WritesPlainly.get?_name (h : schemaElement c name s = .ok e) :
    (e.get? "name").getD "" = name := by
  obtain ⟨fields, sets, -, -, hadorns⟩ := exists_adorned hc h
  rw [hadorns.attributes "name" (by decide)]
  exact name_schemaAttributes name s

/-- The bases that a document can name are found again. -/
theorem Context.WritesPlainly.words_basedOn (h : schemaElement c name s = .ok e)
    (hs : ∀ b ∈ s.bases, b.isRoot = false → IsNamed c.resolve b) :
    Text.words ((e.get? "based-on").getD "") = baseNames s := by
  obtain ⟨fields, sets, -, -, hadorns⟩ := exists_adorned hc h
  rw [hadorns.attributes "based-on" (by decide)]
  exact words_schemaAttributes name hs

theorem Context.WritesPlainly.wellNamed (h : schemaElement c name s = .ok e) :
    WellNamed e ∧ e.isModelElement = true ∧ e.localName = "schema" := by
  obtain ⟨fields, sets, hfields, hsets, hadorns⟩ := exists_adorned hc h
  obtain ⟨hnames, hdistinct⟩ := attributes_schema name s
  have hmodel := model_of_plain hadorns.tag (show isPlainName "schema" = true by decide)
  refine ⟨hadorns.wellNamed (.intro (show isPlainName (Markup.localName "schema") = true by decide)
    (fun a ha => (hnames a ha).plain) hdistinct rfl fun d hd => ?_), hmodel⟩
  rcases List.mem_append.1 hd with hd | hd
  · rcases List.mem_append.1 hd with hd | hd
    · obtain ⟨i, -, rfl⟩ := List.mem_map.1 hd
      exact (writable_of_children (show isPlainName "invariant" = true by decide)
        (List.forall_mem_nil _)).wellNamed
    · obtain ⟨f, -, hf⟩ := exists_of_forall₂_right hfields hd
      exact (exists_writeField hc hf).1
  · obtain ⟨set, -, hset⟩ := exists_of_forall₂_right hsets hd
    exact (exists_members hc hset).1

end Written

/-! ## Models that are read again -/

/-- Schemas whose elements have distinct names stand in the model in the order of the elements. -/
theorem entries_of_readRoot {c : Context} {policy : Policy} {root : Element} {m : Model} {first n : Nat}
    (h : (readRoot c policy root).Yields first n m)
    (hnames : ((root.modelChildren "schema").map fun e => (e.get? "name").getD "").Nodup) :
    List.Forall₂ (fun e entry => ∃ i j,
      (readSchema c (c.scope (root.get? domainAttribute)) policy root e).Yields i j entry)
      (root.modelChildren "schema") m.entries := by
  let s := c.scope (root.get? domainAttribute)
  let nameOf (e : Element) : String := (e.get? "name").getD ""
  have hall := h.schemas.foldlM_before (P := fun before _ model => (before.map nameOf).Nodup →
    before.map nameOf = model.entries.map (·.1) ∧ List.Forall₂ (fun e entry => ∃ i j,
      (readSchema c s policy root e).Yields i j entry) before model.entries)
    (fun before e _ model i j model' hbefore hstep hdistinct => ?_) [] fun _ => ⟨rfl, .nil⟩
  · exact (hall hnames).2
  rw [List.map_append] at hdistinct ⊢
  obtain ⟨hsame, hentries⟩ := hbefore (List.Nodup.of_append_left hdistinct)
  obtain ⟨k, ⟨name, schema⟩, hschema, hlast⟩ := hstep.of_within.bind
  obtain ⟨-, rfl⟩ := Reading.yields_pure hlast
  obtain ⟨hname, -⟩ := exists_parts_of_yields hschema
  have hnew : name ∉ model.entries.map (·.1) := fun hmem =>
    List.disjoint_of_nodup_append hdistinct (hsame ▸ hmem) (by rw [hname]; exact .head _)
  have hinsert : (model.insert name schema).entries = model.entries ++ [(name, schema)] :=
    Model.insertEntry_new hnew
  rw [hinsert, List.map_append, hsame]
  exact ⟨by rw [List.map_singleton, List.map_singleton, hname],
    List.rel_append hentries (.cons ⟨i, k, hschema⟩ .nil)⟩

/-- When a model is written and read again, each schema is read under its name from the element that
was written for it, in a document that names the first message domain. -/
theorem Context.WritesPlainly.exists_reread {c : Context} (hc : Context.WritesPlainly c)
    {m m' : Model} {pretty : Bool} {text : String} (hwrite : c.write pretty m = .ok text)
    {file : Option String} {policyName : String} {first n : Nat}
    (hparse : c.parse file policyName text first = (.ok m', n)) :
    ∃ policy root es, c.policy policyName = .ok policy ∧ Element.read text = .ok root ∧
      m.entries.mapM (fun s => schemaElement c s.1 s.2) = .ok es ∧
      List.Forall₂ (fun s s' => ∃ e e' i j, schemaElement c s.1 s.2 = .ok e ∧
        Restored (firstDomainOf es) e e' ∧
        (readSchema c (c.scope (documentDomain es)) policy root e').Yields i j s')
        m.entries m'.entries := by
  obtain ⟨es, hes, hwritten⟩ := exists_root_of_write_announced hc.handlers.prefixes hwrite
  have helements := forall₂_of_mapM hes
  obtain ⟨root, hread, hdomain, hrestored⟩ := hwritten fun e he => by
    obtain ⟨entry, -, hentry⟩ := exists_of_forall₂_right helements he
    exact (hc.wellNamed hentry).1
  obtain ⟨policy, root', hpolicy, hread', hyields⟩ := exists_root_of_parse hparse
  cases hread.symm.trans hread'
  have hboth := forall₂_comp helements hrestored
  have hschemas : root.modelChildren "schema" = root.children := by
    refine List.filter_eq_self.2 fun e' he' => ?_
    obtain ⟨entry, -, e, hentry, he⟩ := exists_of_forall₂_right hboth he'
    obtain ⟨-, hmodel, hlocal⟩ := hc.wellNamed hentry
    rw [he.model, he.localName, hmodel, hlocal]
    rfl
  have hnames : root.children.map (fun e => (e.get? "name").getD "") = m.entries.map (·.1) := by
    refine (map_eq_of_forall₂ (hboth.imp fun entry e' ⟨e, hentry, he⟩ => ?_)).symm
    rw [he.get? (by decide), hc.get?_name hentry]
  have hentries := entries_of_readRoot hyields (by rw [hschemas, hnames]; exact m.distinct)
  rw [hschemas, hdomain] at hentries
  exact ⟨policy, root, es, hpolicy, hread, hes, (forall₂_comp hboth hentries).imp
    fun entry entry' ⟨e', ⟨e, hentry, he⟩, i, j, hschema⟩ => ⟨e, e', i, j, hentry, he, hschema⟩⟩

end ContentSchema.Document
