import ContentSchema.Document.PrimaryField
import ContentSchema.Proofs.Document.FirstDomain
import ContentSchema.Proofs.Document.SchemaReader
import ContentSchema.Proofs.Document.Wording

/-!
# Handlers of further markup

The root of a document declares the prefixes that handlers announce (`rootNamespaces`). Where these can
be declared, a document is read back whatever handlers added to it, as long as names are plain
(`exists_root_of_write_announced`).

A handler does not touch the texts for users if it writes markup of further namespaces only (`Adorns`)
and changes other things in schemas (`KeepsWording`). The handler of primary fields is one of these
(`leavesWording_primaryField`).
-/
namespace ContentSchema.Document

open Markup (Declarations Element WellNamed i18nNamespace i18nPrefix isPlainName localName
  modelNamespace namespaceOf? xmlNamespace xmlnsNamespace)

/-! ## Declarations -/

theorem setPair_new {κ : Type} [BEq κ] [LawfulBEq κ] {k : κ} {ps : List (κ × String)}
    (h : k ∉ ps.map (·.1)) (v : String) : Element.setPair k v ps = ps ++ [(k, v)] := by
  induction ps with
  | nil => rfl
  | cons p ps ih =>
    rw [List.map_cons, List.mem_cons, not_or] at h
    have hne : ¬ (p.1 == k) = true := fun he => h.1 (eq_of_beq he).symm
    rw [Element.setPair, if_neg hne, ih h.2]
    rfl

/-- The namespaces that the root of a document declares: that of the attributes of messages, those that
handlers announce, and that of models as the default one. -/
def rootNamespaces (c : Context) : Declarations :=
  (some i18nPrefix, i18nNamespace) ::
    ((announcedPrefixes c).entries.map (fun p => (some p.1, p.2)) ++ [(none, modelNamespace)])

/-- What a prefix stands for was announced with it, and the prefix is not that of the attributes of
messages. -/
theorem announced_of_get? {c : Context} {p uri : String} (h : (announcedPrefixes c).get? p = some uri) :
    p ≠ i18nPrefix ∧ (some p, some uri) ∈ c.schemaHandlers.map (fun h => (h.xmlPrefix, h.uri)) ++
      c.fieldHandlers.map fun h => (h.xmlPrefix, h.uri) := by
  unfold announcedPrefixes at h
  dsimp only at h
  generalize c.schemaHandlers.map (fun h => (h.xmlPrefix, h.uri)) ++
    c.fieldHandlers.map (fun h => (h.xmlPrefix, h.uri)) = announced at h ⊢
  induction announced using List.reverseRecOn with
  | nil => cases h
  | append_singleton announced a ih =>
    rw [List.foldl_append, List.foldl_cons, List.foldl_nil] at h
    have hbefore (h) := And.imp_right (List.mem_append_left [a]) (ih h)
    split at h
    · split at h
      · exact hbefore h
      · rename_i q uri' hq
        rw [NameMap.get?_insert] at h
        split at h
        · rename_i heq
          cases heq
          cases h
          exact ⟨fun he => hq (beq_iff_eq.2 he), List.mem_append_right _ (.head _)⟩
        · exact hbefore h
    · exact hbefore h

theorem map_fst_rootNamespaces (c : Context) : (rootNamespaces c).map (·.1) =
    some i18nPrefix :: (announcedPrefixes c).entries.map (fun p => some p.1) ++ [none] := by
  rw [rootNamespaces, List.map_cons, List.map_append, List.map_map]
  rfl

theorem nodup_rootNamespaces (c : Context) : ((rootNamespaces c).map (·.1)).Nodup := by
  have hnew : some i18nPrefix ∉ (announcedPrefixes c).entries.map fun p => some p.1 := fun hmem => by
    obtain ⟨⟨p, uri⟩, hentry, heq⟩ := List.mem_map.1 hmem
    cases heq
    exact (announced_of_get? ((NameMap.mem_entries_iff _).1 hentry)).1 rfl
  have hnodup : ((announcedPrefixes c).entries.map fun p => some p.1).Nodup := by
    have hkeys := (announcedPrefixes c).nodup_keys.map fun _ _ h => Option.some.inj h
    rwa [List.map_map] at hkeys
  rw [map_fst_rootNamespaces, ← List.concat_eq_append]
  refine (List.nodup_cons.2 ⟨hnew, hnodup⟩).concat fun hmem => ?_
  rcases List.mem_cons.1 hmem with h | h
  · cases h
  · obtain ⟨_, -, h⟩ := List.mem_map.1 h
    cases h

/-- Prefixes that are declared one after the other stand in that order. -/
theorem declare_entries {ps : List (String × String)} {e : Element}
    (h : (e.namespaces.map (·.1) ++ ps.map fun p => some p.1).Nodup) :
    ps.foldl (fun e p => e.declare (some p.1) p.2) e =
      { e with namespaces := e.namespaces ++ ps.map fun p => (some p.1, p.2) } := by
  induction ps generalizing e with
  | nil =>
    cases e
    simp
  | cons p ps ih =>
    have hnew : some p.1 ∉ e.namespaces.map (·.1) := fun hmem =>
      List.disjoint_of_nodup_append h hmem (.head _)
    have hdeclare : e.declare (some p.1) p.2 =
        { e with namespaces := e.namespaces ++ [(some p.1, p.2)] } := by
      rw [Element.declare, setPair_new hnew]
    rw [List.foldl_cons, hdeclare, ih (by simpa using h)]
    simp

/-- The root element of a document, with handlers or without. -/
theorem modelElement_eq_announced (c : Context) (schemas : List (String × Schema)) :
    modelElement c schemas = (do
      let children ← schemas.mapM fun s => schemaElement c s.1 s.2
      return hoistDomain { tag := "model", namespaces := rootNamespaces c, children }) := by
  have hnodup := nodup_rootNamespaces c
  rw [map_fst_rootNamespaces] at hnodup
  let first : Element := { tag := "model", namespaces := [(some i18nPrefix, i18nNamespace)] }
  have hentries := declare_entries (e := first) (List.Nodup.of_append_left hnodup)
  have hlast : none ∉ (first.namespaces ++ (announcedPrefixes c).entries.map fun p =>
      (some p.1, p.2)).map (·.1) := fun hmem => by
    refine List.disjoint_of_nodup_append hnodup (a := none) ?_ (.head _)
    rw [List.map_append, List.map_map] at hmem
    exact hmem
  have hroot : ((announcedPrefixes c).entries.foldl (fun e p => e.declare (some p.1) p.2)
      (({ tag := "model" } : Element).declare (some i18nPrefix) i18nNamespace)).declare none
        modelNamespace = { tag := "model", namespaces := rootNamespaces c } := by
    change (List.foldl _ first _).declare _ _ = _
    rw [hentries, Element.declare, setPair_new hlast]
    rfl
  unfold modelElement
  simp only [hroot]

/-! ## Documents -/

/-- Whether the prefixes that handlers announce can be declared, and their namespaces too. -/
def PrefixesDeclarable (c : Context) : Prop :=
  ∀ p uri, (announcedPrefixes c).get? p = some uri →
    (isPlainName p = true ∧ p ≠ "xml" ∧ p ≠ "xmlns") ∧
      uri ≠ "" ∧ uri ≠ xmlNamespace ∧ uri ≠ xmlnsNamespace

theorem proper_rootNamespaces {c : Context} (hc : PrefixesDeclarable c) :
    Declarations.Proper (Declarations.inside [] (rootNamespaces c)) := by
  have hmem {d : Option String × String} (hd : d ∈ Declarations.inside [] (rootNamespaces c)) :
      d = (some i18nPrefix, i18nNamespace) ∨ d = (none, modelNamespace) ∨
        ∃ p uri, (announcedPrefixes c).get? p = some uri ∧ d = (some p, uri) := by
    rcases List.mem_cons.1 ((Declarations.mem_inside.1 hd).resolve_right nofun) with rfl | hd
    · exact .inl rfl
    · rcases List.mem_append.1 hd with hd | hd
      · obtain ⟨⟨p, uri⟩, hentry, rfl⟩ := List.mem_map.1 hd
        exact .inr (.inr ⟨p, uri, (NameMap.mem_entries_iff _).1 hentry, rfl⟩)
      · exact .inr (.inl (List.mem_singleton.1 hd))
  refine ⟨fun {p uri} hp => ?_, fun {p uri} hp => ?_, fun {p uri uri'} hp hq => ?_⟩
  · rcases hmem hp with h | h | ⟨q, uri', hq, h⟩ <;> cases h
    · decide
    · exact (hc _ _ hq).1
  · rcases hmem hp with h | h | ⟨q, uri', hq, h⟩ <;> cases h
    · decide
    · decide
    · exact (hc _ _ hq).2
  · have hsame := List.inj_on_of_nodup_map (nodup_rootNamespaces c)
      ((Declarations.mem_inside.1 hp).resolve_right nofun)
      ((Declarations.mem_inside.1 hq).resolve_right nofun) rfl
    exact congrArg Prod.snd hsame

theorem default?_rootNamespaces (c : Context) :
    (Declarations.inside [] (rootNamespaces c)).default? = some modelNamespace := by
  rw [Declarations.inside, List.append_nil, rootNamespaces, List.reverse_cons, List.reverse_append]
  rfl

/-- A document that was written holds the elements of the schemas, and these are read again if their
names are plain. -/
theorem exists_root_of_write_announced {c : Context} (hc : PrefixesDeclarable c) {pretty : Bool}
    {m : Model} {text : String} (h : c.write pretty m = .ok text) :
    ∃ es, m.entries.mapM (fun s => schemaElement c s.1 s.2) = .ok es ∧
      ((∀ e ∈ es, WellNamed e) → ∃ root, Element.read text = .ok root ∧
        root.get? domainAttribute = documentDomain es ∧
        List.Forall₂ (Restored (firstDomainOf es)) es root.children) := by
  unfold Context.write at h
  rw [modelElement_eq_announced, bind_assoc] at h
  obtain ⟨es, hes, h⟩ := exists_of_bind h
  refine ⟨es, hes, fun hnamed => ?_⟩
  let root : Element := { tag := "model", namespaces := rootNamespaces c, children := es }
  have hwrite : (hoistDomain root).write pretty = .ok text := by
    rw [pure_bind] at h
    exact of_mapError h
  have hplain : isPlainName (localName root.tag) = true :=
    show isPlainName (localName "model") = true by decide
  exact exists_read_of_hoistDomain rfl hplain (nodup_rootNamespaces c) (proper_rootNamespaces hc)
    (default?_rootNamespaces c) hnamed hwrite

/-! ## Markup of further namespaces -/

/-- Whether an element is another one with markup of further namespaces: attributes that have a
namespace, and elements that are none of the model. -/
structure Adorns (e e' : Element) : Prop where
  /-- The tag is the same. -/
  tag : e'.tag = e.tag
  /-- So are the attributes without a namespace. -/
  attributes (name : String) : namespaceOf? name = none → e'.get? name = e.get? name
  /-- So are the elements of the model inside. -/
  children (c : Element) : c.isModelElement = true → (c ∈ e'.children ↔ c ∈ e.children)
  /-- Names stay plain, and nothing is declared. -/
  wellNamed : WellNamed e → WellNamed e'

theorem Adorns.refl (e : Element) : Adorns e e := ⟨rfl, fun _ _ => rfl, fun _ _ => .rfl, id⟩

theorem Adorns.trans {e e' e'' : Element} (h : Adorns e e') (h' : Adorns e' e'') : Adorns e e'' :=
  ⟨h'.tag.trans h.tag, fun name hn => (h'.attributes name hn).trans (h.attributes name hn),
    fun c hc => (h'.children c hc).trans (h.children c hc), fun he => h'.wellNamed (h.wellNamed he)⟩

/-- Handlers that write one after the other only adorn an element if each of them does. -/
theorem adorns_of_foldlM {α : Type} {handlers : List α} {write : Element → α → Except Fault Element}
    (hwrite : ∀ a ∈ handlers, ∀ e e', write e a = .ok e' → Adorns e e') {e e' : Element}
    (h : handlers.foldlM write e = .ok e') : Adorns e e' := by
  induction handlers generalizing e with
  | nil =>
    cases h
    exact .refl _
  | cons a handlers ih =>
    rw [List.foldlM_cons] at h
    obtain ⟨e₁, hfirst, hmore⟩ := exists_of_bind h
    exact (hwrite a (.head _) e e₁ hfirst).trans (ih (fun a ha => hwrite a (.tail _ ha)) hmore)

/-- Handlers whose markup stands beside that of models in documents. -/
structure HandlersAdorn (c : Context) : Prop where
  /-- Their prefixes can be declared. -/
  prefixes : PrefixesDeclarable c
  /-- Handlers of fields write markup of further namespaces. -/
  fieldWrite : ∀ h ∈ c.fieldHandlers, ∀ s f e e', h.write s f e = .ok e' → Adorns e e'
  /-- So do handlers of schemas. -/
  schemaWrite : ∀ h ∈ c.schemaHandlers, ∀ s e e', h.write s e = .ok e' → Adorns e e'

/-- Whether a field has the texts for users of another one, and the same nested fields. -/
structure SameWording (f g : Field) : Prop where
  /-- The texts are the same. -/
  wording (w : Wording) : w.of g = w.of f
  /-- The keys are the same. -/
  keyType : g.keyType = f.keyType
  /-- The values are the same. -/
  valueType : g.valueType = f.valueType

theorem SameWording.refl (f : Field) : SameWording f f := ⟨fun _ => rfl, rfl, rfl⟩

theorem SameWording.trans {f g h : Field} (hfg : SameWording f g) (hgh : SameWording g h) :
    SameWording f h :=
  ⟨fun w => (hgh.wording w).trans (hfg.wording w), hgh.keyType.trans hfg.keyType,
    hgh.valueType.trans hfg.valueType⟩

/-- Whether the fields of a schema are found in another one, with the same texts for users. -/
def KeepsWording (a b : Schema) : Prop :=
  ∀ name f, a.fields.get? name = some f → ∃ g, b.fields.get? name = some g ∧ SameWording f g

/-- Handlers that leave the texts for users alone. -/
structure HandlersLeaveWording (c : Context) : Prop where
  /-- Their prefixes can be declared. -/
  prefixes : PrefixesDeclarable c
  /-- Handlers of fields write markup of further namespaces. -/
  fieldWrite : ∀ h ∈ c.fieldHandlers, ∀ s f e e', h.write s f e = .ok e' → Adorns e e'
  /-- So do handlers of schemas. -/
  schemaWrite : ∀ h ∈ c.schemaHandlers, ∀ s e e', h.write s e = .ok e' → Adorns e e'
  /-- Handlers of fields keep texts when they read. -/
  fieldRead : ∀ h ∈ c.fieldHandlers, ∀ e name a b, h.read e name a = .ok b → KeepsWording a b
  /-- So do handlers of schemas. -/
  schemaRead : ∀ h ∈ c.schemaHandlers, ∀ e a b, h.read e a = .ok b → KeepsWording a b

theorem HandlersLeaveWording.adorn {c : Context} (h : HandlersLeaveWording c) : HandlersAdorn c :=
  ⟨h.prefixes, h.fieldWrite, h.schemaWrite⟩

/-- What handlers make of a schema that was read has the same texts. -/
theorem Handled.keepsWording {c : Context} (hc : HandlersLeaveWording c) {a b : Schema}
    (h : Handled c a b) : KeepsWording a b := by
  induction h with
  | refl => exact fun _ f hf => ⟨f, hf, .refl f⟩
  | @tail b d _ hstep ih =>
    have hnext : KeepsWording b d := by
      rcases hstep with ⟨handler, hhandler, e, name, hread⟩ | ⟨handler, hhandler, e, hread⟩
      · exact hc.fieldRead handler hhandler e name _ _ hread
      · exact hc.schemaRead handler hhandler e _ _ hread
    intro name f hf
    obtain ⟨g, hg, hfg⟩ := ih name f hf
    obtain ⟨k, hk, hgk⟩ := hnext name g hg
    exact ⟨k, hk, hfg.trans hgk⟩

/-! ## Primary fields -/

namespace PrimaryField

theorem adorns_set (e : Element) (value : String) : Adorns e (e.set attributeName value) := by
  refine ⟨rfl, fun name hn => ?_, fun _ _ => .rfl, fun h => ?_⟩
  · rw [Element.get?_set, if_neg]
    rintro rfl
    have hsome : (namespaceOf? attributeName).isSome = true := by decide
    rw [hn] at hsome
    cases hsome
  · obtain ⟨tag, names, distinct, undeclared, children⟩ := h
    have hnew : isPlainName (localName attributeName) = true ∧ attributeName ≠ "xmlns" := by decide
    have hkeys := Element.map_fst_setPair attributeName value e.attributes
    refine .intro tag (fun a ha => ?_) ?_ undeclared children
    · have hkey : a.1 ∈ (e.attributes.map (·.1)) ∨ a.1 = attributeName := by
        have hmem := List.mem_map_of_mem (f := (·.1)) ha
        rw [Element.set, hkeys] at hmem
        split at hmem
        · exact .inl hmem
        · exact (List.mem_append.1 hmem).imp_right List.mem_singleton.1
      rcases hkey with hkey | hkey
      · obtain ⟨b, hb, heq⟩ := List.mem_map.1 hkey
        rw [← heq]
        exact names b hb
      · rw [hkey]
        exact hnew
    · rw [Element.set, hkeys]
      split
      · exact distinct
      · rw [← List.concat_eq_append]
        exact distinct.concat ‹_›

theorem keepsWording_markPrimary {a b : Schema} {name : String} (h : a.markPrimary [name] = .ok b) :
    KeepsWording a b := by
  unfold Schema.markPrimary at h
  split at h
  · cases h
  · cases h
    intro key f hf
    rw [List.foldl_cons, List.foldl_nil, NameMap.modify]
    split
    · rename_i g hg
      rw [NameMap.get?_insert]
      split
      · rename_i heq
        cases heq
        cases hg.symm.trans hf
        exact ⟨_, rfl, fun w => by cases w <;> rfl, rfl, rfl⟩
      · exact ⟨f, hf, .refl f⟩
    · exact ⟨f, hf, .refl f⟩

end PrimaryField

/-- The handler of primary fields leaves texts alone. -/
theorem leavesWording_primaryField {c : Context} (hschemas : c.schemaHandlers = [])
    (hfields : ∀ h ∈ c.fieldHandlers, h = PrimaryField.handler) : HandlersLeaveWording c where
  prefixes p uri hp := by
    have hannounced := (announced_of_get? hp).2
    rw [hschemas, List.map_nil, List.nil_append] at hannounced
    obtain ⟨h, hmem, heq⟩ := List.mem_map.1 hannounced
    rw [hfields h hmem] at heq
    cases heq
    decide
  fieldWrite h hmem s f e e' hwrite := by
    rw [hfields h hmem] at hwrite
    cases hwrite
    split
    · exact PrimaryField.adorns_set e "true"
    · exact .refl e
  schemaWrite h hmem := by
    rw [hschemas] at hmem
    cases hmem
  fieldRead h hmem e name a b hread := by
    rw [hfields h hmem] at hread
    change PrimaryField.read e name a = .ok b at hread
    unfold PrimaryField.read at hread
    split at hread
    · cases hread
      exact fun _ f hf => ⟨f, hf, .refl f⟩
    · cases hread
      exact fun _ f hf => ⟨f, hf, .refl f⟩
    · exact PrimaryField.keepsWording_markPrimary (of_mapError hread)
    · cases hread
  schemaRead h hmem := by
    rw [hschemas] at hmem
    cases hmem

end ContentSchema.Document
