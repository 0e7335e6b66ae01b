import ContentSchema.Proofs.Markup.Document

/-!
# Trees that declare no namespaces

A tree whose elements declare no namespaces takes its prefixes from around it. If its names are plain,
it is read back with the same names, the tags without a namespace being in the default one
(`WellNamed.readsBack`), whatever prefixes there are.
-/
namespace ContentSchema.Markup

/-- Whether the names in a tree are plain but for namespaces, which are not declared in the tree. -/
inductive WellNamed : Element → Prop
  /-- The names of the element are plain, and so are those of the elements inside. -/
  | intro {e : Element} (tag : isPlainName (localName e.tag) = true)
    (names : ∀ a ∈ e.attributes, isPlainName (localName a.1) = true ∧ a.1 ≠ "xmlns")
    (distinct : (e.attributes.map (·.1)).Nodup) (undeclared : e.namespaces = [])
    (children : ∀ c ∈ e.children, WellNamed c) : WellNamed e

/-- Whether a tree is what is read for another one that was written inside declarations. -/
inductive RereadIn (ds : Declarations) : Element → Element → Prop
  /-- Lines, and text in front of elements, do not count. -/
  | intro {e e' : Element} (tag : e'.tag = ds.tagInside e.tag)
    (attributes : e'.attributes = e.attributes) (text : e.children = [] → e'.text = e.text)
    (children : List.Forall₂ (RereadIn ds) e.children e'.children) : RereadIn ds e e'

theorem Writable.wellNamed {e : Element} (h : Writable e) : WellNamed e := by
  induction h with
  | intro tag names distinct undeclared _ ih =>
    exact .intro ((localName_of_plain tag).symm ▸ tag) (fun a ha => (names a ha).plain) distinct
      undeclared ih

/-- A tree that declares no namespaces is read back. -/
theorem WellNamed.readsBack {e : Element} (h : WellNamed e) {ds : Declarations} (hds : ds.Proper)
    (pretty : Bool) (depth : Nat) : ReadsBack (RereadIn ds) pretty ds depth e := by
  induction h generalizing depth with
  | @intro e tag names distinct undeclared children ih =>
    have hinside : ds.inside e.namespaces = ds := by
      rw [undeclared]
      rfl
    have hprefixes : (e.namespaces.map (·.1)).Nodup := by
      rw [undeclared]
      exact List.nodup_nil
    have hchildren (c : Element) (hc : c ∈ e.children) :
        ReadsBack (RereadIn ds) pretty (ds.inside e.namespaces) (depth + 1) c := by
      rw [hinside]
      exact ih c hc (depth + 1)
    have hback := readsBack_of_children ⟨tag, names, distinct, hprefixes, hinside.symm ▸ hds⟩ hchildren
    refine hback.imp fun e' hread => ?_
    obtain ⟨htag, hattributes, -, htext, hsame⟩ := hread
    rw [hinside] at htag
    exact .intro htag hattributes
      (fun hnil => htext.trans (textRead_of_childless hnil pretty depth)) hsame

/-- What is read for the document of a root element with declarations: the attributes of the root, and
the trees inside it. -/
theorem exists_read_of_wellNamed {root : Element} (tag : isPlainName (localName root.tag) = true)
    (names : ∀ a ∈ root.attributes, isPlainName (localName a.1) = true ∧ a.1 ≠ "xmlns")
    (distinct : (root.attributes.map (·.1)).Nodup)
    (prefixes : (root.namespaces.map (·.1)).Nodup)
    (hds : Declarations.Proper (Declarations.inside [] root.namespaces))
    (children : ∀ c ∈ root.children, WellNamed c) {pretty : Bool} {text : String}
    (h : root.write pretty = .ok text) :
    ∃ root', Element.read text = .ok root' ∧ root'.attributes = root.attributes ∧
      List.Forall₂ (RereadIn (Declarations.inside [] root.namespaces)) root.children
        root'.children := by
  have hback := readsBack_of_children ⟨tag, names, distinct, prefixes, hds⟩
    fun c hc => (children c hc).readsBack hds pretty (0 + 1)
  obtain ⟨root', hread, hroot⟩ := exists_read_of_write hback h
  exact ⟨root', hread, hroot.attributes, hroot.children⟩

/-- Where the default namespace is that of models, a tag without a namespace stands for an element of the
model. -/
theorem same_of_tagInside {ds : Declarations} (hds : ds.default? = some modelNamespace)
    {e e' : Element} (h : e'.tag = ds.tagInside e.tag) :
    e'.isModelElement = e.isModelElement ∧ e'.localName = e.localName := by
  rw [Declarations.tagInside, hds] at h
  cases hsplit : splitName? e.tag with
  | none =>
    have hnamespace : namespaceOf? e.tag = none := by rw [namespaceOf?, hsplit, Option.map_none]
    rw [hnamespace] at h
    obtain ⟨hmodel, hlocal⟩ := Element.isModelElement_of_qualified h
    rw [hmodel, hlocal, Element.isModelElement, hnamespace, Element.localName, localName, hsplit]
    exact ⟨rfl, rfl⟩
  | some parts =>
    have hnamespace : namespaceOf? e.tag = some parts.1 := by rw [namespaceOf?, hsplit, Option.map_some]
    rw [hnamespace] at h
    rw [Element.isModelElement, Element.isModelElement, Element.localName, Element.localName, h]
    exact ⟨rfl, rfl⟩

end ContentSchema.Markup
