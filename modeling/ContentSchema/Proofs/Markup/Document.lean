import ContentSchema.Proofs.Markup.Element
import ContentSchema.Proofs.Markup.Tree

/-!
# Documents of models read back

The root of a document of models declares two namespaces: that of the attributes of messages under a
prefix, and that of models as the default one. Inside it nothing is declared, so that every tag is in
the namespace of models when it is read.

Result: a document is written, in the compact and in the pretty form, and the tree that is read has
the same attributes, and the same text where no elements stand inside (`read_write`, `Reread`).
-/
namespace ContentSchema.Markup

/-- The namespaces that the root of a written document declares. -/
def declared : Declarations := [(some i18nPrefix, i18nNamespace), (none, modelNamespace)]

/-- The declarations around every element of a written document. -/
def documentDeclarations : Declarations := Declarations.inside [] declared

/-- Whether a name can be that of an attribute: a plain one that declares no namespace, or one of
the attributes of messages. -/
def IsAttributeName (name : String) : Prop :=
  (isPlainName name = true ∧ name ≠ "xmlns") ∨
    ∃ rest, isPlainName rest = true ∧ name = qualified rest i18nNamespace

/-- Whether an element can be written inside a document: names are plain, or those of the attributes
of messages, and no namespace is declared. -/
inductive Writable : Element → Prop
  /-- The tag and the attributes are fine, and so are the elements inside. -/
  | intro {e : Element} (tag : isPlainName e.tag = true)
    (names : ∀ a ∈ e.attributes, IsAttributeName a.1) (distinct : (e.attributes.map (·.1)).Nodup)
    (undeclared : e.namespaces = []) (children : ∀ c ∈ e.children, Writable c) : Writable e

/-- Whether an element is what is read for another one that was written. -/
inductive Reread : Element → Element → Prop
  /-- Lines, declarations, and text in front of elements do not count. -/
  | intro {e e' : Element} (tag : e'.tag = qualified e.tag modelNamespace)
    (attributes : e'.attributes = e.attributes) (text : e.children = [] → e'.text = e.text)
    (children : List.Forall₂ Reread e.children e'.children) : Reread e e'

/-- Reading finds as many elements as were written. -/
theorem Reread.count {e e' : Element} (h : Reread e e') : e'.count = e.count := by
  obtain ⟨-, -, -, children⟩ := h
  have hmembers := (List.forall₂_and_left _ _).2 ⟨fun c (hc : c ∈ e.children) => hc, children⟩
  have hcounts : e.children.map Element.count = e'.children.map Element.count := by
    refine map_eq_of_forall₂ (hmembers.imp fun c c' ⟨hc, hread⟩ => ?_)
    have := Element.sizeOf_child_lt hc
    exact hread.count.symm
  rw [Element.count_eq, Element.count_eq e, hcounts]
termination_by sizeOf e

/-! ## Names -/

theorem proper_documentDeclarations : documentDeclarations.Proper := by
  have hmem {d : Option String × String} (hd : d ∈ documentDeclarations) :
      d = (none, modelNamespace) ∨ d = (some i18nPrefix, i18nNamespace) := by
    simpa [documentDeclarations, Declarations.inside, declared] using hd
  refine ⟨fun {p uri} hp => ?_, fun {p uri} hp => ?_, fun {p uri uri'} hp hq => ?_⟩
  · rcases hmem hp with h | h <;> cases h
    decide
  · rcases hmem hp with h | h <;> cases h <;> decide
  · rcases hmem hp with h | h <;> rcases hmem hq with h' | h' <;> cases h <;> cases h'
    rfl

theorem tagInside_documentDeclarations {tag : String} (h : isPlainName tag = true) :
    documentDeclarations.tagInside tag = qualified tag modelNamespace := by
  rw [Declarations.tagInside, namespaceOf?_of_plain h]
  rfl

theorem IsAttributeName.plain {name : String} (h : IsAttributeName name) :
    isPlainName (localName name) = true ∧ name ≠ "xmlns" := by
  rcases h with ⟨h, hne⟩ | ⟨rest, h, rfl⟩
  · rw [localName_of_plain h]
    exact ⟨h, hne⟩
  · rw [localName_qualified rest (by decide)]
    refine ⟨h, fun he => ?_⟩
    have hsplit := splitName?_qualified rest (show '\x7d' ∉ i18nNamespace.toList by decide)
    rw [he] at hsplit
    cases hsplit

theorem IsAttributeName.exists_key {name : String} (h : IsAttributeName name) :
    ∃ key, writtenName documentDeclarations false name = .ok key := by
  rcases h with ⟨h, -⟩ | ⟨rest, -, rfl⟩
  · exact ⟨_, writtenName_plain h _ _⟩
  · have hxml : (i18nNamespace == xmlNamespace) = false := by decide
    have hfound : documentDeclarations.prefixOf? i18nNamespace = some i18nPrefix := by decide
    rw [writtenName, splitName?_qualified rest (by decide)]
    simp only [hxml, Bool.false_and, Bool.false_eq_true, if_false, hfound]
    exact ⟨_, rfl⟩

/-! ## Elements -/

theorem exists_writeElements {pretty : Bool} {outer : Declarations} {depth : Nat} {es : List Element}
    (h : ∀ e ∈ es, ∃ cs, writeElement pretty outer depth e = .ok cs) (indented : Bool) :
    ∃ cs, writeElements pretty indented outer depth es = .ok cs := by
  induction es with
  | nil => exact ⟨[], by rw [writeElements]⟩
  | cons e es ih =>
    obtain ⟨first, hfirst⟩ := h e (.head _)
    obtain ⟨more, hmore⟩ := ih fun d hd => h d (.tail _ hd)
    rw [writeElements, hfirst, hmore]
    exact ⟨_, rfl⟩

theorem exists_mapM_writtenAttribute {attributes : List (String × String)}
    (h : ∀ a ∈ attributes, IsAttributeName a.1) :
    ∃ ws, attributes.mapM (fun a => do
      return writtenAttribute (← writtenName documentDeclarations false a.1) a.2) =
        (.ok ws : Except DocumentError (List (List Char))) := by
  have hall : ∀ a ∈ attributes, ∃ w, (do
      return writtenAttribute (← writtenName documentDeclarations false a.1) a.2 :
        Except DocumentError (List Char)) = .ok w := fun a ha => by
    obtain ⟨key, hkey⟩ := (h a ha).exists_key
    rw [hkey]
    exact ⟨_, rfl⟩
  obtain ⟨ws, hws⟩ := exists_forall₂ hall
  exact ⟨ws, mapM_of_forall₂ hws⟩

section Element

variable {e : Element} (tag : isPlainName e.tag = true)
  (names : ∀ a ∈ e.attributes, IsAttributeName a.1) (distinct : (e.attributes.map (·.1)).Nodup)
  {outer : Declarations} (hinside : outer.inside e.namespaces = documentDeclarations)

include tag names hinside

/-- An element is written when the elements inside it are. -/
theorem exists_writeElement {pretty : Bool} {depth : Nat}
    (hc : ∀ c ∈ e.children, ∃ cs, writeElement pretty documentDeclarations (depth + 1) c = .ok cs) :
    ∃ cs, writeElement pretty outer depth e = .ok cs := by
  obtain ⟨ws, hws⟩ := exists_mapM_writtenAttribute names
  obtain ⟨cs, hcs⟩ := exists_writeElements hc (indentsChildren pretty e.text e.children)
  obtain ⟨name, attributes, children, text, line, namespaces⟩ := e
  rw [Declarations.inside] at hinside
  simp only at tag hws hcs hinside
  rw [writeElement]
  simp only [hinside, writtenName_plain tag, bind, Except.bind, pure, Except.pure] at hws ⊢
  rw [hws]
  cases hempty : children.isEmpty && text.isNone with
  | true => exact ⟨_, rfl⟩
  | false =>
    rw [hcs]
    exact ⟨_, rfl⟩

include distinct

theorem nameable_of_plain (prefixes : (e.namespaces.map (·.1)).Nodup) : Nameable outer e :=
  ⟨(localName_of_plain tag).symm ▸ tag, fun a ha => (names a ha).plain, distinct, prefixes,
    hinside ▸ proper_documentDeclarations⟩

/-- An element is read back when the elements inside it are. -/
theorem readsBack_reread {pretty : Bool} {depth : Nat} (prefixes : (e.namespaces.map (·.1)).Nodup)
    (hc : ∀ c ∈ e.children, ReadsBack Reread pretty documentDeclarations (depth + 1) c) :
    ReadsBack Reread pretty outer depth e := by
  have hback := readsBack_of_children (nameable_of_plain tag names distinct hinside prefixes)
    (hinside.symm ▸ hc)
  refine hback.imp fun e' hread => ?_
  obtain ⟨htag, hattributes, -, htext, hchildren⟩ := hread
  rw [hinside, tagInside_documentDeclarations tag] at htag
  exact .intro htag hattributes
    (fun hnil => htext.trans (textRead_of_childless hnil pretty depth)) hchildren

end Element

/-! ## Whole documents -/

theorem Writable.exists_write {e : Element} (h : Writable e) (pretty : Bool) (depth : Nat) :
    ∃ cs, writeElement pretty documentDeclarations depth e = .ok cs := by
  induction h generalizing depth with
  | @intro e tag names distinct undeclared children ih =>
    have hinside : documentDeclarations.inside e.namespaces = documentDeclarations := by
      rw [undeclared]
      rfl
    exact exists_writeElement tag names hinside fun c hc => ih c hc (depth + 1)

/-- An element inside a document is read back. -/
theorem Writable.readsBack {e : Element} (h : Writable e) (pretty : Bool) (depth : Nat) :
    ReadsBack Reread pretty documentDeclarations depth e := by
  induction h generalizing depth with
  | @intro e tag names distinct undeclared children ih =>
    have hinside : documentDeclarations.inside e.namespaces = documentDeclarations := by
      rw [undeclared]
      rfl
    have hprefixes : (e.namespaces.map (·.1)).Nodup := by
      rw [undeclared]
      exact List.nodup_nil
    exact readsBack_reread tag names distinct hinside hprefixes fun c hc => ih c hc (depth + 1)

/-- A document is written for a root element that declares the namespaces and holds elements that can
be written, and what is read from it is that element. -/
theorem read_write {root : Element} (tag : isPlainName root.tag = true)
    (names : ∀ a ∈ root.attributes, IsAttributeName a.1)
    (distinct : (root.attributes.map (·.1)).Nodup) (hdeclared : root.namespaces = declared)
    (children : ∀ c ∈ root.children, Writable c) (pretty : Bool) :
    ∃ text root', root.write pretty = .ok text ∧ Element.read text = .ok root' ∧
      Reread root root' := by
  have hinside : Declarations.inside [] root.namespaces = documentDeclarations := by
    rw [hdeclared]
    rfl
  have hprefixes : (root.namespaces.map (·.1)).Nodup := by
    rw [hdeclared]
    decide
  obtain ⟨cs, hcs⟩ := exists_writeElement tag names hinside fun c hc =>
    (children c hc).exists_write pretty 1
  have hback : ReadsBack Reread pretty [] 0 root := readsBack_reread tag names distinct hinside
    hprefixes fun c hc => (children c hc).readsBack pretty 1
  have hwrite : root.write pretty = .ok (String.ofList cs) := by
    rw [Element.write, hcs]
    rfl
  obtain ⟨root', hread, hroot⟩ := exists_read_of_write hback hwrite
  exact ⟨_, root', hwrite, hread, hroot⟩

end ContentSchema.Markup
