import ContentSchema.Proofs.Document.ModelWriter
import ContentSchema.Proofs.Markup.WellNamed

/-!
# The message domain of any document

Elements name the domains of the messages that they hold. The first domain that is named, in document
order, goes to the root (`snd_walk_takeDomain`), unless it is empty; it is left out wherever it stands
again. Messages need not name a domain here, so that a document may have none.

Result: what is read for the root of a document names its message domain, and the elements inside say
what was written, with the first domain for the one that is left out (`exists_read_of_hoistDomain`).
-/
namespace ContentSchema.Document

open Markup (Declarations Element RereadIn WellNamed isPlainName localName modelNamespace)

/-! ## The first domain -/

/-- The domain that an element names for the message that it holds. -/
def messageDomain? (e : Element) : Option String :=
  if (e.get? translateAttribute).isSome then e.get? domainAttribute else none

mutual

/-- The domain that is named first in an element, in document order. -/
def firstDomain : Element → Option String
  | ⟨tag, attributes, children, text, line, namespaces⟩ =>
    (messageDomain? ⟨tag, attributes, children, text, line, namespaces⟩).or (firstDomainOf children)

/-- The domain that is named first in elements one after the other. -/
def firstDomainOf : List Element → Option String
  | [] => none
  | e :: es => (firstDomain e).or (firstDomainOf es)

end

/-- The message domain of a document with the given elements inside its root. -/
def documentDomain (es : List Element) : Option String := (firstDomainOf es).filter (!·.isEmpty)

theorem firstDomain_eq (e : Element) :
    firstDomain e = (messageDomain? e).or (firstDomainOf e.children) := by
  cases e
  rw [firstDomain]

theorem snd_takeDomain (e : Element) (before : Option String) :
    (takeDomain e before).2 = before.or (messageDomain? e) := by
  unfold takeDomain messageDomain?
  cases e.get? translateAttribute with
  | none => simp
  | some id =>
    cases before <;> cases e.get? domainAttribute <;> rfl

theorem snd_walkAll_takeDomain {es : List Element}
    (h : ∀ e ∈ es, ∀ before, (Element.walk takeDomain before e).2 = before.or (firstDomain e))
    (before : Option String) :
    (Element.walkAll takeDomain before es).2 = before.or (firstDomainOf es) := by
  induction es generalizing before with
  | nil => rw [Element.walkAll, firstDomainOf, Option.or_none]
  | cons e es ih =>
    rw [Element.walkAll, firstDomainOf, ih fun c hc => h c (.tail _ hc)]
    rw [h e (.head _), Option.or_assoc]

/-- A walk finds the first domain, unless it has one already. -/
theorem snd_walk_takeDomain (e : Element) (before : Option String) :
    (Element.walk takeDomain before e).2 = before.or (firstDomain e) := by
  rw [Element.walk_eq, snd_walkAll_takeDomain fun c hc before => ?_, snd_takeDomain, Option.or_assoc,
    ← firstDomain_eq]
  have := Element.sizeOf_child_lt hc
  exact snd_walk_takeDomain c before
termination_by sizeOf e

/-! ## What reading restores -/

/-- Whether an element that is read says what one said that was written, when `first` stands for the
domain that was left out. -/
inductive Restored (first : Option String) : Element → Element → Prop
  /-- The name is the same, as far as it matters in documents of models, the attributes are the same but
  for the domain, and so are the text and the elements inside. -/
  | intro {e e' : Element} (model : e'.isModelElement = e.isModelElement)
    (localName : e'.localName = e.localName)
    (attributes : ∀ name, name ≠ domainAttribute → e'.get? name = e.get? name)
    (domain : (e.get? translateAttribute).isSome = true →
      (e'.get? domainAttribute).or first = (e.get? domainAttribute).or first)
    (text : e.children = [] → e'.text = e.text)
    (children : List.Forall₂ (Restored first) e.children e'.children) : Restored first e e'

theorem get?_takeDomain {e : Element} (h : (e.attributes.map (·.1)).Nodup) (before : Option String)
    {name : String} (hn : name ≠ domainAttribute) :
    (takeDomain e before).1.get? name = e.get? name := by
  rcases fst_takeDomain e before with htaken | htaken <;> rw [htaken]
  rw [Element.get?_erase h, if_neg hn.symm]

/-- The domain that is left out is the first one. -/
theorem domain_takeDomain {e : Element} (h : (e.attributes.map (·.1)).Nodup)
    {before first : Option String} (hfirst : Extends (takeDomain e before).2 first)
    (hm : (e.get? translateAttribute).isSome = true) :
    ((takeDomain e before).1.get? domainAttribute).or first = (e.get? domainAttribute).or first := by
  rw [snd_takeDomain, messageDomain?, if_pos hm] at hfirst
  unfold takeDomain
  rw [Option.isNone_eq_false_iff.2 hm, if_neg Bool.false_ne_true]
  dsimp only
  split
  · rename_i heq
    rw [Element.get?_erase h, if_pos rfl]
    cases hown : e.get? domainAttribute with
    | none => rfl
    | some own =>
      rw [hown] at heq hfirst
      have hsame : some own = before.or (some own) := by
        cases before with
        | none => rfl
        | some root => simpa using heq
      rw [hfirst own hsame.symm]
      rfl
  · rfl

theorem others_takeDomain (e : Element) (before : Option String) :
    (takeDomain e before).1.tag = e.tag ∧ (takeDomain e before).1.text = e.text := by
  rcases fst_takeDomain e before with htaken | htaken <;> rw [htaken] <;> exact ⟨rfl, rfl⟩

theorem length_walkAll {σ : Type} (visit : Element → σ → Element × σ) (s : σ) (es : List Element) :
    (Element.walkAll visit s es).1.length = es.length := by
  induction es generalizing s with
  | nil => rw [Element.walkAll]
  | cons e es ih =>
    rw [Element.walkAll]
    exact congrArg (· + 1) (ih _)

theorem wellNamed_walk {e : Element} (h : WellNamed e) (domain : Option String) :
    WellNamed (Element.walk takeDomain domain e).1 := by
  refine walk_takeDomain_keeps (P := WellNamed) (fun e h => ?_) (fun e h => ?_)
    (fun e es h hes => ?_) h domain
  · obtain ⟨tag, names, distinct, undeclared, children⟩ := h
    have hsub : (e.erase domainAttribute).attributes.Sublist e.attributes := List.eraseP_sublist
    exact .intro tag (fun a ha => names a (hsub.subset ha)) ((hsub.map _).nodup distinct)
      undeclared children
  · obtain ⟨-, -, -, -, children⟩ := h
    exact children
  · obtain ⟨tag, names, distinct, undeclared, -⟩ := h
    exact .intro tag names distinct undeclared hes

section Walk

variable {ds : Declarations} (hds : ds.default? = some modelNamespace) {first : Option String}

theorem restored_walkAll {es : List Element}
    (h : ∀ e ∈ es, ∀ before e', Extends (before.or (firstDomain e)) first →
      RereadIn ds (Element.walk takeDomain before e).1 e' → Restored first e e')
    {before : Option String} {es' : List Element} (hfirst : Extends (before.or (firstDomainOf es)) first)
    (hes : List.Forall₂ (RereadIn ds) (Element.walkAll takeDomain before es).1 es') :
    List.Forall₂ (Restored first) es es' := by
  induction es generalizing before es' with
  | nil =>
    rw [Element.walkAll] at hes
    cases hes
    exact .nil
  | cons e es ih =>
    rw [firstDomainOf, ← Option.or_assoc] at hfirst
    rw [Element.walkAll] at hes
    cases hes with
    | @cons _ e' _ es' he hes =>
      have hbefore : Extends (before.or (firstDomain e)) first := fun domain hd =>
        hfirst domain (by rw [hd]; rfl)
      refine .cons (h e (.head _) before e' hbefore he) (ih (fun c hc => h c (.tail _ hc)) ?_ hes)
      rwa [snd_walk_takeDomain]

include hds

/-- What is read of an element after a walk says what the element said before. -/
theorem restored_walk {e : Element} (h : WellNamed e) {before : Option String} {e' : Element}
    (hfirst : Extends (before.or (firstDomain e)) first)
    (he : RereadIn ds (Element.walk takeDomain before e).1 e') : Restored first e e' := by
  induction h generalizing before e' with
  | @intro e tag names distinct undeclared children ih =>
    rw [firstDomain_eq, ← Option.or_assoc, ← snd_takeDomain] at hfirst
    have hown : Extends (takeDomain e before).2 first := fun domain hd =>
      hfirst domain (by rw [hd]; rfl)
    rw [Element.walk_eq] at he
    obtain ⟨htag, hattributes, htext, hchildren⟩ := he
    obtain ⟨hsameTag, hsameText⟩ := others_takeDomain e before
    have hget (name : String) : e'.get? name = (takeDomain e before).1.get? name :=
      get?_of_attributes hattributes name
    obtain ⟨hmodel, hlocal⟩ := Markup.same_of_tagInside hds (htag.trans (by rw [← hsameTag]))
    refine .intro hmodel hlocal (fun name hn => ?_) (fun hm => ?_) (fun hnil => ?_)
      (restored_walkAll (fun c hc before e' => ih c hc) hfirst hchildren)
    · rw [hget, get?_takeDomain distinct before hn]
    · rw [hget, domain_takeDomain distinct hown hm]
    · rw [htext, hsameText]
      refine List.eq_nil_of_length_eq_zero ?_
      rw [length_walkAll, hnil]
      rfl

end Walk

section Restored

variable {first : Option String} {e e' : Element} (h : Restored first e e')

include h

theorem Restored.get? {name : String} (hn : name ≠ domainAttribute) : e'.get? name = e.get? name := by
  obtain ⟨-, -, attributes, -, -, -⟩ := h
  exact attributes name hn

theorem Restored.model : e'.isModelElement = e.isModelElement := by
  obtain ⟨model, -, -, -, -, -⟩ := h
  exact model

theorem Restored.localName : e'.localName = e.localName := by
  obtain ⟨-, localName, -, -, -, -⟩ := h
  exact localName

theorem Restored.children : List.Forall₂ (Restored first) e.children e'.children := by
  obtain ⟨-, -, -, -, -, children⟩ := h
  exact children

end Restored

/-! ## Documents -/

section Root

variable {root : Element} (hattributes : root.attributes = [])

include hattributes

theorem get?_hoistDomain :
    (hoistDomain root).get? domainAttribute = documentDomain root.children := by
  have hfirst : (Element.walkAll takeDomain none root.children).2 = firstDomainOf root.children := by
    rw [snd_walkAll_takeDomain fun e _ before => snd_walk_takeDomain e before, Option.none_or]
  rw [hoistDomain_eq hattributes, hfirst, documentDomain, Element.get?]
  cases (firstDomainOf root.children).filter (!·.isEmpty) <;> simp

/-- What is read for the root of a document with declarations names the message domain, and the elements
inside say what was written. -/
theorem exists_read_of_hoistDomain (htag : isPlainName (localName root.tag) = true)
    (hprefixes : (root.namespaces.map (·.1)).Nodup)
    (hproper : Declarations.Proper (Declarations.inside [] root.namespaces))
    (hdefault : (Declarations.inside [] root.namespaces).default? = some modelNamespace)
    (hchildren : ∀ e ∈ root.children, WellNamed e) {pretty : Bool} {text : String}
    (hwrite : (hoistDomain root).write pretty = .ok text) :
    ∃ root', Element.read text = .ok root' ∧
      root'.get? domainAttribute = documentDomain root.children ∧
      List.Forall₂ (Restored (firstDomainOf root.children)) root.children root'.children := by
  have hdomain := get?_hoistDomain hattributes
  have hhoist := hoistDomain_eq hattributes
  generalize hoistDomain root = hoisted at hdomain hhoist hwrite
  have hwalked := Element.walkAll_keeps (fun e he => wellNamed_walk (hchildren e he)) none
  have hnames : ∀ a ∈ hoisted.attributes, isPlainName (localName a.1) = true ∧ a.1 ≠ "xmlns" := by
    rw [hhoist]
    intro a ha
    obtain ⟨domain, -, rfl⟩ := List.mem_map.1 ha
    exact (isAttributeName_of_mem (show domainAttribute ∈ attributeNames by decide)).plain
  have hdistinct : (hoisted.attributes.map (·.1)).Nodup := by
    rw [hhoist]
    cases (Element.walkAll takeDomain none root.children).2.filter (!·.isEmpty) <;> simp
  obtain ⟨root', hread, hsame, hinside⟩ := Markup.exists_read_of_wellNamed
    (show isPlainName (localName hoisted.tag) = true by rwa [hhoist]) hnames hdistinct
    (by rwa [hhoist]) (by rwa [hhoist]) (by rwa [hhoist]) hwrite
  refine ⟨root', hread, (get?_of_attributes hsame _).trans hdomain, ?_⟩
  rw [hhoist] at hinside
  exact restored_walkAll (fun e he before e' => restored_walk hdefault (hchildren e he))
    (fun _ hd => by rwa [Option.none_or] at hd) hinside

end Root

end ContentSchema.Document
