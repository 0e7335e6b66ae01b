import ContentSchema.Proofs.Document.FirstDomain
import ContentSchema.Proofs.Markup.Listing

/-!
# Hoisting the message domain

The walk that moves the message domain to the root learns the domain while it takes it away: until
the first element with a message it knows none, and from there on it leaves out the domain that it
met. What an element becomes therefore depends on the domain at the end of the walk only
(`hoisted_walk`): every domain that the walk knows on its way is this one.

`Hoisted` compares a tree after the walk with the tree before, element by element. It holds once each
element with a message names a domain (`NamesDomain`).

Result: hoisting changes no message's domain (`hoistDomain_of_namesDomain`).
-/
namespace ContentSchema.Document

open Markup (Element)

/-! ## The first domain -/

theorem firstDomainOf_eq {es : List Element}
    (h : ∀ e ∈ es, firstDomain e = (listing e).findSome? messageDomain?) :
    firstDomainOf es = (listingOf es).findSome? messageDomain? := by
  induction es with
  | nil => rfl
  | cons e es ih =>
    rw [firstDomainOf, listingOf, List.findSome?_append, h e (.head _),
      ih fun c hc => h c (.tail _ hc)]

/-- The first domain is the one that stands first in document order. -/
theorem firstDomain_eq_findSome? (e : Element) :
    firstDomain e = (listing e).findSome? messageDomain? := by
  rw [firstDomain_eq, listing_eq, List.findSome?_cons, firstDomainOf_eq fun c hc => ?_]
  · cases messageDomain? e <;> rfl
  · have := Element.sizeOf_child_lt hc
    exact firstDomain_eq_findSome? c
termination_by sizeOf e

/-! ## One element -/

/-- Whether an element holds a message. -/
def isMarked (e : Element) : Bool := (e.get? translateAttribute).isSome

/-- Whether an element is one that documents are written with: no attribute stands twice, and with a
message it names a domain. -/
structure NamesDomain (e : Element) : Prop where
  /-- The attributes have distinct names. -/
  distinct : (e.attributes.map (·.1)).Nodup
  /-- With a message there is a domain. -/
  named : isMarked e = true → ∃ domain, domain ≠ "" ∧ e.get? domainAttribute = some domain

/-- The first element with a message has the first domain. -/
theorem findSome?_messageDomain? {es : List Element} (h : ∀ e ∈ es, NamesDomain e) :
    es.findSome? messageDomain? = (es.find? isMarked).bind (·.get? domainAttribute) := by
  induction es with
  | nil => rfl
  | cons e es ih =>
    rw [List.findSome?_cons, messageDomain?, ← isMarked]
    by_cases hm : isMarked e = true
    · obtain ⟨domain, -, hdomain⟩ := (h e (.head _)).named hm
      rw [if_pos hm, hdomain, List.find?_cons_of_pos hm]
      exact hdomain.symm
    · rw [if_neg hm, List.find?_cons_of_neg hm]
      exact ih fun c hc => h c (.tail _ hc)

theorem filter_erase (e : Element) (name : String) :
    (e.erase name).attributes.filter (·.1 ≠ name) = e.attributes.filter (·.1 ≠ name) := by
  unfold Element.erase
  induction e.attributes with
  | nil => rfl
  | cons a attributes ih =>
    by_cases ha : a.1 = name
    · simp [ha]
    · simpa [ha] using ih

/-- What hoisting makes of an element, when the root names a domain in the end. -/
structure HoistedHere (domain : Option String) (e e' : Element) : Prop where
  /-- The tag stays. -/
  tag : e'.tag = e.tag
  /-- The text stays. -/
  text : e'.text = e.text
  /-- The line stays. -/
  line : e'.line = e.line
  /-- The namespaces stay. -/
  namespaces : e'.namespaces = e.namespaces
  /-- The attributes stay, in their order, apart from the domain. -/
  others : e'.attributes.filter (·.1 ≠ domainAttribute) =
    e.attributes.filter (·.1 ≠ domainAttribute)
  /-- An element without a message stays as it is. -/
  unmarked : isMarked e = false → e'.attributes = e.attributes
  /-- An element with a message has its domain, from the root if it names none. -/
  kept : isMarked e = true → (e'.get? domainAttribute).or domain = e.get? domainAttribute
  /-- It does not name the domain of the root. -/
  left : isMarked e = true → e'.get? domainAttribute ≠ domain

/-- Nothing but the attributes of an element is compared. -/
theorem HoistedHere.withChildren {domain : Option String} {e e' : Element}
    (h : HoistedHere domain e e') (children : List Element) :
    HoistedHere domain e { e' with children } := by
  obtain ⟨tag, text, line, namespaces, others, unmarked, kept, left⟩ := h
  exact ⟨tag, text, line, namespaces, others, unmarked, kept, left⟩

theorem takeDomain_of_unmarked {e : Element} (h : isMarked e = false) (before : Option String) :
    takeDomain e before = (e, before) := by
  rw [isMarked, Option.isSome_eq_false_iff] at h
  rw [takeDomain, if_pos h]

theorem takeDomain_of_named {e : Element} (h : isMarked e = true) {own : String}
    (hown : e.get? domainAttribute = some own) (before : Option String) :
    takeDomain e before =
      (if before.getD own = own then e.erase domainAttribute else e, some (before.getD own)) := by
  rw [isMarked] at h
  rw [takeDomain, Option.isNone_eq_false_iff.2 h, if_neg Bool.false_ne_true, hown]
  cases before with
  | none => simp
  | some root => simp [eq_comm (a := own)]

/-- An element gives its domain away if the walk knows it or knows none yet, and keeps another one. -/
theorem hoistedHere_takeDomain {e : Element} (h : NamesDomain e) {before domain : Option String}
    (hdomain : Extends (before.or (messageDomain? e)) domain) :
    HoistedHere domain e (takeDomain e before).1 := by
  rw [← snd_takeDomain] at hdomain
  cases hm : isMarked e with
  | false =>
    rw [takeDomain_of_unmarked hm]
    exact ⟨rfl, rfl, rfl, rfl, rfl, fun _ => rfl, by simp [hm], by simp [hm]⟩
  | true =>
    obtain ⟨own, -, hown⟩ := h.named hm
    rw [takeDomain_of_named hm hown] at hdomain ⊢
    -- the domain that is known now is the one of the root in the end
    obtain rfl : domain = some (before.getD own) := hdomain _ rfl
    dsimp only
    split
    · rename_i hsame
      have hget := Element.get?_erase h.distinct domainAttribute domainAttribute
      rw [if_pos rfl] at hget
      refine ⟨rfl, rfl, rfl, rfl, filter_erase e _, by simp [hm], fun _ => ?_, fun _ => ?_⟩
      · rw [hget, Option.none_or, hown, hsame]
      · rw [hget]
        exact nofun
    · rename_i hother
      refine ⟨rfl, rfl, rfl, rfl, rfl, fun _ => rfl, fun _ => ?_, fun _ => ?_⟩
      · rw [hown, Option.some_or]
      · rw [hown]
        exact fun heq => hother (Option.some.inj heq).symm

/-! ## Whole trees -/

/-- What hoisting makes of a tree, when the root names a domain in the end: at each place there is
what it makes of the element there. -/
inductive Hoisted (domain : Option String) : Element → Element → Prop
  /-- The elements correspond, and so do those inside. -/
  | intro {e e' : Element} (here : HoistedHere domain e e')
    (children : List.Forall₂ (Hoisted domain) e.children e'.children) : Hoisted domain e e'

theorem hoisted_walkAll {domain : Option String} {es : List Element}
    (h : ∀ e ∈ es, ∀ before, Extends (before.or (firstDomain e)) domain →
      Hoisted domain e (Element.walk takeDomain before e).1)
    {before : Option String} (hdomain : Extends (before.or (firstDomainOf es)) domain) :
    List.Forall₂ (Hoisted domain) es (Element.walkAll takeDomain before es).1 := by
  induction es generalizing before with
  | nil =>
    rw [Element.walkAll]
    exact .nil
  | cons e es ih =>
    rw [firstDomainOf, ← Option.or_assoc] at hdomain
    rw [Element.walkAll]
    refine .cons (h e (.head _) before fun d hd => hdomain d (by rw [hd]; rfl))
      (ih (fun c hc => h c (.tail _ hc)) ?_)
    rwa [snd_walk_takeDomain]

/-- Whichever domain the walk knows when it comes to an element: if it is still known in the end, the
tree becomes what it has to. -/
theorem hoisted_walk {e : Element} (h : ∀ x, e.Inside x → NamesDomain x)
    {before domain : Option String} (hdomain : Extends (before.or (firstDomain e)) domain) :
    Hoisted domain e (Element.walk takeDomain before e).1 := by
  rw [firstDomain_eq, ← Option.or_assoc] at hdomain
  rw [Element.walk_eq]
  refine .intro ((hoistedHere_takeDomain (h e .self) fun d hd =>
    hdomain d (by rw [hd]; rfl)).withChildren _) (hoisted_walkAll (fun c hc before hc' => ?_) ?_)
  · have := Element.sizeOf_child_lt hc
    exact hoisted_walk (fun x hx => h x (Element.Encloses.inside ⟨c, hc, hx⟩)) hc'
  · rwa [snd_takeDomain]
termination_by sizeOf e

/-- Hoisting changes no message's domain. The root, which has no domain yet, gets the domain of the
first element with a message, in document order, and nothing else at the root changes. The elements
inside correspond to what they were: tags, texts, lines, namespaces, other attributes and the elements
inside stay; with a message, the domain that an element names or else that of the root is the one it
named before; and none names the domain of the root. -/
theorem hoistDomain_of_namesDomain {root : Element} (hroot : root.get? domainAttribute = none)
    (h : ∀ e, root.Encloses e → NamesDomain e) :
    ∃ domain children,
      domain = ((listingOf root.children).find? isMarked).bind (·.get? domainAttribute) ∧
      hoistDomain root = { root with
        attributes := root.attributes ++ domain.toList.map (domainAttribute, ·), children } ∧
      (hoistDomain root).get? domainAttribute = domain ∧
      List.Forall₂ (Hoisted domain) root.children children := by
  have hlisting : ∀ e ∈ listingOf root.children, NamesDomain e := by
    intro e he
    obtain ⟨c, hc, hec⟩ := mem_listingOf.1 he
    exact h e ⟨c, hc, mem_listing.1 hec⟩
  have hfirst : (Element.walkAll takeDomain none root.children).2 =
      ((listingOf root.children).find? isMarked).bind (·.get? domainAttribute) := by
    rw [snd_walkAll_takeDomain fun e _ before => snd_walk_takeDomain e before, Option.none_or,
      firstDomainOf_eq fun e _ => firstDomain_eq_findSome? e, findSome?_messageDomain? hlisting]
  have hproper : ((listingOf root.children).find? isMarked).bind (·.get? domainAttribute) ≠
      some "" := by
    intro hempty
    obtain ⟨e, hfind, hget⟩ := Option.bind_eq_some_iff.1 hempty
    obtain ⟨domain, hne, hdomain⟩ :=
      (hlisting e (List.mem_of_find?_eq_some hfind)).named (List.find?_some hfind)
    exact hne (Option.some.inj (hdomain.symm.trans hget))
  have hchildren : List.Forall₂ (Hoisted (Element.walkAll takeDomain none root.children).2)
      root.children (Element.walkAll takeDomain none root.children).1 := by
    refine hoisted_walkAll (fun e he before => hoisted_walk fun x hx => h x ⟨e, he, hx⟩) ?_
    rw [snd_walkAll_takeDomain fun e _ before => snd_walk_takeDomain e before]
    exact fun _ hd => hd
  have hhoist := hoistDomain_of_get? hroot
  rw [hfirst] at hchildren hhoist
  generalize ((listingOf root.children).find? isMarked).bind (·.get? domainAttribute) = domain
    at hproper hchildren hhoist ⊢
  rw [filter_of_proper hproper] at hhoist
  refine ⟨domain, _, rfl, hhoist, ?_, hchildren⟩
  rw [hhoist, Element.get?, List.find?_append, Option.map_or, ← Element.get?, hroot, Option.none_or]
  cases domain <;> simp

/-- An element with a message, which may name a domain. -/
def titled (domain : Option String) (children : List Element := []) : Element :=
  { tag := "title"
    attributes := (translateAttribute, "title") :: domain.toList.map (domainAttribute, ·)
    children }

/-- The element of a schema. -/
def shelf (children : List Element) : Element := { tag := "schema", children }

/-- A model with two schemas, which name one domain, and another domain inside the first. -/
def shop : Element :=
  { tag := "model"
    attributes := [("version", "1")]
    children := [shelf [titled (some "shop") [titled (some "help")]], shelf [titled (some "shop")]] }

theorem namesDomain_shop {e : Element} (h : shop.Encloses e) : NamesDomain e := by
  have hshelf (children : List Element) : NamesDomain (shelf children) := ⟨List.nodup_nil, nofun⟩
  have htitled {domain : String} (hne : domain ≠ "") (children : List Element) :
      NamesDomain (titled (some domain) children) := by
    refine ⟨by simp [titled, translateAttribute_ne], fun _ => ⟨domain, hne, ?_⟩⟩
    simp [titled, Element.get?, translateAttribute_ne]
  obtain ⟨c, hc, he⟩ := h
  have hmem : e ∈ listingOf shop.children := mem_listingOf.2 ⟨c, hc, mem_listing.2 he⟩
  simp only [shop, listingOf, listing_eq, shelf, titled, List.cons_append, List.nil_append,
    List.mem_cons, List.not_mem_nil, or_false] at hmem
  rcases hmem with rfl | rfl | rfl | rfl | rfl
  · exact hshelf _
  · exact htitled (by decide) _
  · exact htitled (by decide) _
  · exact hshelf _
  · exact htitled (by decide) _

theorem hoistDomain_of_namesDomain_shop :
    shop.get? domainAttribute = none ∧ (∀ e, shop.Encloses e → NamesDomain e) ∧
      (hoistDomain shop).get? domainAttribute = some "shop" ∧
      List.Forall₂ (Hoisted (some "shop")) shop.children
        [shelf [titled none [titled (some "help")]], shelf [titled none]] := by
  have hnone : shop.get? domainAttribute = none := by decide
  have hfirst : ((listingOf shop.children).find? isMarked).bind (·.get? domainAttribute) =
      some "shop" := by decide
  have hchildren : (hoistDomain shop).children =
      [shelf [titled none [titled (some "help")]], shelf [titled none]] := by decide
  obtain ⟨domain, children, rfl, heq, hdomain, hhoisted⟩ :=
    hoistDomain_of_namesDomain hnone fun e => namesDomain_shop
  rw [hfirst] at hdomain hhoisted
  rw [heq] at hchildren
  obtain rfl : children = _ := hchildren
  exact ⟨hnone, fun e => namesDomain_shop, hdomain, hhoisted⟩

end ContentSchema.Document
