import ContentSchema.Document.ModelWriter
import ContentSchema.Proofs.Document.Content
import ContentSchema.Proofs.Markup.Document

/-!
# Message domains of documents

A document names the message domain that is met first at its root, and an element with a message
only where the domain is another one. Nothing is lost by that: each element that is read has the
content that it had before (`Carries`).

Results: a document is written for regular elements inside a root, and what is read from it has the
first domain and the same content (`read_write_hoistDomain`).
-/
namespace ContentSchema.Document

open Markup (Element Writable Reread IsAttributeName isPlainName qualified i18nNamespace
  modelNamespace)

/-! ## One element -/

/-- The domains of messages that a document can name. -/
def properDomains : Set String := { domain | domain ≠ "" }

/-- Whether a message domain is still the one that was found before. -/
def Extends (before after : Option String) : Prop := ∀ domain, before = some domain → after = some domain

theorem Extends.trans {a b c : Option String} (hab : Extends a b) (hbc : Extends b c) :
    Extends a c := fun domain h => hbc domain (hab domain h)

/-- The attribute of the domain is taken away, or nothing is. -/
theorem fst_takeDomain (e : Element) (before : Option String) :
    (takeDomain e before).1 = e ∨ (takeDomain e before).1 = e.erase domainAttribute := by
  unfold takeDomain
  split
  · exact .inl rfl
  · dsimp only
    split
    · exact .inr rfl
    · exact .inl rfl

/-- What taking the domain of an element changes: an attribute that says what the root will say. -/
structure TakesDomain (e : Element) (before : Option String) (taken : Element × Option String) :
    Prop where
  /-- Attributes are only left out. -/
  attributes : taken.1.attributes.Sublist e.attributes
  /-- Nothing but attributes changes. -/
  others : taken.1 = { e with attributes := taken.1.attributes }
  /-- No other attribute is left out. -/
  get? (name : String) : name ≠ domainAttribute → taken.1.get? name = e.get? name
  /-- A domain that was found stays. -/
  keeps : Extends before taken.2
  /-- An element with a message has a domain, its own or that of the root. -/
  domain : (e.get? translateAttribute).isSome = true → taken.2.isSome = true ∧
    (taken.1.get? domainAttribute).or taken.2 = e.get? domainAttribute
  /-- The empty domain is not found. -/
  proper : before ≠ some "" → taken.2 ≠ some ""

theorem takesDomain_keep {e : Element} (h : Regular properDomains e) {before after : Option String}
    (hkeeps : Extends before after)
    (hmarked : (e.get? translateAttribute).isSome = true → after.isSome = true)
    (hproper : before ≠ some "" → after ≠ some "") : TakesDomain e before (e, after) := by
  obtain ⟨-, -, -, marked, -, -⟩ := h
  refine ⟨List.Sublist.refl _, by cases e; rfl, fun _ _ => rfl, hkeeps, fun hm => ⟨hmarked hm, ?_⟩,
    hproper⟩
  obtain ⟨domain, -, hdomain⟩ := marked hm
  rw [hdomain]
  rfl

theorem takesDomain_erase {e : Element} (h : Regular properDomains e) {before : Option String}
    {domain : String} (hkeeps : Extends before (some domain))
    (hdomain : e.get? domainAttribute = some domain) (hproper : domain ≠ "") :
    TakesDomain e before (e.erase domainAttribute, some domain) := by
  obtain ⟨-, distinct, -, -, -, -⟩ := h
  refine ⟨List.eraseP_sublist, rfl, fun name hn => ?_, hkeeps, fun _ => ⟨rfl, ?_⟩, fun _ heq =>
    hproper (Option.some.inj heq)⟩
  · rw [Element.get?_erase distinct, if_neg (Ne.symm hn)]
  · rw [Element.get?_erase distinct, if_pos rfl, hdomain]
    rfl

theorem takesDomain {e : Element} (h : Regular properDomains e) (before : Option String) :
    TakesDomain e before (takeDomain e before) := by
  obtain ⟨-, -, -, marked, -, -⟩ := id h
  unfold takeDomain
  cases hm : e.get? translateAttribute with
  | none => exact takesDomain_keep h (fun _ hb => hb) (by simp [hm]) id
  | some id =>
    obtain ⟨domain, hproper, hdomain⟩ := marked (by rw [hm]; rfl)
    simp only [Option.isNone_some, Bool.false_eq_true, if_false, hdomain, Option.orElse_some]
    cases before with
    | none =>
      simp only [Option.orElse_none, BEq.rfl, if_true]
      exact takesDomain_erase h nofun hdomain hproper
    | some root =>
      by_cases hroot : domain = root
      · subst hroot
        simp only [Option.orElse_some, BEq.rfl, if_true]
        exact takesDomain_erase h (fun _ hb => hb) hdomain hproper
      · have hne : (some domain == some root) = false := by simpa using hroot
        simp only [Option.orElse_some, hne, Bool.false_eq_true, if_false]
        exact takesDomain_keep h (fun _ hb => hb) (fun _ => rfl) (fun hb => hb)

/-! ## Whole trees -/

/-- Whether an element that is read holds what another one held, in a document with a message
domain. -/
def HoldsSame (domain : Option String) (e e' : Element) : Prop :=
  e'.isModelElement = e.isModelElement ∧ e'.localName = e.localName ∧
    (∀ name, name ≠ domainAttribute → e'.get? name = e.get? name) ∧ SameContent domain e e'

/-- What a walk makes of an element, and of the domain that was found before: an element that can be
written, and holds the same when it is read. -/
structure Walked (e : Element) (before : Option String) (walked : Element × Option String) :
    Prop where
  /-- The element can be written. -/
  writable : Writable walked.1
  /-- A domain that was found stays. -/
  keeps : Extends before walked.2
  /-- The empty domain is not found. -/
  proper : before ≠ some "" → walked.2 ≠ some ""
  /-- What is read holds the same. -/
  same {domain : Option String} {e' : Element} (hd : Extends walked.2 domain)
    (he : Reread walked.1 e') : HoldsSame domain e e'

/-- What a walk makes of elements. -/
structure AllWalked (es : List Element) (before : Option String)
    (walked : List Element × Option String) : Prop where
  /-- The elements can be written. -/
  writable : ∀ e ∈ walked.1, Writable e
  /-- No element is lost. -/
  length : walked.1.length = es.length
  /-- A domain that was found stays. -/
  keeps : Extends before walked.2
  /-- The empty domain is not found. -/
  proper : before ≠ some "" → walked.2 ≠ some ""
  /-- What is read holds the same. -/
  same {domain : Option String} {es' : List Element} (hd : Extends walked.2 domain)
    (hes : List.Forall₂ Reread walked.1 es') : SameElements domain es es'

theorem allWalked {es : List Element}
    (h : ∀ e ∈ es, ∀ before, Walked e before (Element.walk takeDomain before e))
    (before : Option String) : AllWalked es before (Element.walkAll takeDomain before es) := by
  induction es generalizing before with
  | nil =>
    rw [Element.walkAll]
    refine ⟨List.forall_mem_nil _, rfl, fun _ hb => hb, id, fun _ hes => ?_⟩
    cases hes
    exact .nil
  | cons e es ih =>
    have hfirst := h e (.head _) before
    have hothers := ih (fun c hc => h c (.tail _ hc)) (Element.walk takeDomain before e).2
    rw [Element.walkAll]
    refine ⟨fun c hc => ?_, congrArg (· + 1) hothers.length, hfirst.keeps.trans hothers.keeps,
      fun hb => hothers.proper (hfirst.proper hb), fun hd hes => ?_⟩
    · rcases List.mem_cons.1 hc with rfl | hc
      · exact hfirst.writable
      · exact hothers.writable c hc
    · cases hes with
      | cons he hes =>
        obtain ⟨model, localName, attributes, content⟩ := hfirst.same (hothers.keeps.trans hd) he
        exact .cons model localName attributes content (hothers.same hd hes)

theorem isAttributeName_of_mem {name : String} (h : name ∈ attributeNames) :
    IsAttributeName name := by
  have hall : ∀ n ∈ attributeNames, (isPlainName n = true ∧ n ≠ "xmlns") ∨ n = translateAttribute ∨
      n = domainAttribute := by decide
  rcases hall name h with hplain | rfl | rfl
  · exact .inl hplain
  · exact .inr ⟨"translate", by decide, rfl⟩
  · exact .inr ⟨"domain", by decide, rfl⟩

theorem get?_of_attributes {e e' : Element} (h : e'.attributes = e.attributes) (name : String) :
    e'.get? name = e.get? name := by
  rw [Element.get?, h, Element.get?]

/-- A walk through an element that can be written. -/
theorem walked {e : Element} (h : Regular properDomains e) (ht : isPlainName e.tag = true)
    (before : Option String) : Walked e before (Element.walk takeDomain before e) := by
  induction h generalizing before with
  | @intro e names distinct undeclared marked tags children ih =>
    have htakes := takesDomain (.intro names distinct undeclared marked tags children) before
    have hall := allWalked (fun c hc => ih c hc (tags c hc)) (takeDomain e before).2
    rw [Element.walk_eq]
    generalize takeDomain e before = taken at htakes hall
    generalize Element.walkAll takeDomain taken.2 e.children = inside at hall
    obtain ⟨hsub, hothers, hget, hkeeps, hdomain, hproper⟩ := htakes
    have htag : taken.1.tag = e.tag := by rw [hothers]
    have htext : taken.1.text = e.text := by rw [hothers]
    have hnamespaces : taken.1.namespaces = e.namespaces := by rw [hothers]
    refine ⟨.intro (htag ▸ ht) (fun a ha => ?_) ((hsub.map _).nodup distinct)
      (hnamespaces.trans undeclared) hall.writable, hkeeps.trans hall.keeps,
      fun hb => hall.proper (hproper hb), fun {domain e'} hd he => ?_⟩
    · exact isAttributeName_of_mem (names a (hsub.subset ha))
    · obtain ⟨htag', hattributes, htext', hchildren⟩ := he
      have hget' (name : String) : e'.get? name = taken.1.get? name :=
        get?_of_attributes hattributes name
      obtain ⟨hmodel', hlocal'⟩ := Element.isModelElement_of_qualified (htag'.trans (by rw [htag]))
      obtain ⟨hmodel, hlocal⟩ := Element.isModelElement_of_plain ht
      refine ⟨hmodel'.trans hmodel.symm, hlocal'.trans hlocal.symm,
        fun name hn => (hget' name).trans (hget name hn), ?_, fun hm => ?_, fun hnil => ?_,
        hall.same hd hchildren⟩
      · exact (hget' _).trans (hget _ translateAttribute_ne)
      · obtain ⟨hsome, hor⟩ := hdomain hm
        obtain ⟨own, hown⟩ := Option.isSome_iff_exists.1 hsome
        have hdomain : domain = some own := hd own (hall.keeps own hown)
        rw [hget', hdomain, ← hown]
        exact ⟨hsome, hor⟩
      · have hempty : inside.1 = [] :=
          List.eq_nil_of_length_eq_zero (hall.length.trans (by rw [hnil]; rfl))
        exact (htext' hempty).trans htext

/-! ## The root -/

/-- The root element of a document without handlers. -/
theorem modelElement_eq {c : Context} (hschemas : c.schemaHandlers = []) (hfields : c.fieldHandlers = [])
    (schemas : List (String × Schema)) :
    modelElement c schemas = (do
      let children ← schemas.mapM fun s => schemaElement c s.1 s.2
      return hoistDomain { tag := "model", namespaces := Markup.declared, children }) := by
  have hprefixes : (announcedPrefixes c).entries = [] := by
    rw [announcedPrefixes, hschemas, hfields]
    rfl
  unfold modelElement
  simp only [hprefixes, List.foldl_nil]
  rfl

/-- A root element without a domain gets the one that was found as its last attribute, unless it is
empty. -/
theorem hoistDomain_of_get? {root : Element} (h : root.get? domainAttribute = none) :
    hoistDomain root = { root with
      attributes := root.attributes ++ ((Element.walkAll takeDomain none root.children).2.filter
        (!·.isEmpty)).toList.map (domainAttribute, ·)
      children := (Element.walkAll takeDomain none root.children).1 } := by
  unfold hoistDomain
  rw [h]
  dsimp only
  cases (Element.walkAll takeDomain none root.children).2.filter (!·.isEmpty) with
  | none => simp only [Option.toList_none, List.map_nil, List.append_nil]
  | some domain =>
    have hchildren :
        { root with children := (Element.walkAll takeDomain none root.children).1 }.get?
          domainAttribute = none := h
    exact Element.set_of_get?_eq_none hchildren domain

/-- The root element, which gets the domain that was found as its only attribute, unless it is
empty. -/
theorem hoistDomain_eq {root : Element} (h : root.attributes = []) :
    hoistDomain root = { root with
      attributes := ((Element.walkAll takeDomain none root.children).2.filter (!·.isEmpty)).toList.map
        (domainAttribute, ·)
      children := (Element.walkAll takeDomain none root.children).1 } := by
  have hnone : root.get? domainAttribute = none := by
    rw [Element.get?, h]
    rfl
  rw [hoistDomain_of_get? hnone, h, List.nil_append]

theorem filter_of_proper {domain : Option String} (h : domain ≠ some "") :
    domain.filter (!·.isEmpty) = domain := by
  cases domain with
  | none => rfl
  | some domain =>
    have hne : domain ≠ "" := fun he => h (congrArg some he)
    simp [Option.filter, hne]

/-- A document is written for regular elements inside a root, and what is read from it holds the
same. -/
theorem read_write_hoistDomain {root : Element} (ht : isPlainName root.tag = true)
    (hattributes : root.attributes = []) (hdeclared : root.namespaces = Markup.declared)
    (hc : AllRegular properDomains root.children) (pretty : Bool) :
    ∃ text root', (hoistDomain root).write pretty = .ok text ∧ Element.read text = .ok root' ∧
      root'.tag = qualified root.tag modelNamespace ∧
      SameElements (root'.get? domainAttribute) root.children root'.children := by
  have hall := allWalked (fun c hc' => walked (hc c hc').2 (hc c hc').1) none
  have hhoist := hoistDomain_eq hattributes
  rw [filter_of_proper (hall.proper nofun)] at hhoist
  generalize Element.walkAll takeDomain none root.children = inside at hall hhoist
  rw [hhoist]
  have hnames : ∀ a ∈ inside.2.toList.map (domainAttribute, ·), IsAttributeName a.1 := fun a ha => by
    obtain ⟨domain, -, rfl⟩ := List.mem_map.1 ha
    exact isAttributeName_of_mem (show domainAttribute ∈ attributeNames by decide)
  have hdistinct : ((inside.2.toList.map (domainAttribute, ·)).map (·.1)).Nodup := by
    cases inside.2 <;> simp
  let hoisted : Element := { root with
    attributes := inside.2.toList.map (domainAttribute, ·), children := inside.1 }
  obtain ⟨text, root', hwrite, hread, tag, attributes, -, children⟩ :=
    Markup.read_write (show isPlainName hoisted.tag = true from ht) hnames hdistinct hdeclared
      hall.writable pretty
  refine ⟨text, root', hwrite, hread, tag, hall.same (fun domain hd => ?_) children⟩
  rw [get?_of_attributes attributes, Element.get?]
  simp [hoisted, hd]

end ContentSchema.Document
