import ContentSchema.Document.Content
import ContentSchema.Proofs.Field.Conversion
import ContentSchema.Proofs.Field.Validation
import ContentSchema.Proofs.Markup.Element
import ContentSchema.Proofs.Value.Order
import Mathlib.Data.Set.Defs

/-!
# Values in elements read back

`Expressible` says which values of a field have an element that reads back. The element may have
been changed in between in what does not count: lines, white space around items, and message domains
that are that of the document (`SameContent`).

Results: an expressible value has an element, and every element with the same content reads back as
the value (`Expressible.exists_element`).
-/
namespace ContentSchema.Document

open Markup (Element isPlainName)

/-! ## What counts in an element -/

mutual

/-- Whether a second element holds the value that the first one holds, in a document with the given
message domain. -/
inductive SameContent (domain : Option String) : Element → Element → Prop
  /-- Messages, texts and items are the same. -/
  | intro {e e' : Element}
    (translate : e'.get? translateAttribute = e.get? translateAttribute)
    (messageDomain : (e.get? translateAttribute).isSome = true →
      domain.isSome = true ∧ (e'.get? domainAttribute).or domain = e.get? domainAttribute)
    (text : e.children = [] → e'.text = e.text)
    (children : SameElements domain e.children e'.children) : SameContent domain e e'

/-- Whether elements are the same one by one, with what they hold. -/
inductive SameElements (domain : Option String) : List Element → List Element → Prop
  /-- No elements. -/
  | nil : SameElements domain [] []
  /-- The same first element, and the same others. -/
  | cons {e e' : Element} {es es' : List Element}
    (model : e'.isModelElement = e.isModelElement)
    (localName : e'.localName = e.localName)
    (attributes : ∀ name, name ≠ domainAttribute → e'.get? name = e.get? name)
    (content : SameContent domain e e')
    (rest : SameElements domain es es') : SameElements domain (e :: es) (e' :: es')

end

theorem translateAttribute_ne : translateAttribute ≠ domainAttribute := by decide

theorem keyAttribute_ne_domain : keyAttribute ≠ domainAttribute := by decide

theorem keyAttribute_ne_translate : keyAttribute ≠ translateAttribute := by decide

/-- The key of an entry is no part of what its element holds. -/
theorem SameContent.of_set_key {domain : Option String} {e e' : Element} {key : String}
    (h : SameContent domain (e.set keyAttribute key) e') : SameContent domain e e' := by
  obtain ⟨translate, messageDomain, text, children⟩ := h
  rw [Element.get?_set, if_neg keyAttribute_ne_translate] at translate messageDomain
  rw [Element.get?_set, if_neg keyAttribute_ne_domain] at messageDomain
  exact ⟨translate, messageDomain, text, children⟩

/-! ## Regular elements -/

/-- The attributes that written elements can have. -/
def attributeNames : List String :=
  ["name", "type", keyAttribute, "based-on", "label", "description", "order", translateAttribute,
    domainAttribute]

/-- Whether an element is one that can be written and read: it has attributes of models, each once,
messages in it have domains among the given ones, and the elements inside it have plain names. -/
inductive Regular (domains : Set String) : Element → Prop
  /-- The attributes are fine, and so are the elements inside. -/
  | intro {e : Element} (names : ∀ a ∈ e.attributes, a.1 ∈ attributeNames)
    (distinct : (e.attributes.map (·.1)).Nodup) (undeclared : e.namespaces = [])
    (marked : (e.get? translateAttribute).isSome = true →
      ∃ domain ∈ domains, e.get? domainAttribute = some domain)
    (tags : ∀ c ∈ e.children, isPlainName c.tag = true)
    (children : ∀ c ∈ e.children, Regular domains c) : Regular domains e

/-- Whether elements are regular ones with plain names. -/
def AllRegular (domains : Set String) (es : List Element) : Prop :=
  ∀ e ∈ es, isPlainName e.tag = true ∧ Regular domains e

section Regular

variable {domains : Set String} {e : Element}

theorem sameElements_refl {domain : Option String} {es : List Element}
    (h : ∀ e ∈ es, SameContent domain e e) : SameElements domain es es := by
  induction es with
  | nil => exact .nil
  | cons e es ih =>
    exact .cons rfl rfl (fun _ _ => rfl) (h e (.head _)) (ih fun c hc => h c (.tail _ hc))

/-- A regular element holds its own content in every document with a message domain. -/
theorem Regular.sameContent (h : Regular domains e) (domain : String) :
    SameContent (some domain) e e := by
  induction h with
  | @intro e names distinct undeclared marked tags children ih =>
    refine ⟨rfl, fun hm => ⟨rfl, ?_⟩, fun _ => rfl, sameElements_refl ih⟩
    obtain ⟨own, -, hown⟩ := marked hm
    rw [hown]
    rfl

theorem regular_unmarked {tag : String} {attributes : List (String × String)}
    {text : Option String} {children : List Element}
    (names : ∀ a ∈ attributes, a.1 ∈ ["name", "type", keyAttribute, "based-on", "label",
      "description", "order"]) (distinct : (attributes.map (·.1)).Nodup)
    (h : AllRegular domains children) : Regular domains { tag, attributes, text, children } := by
  refine .intro (fun a ha => ?_) distinct rfl (fun hm => ?_) (fun c hc => (h c hc).1)
    fun c hc => (h c hc).2
  · have hsub : ∀ name ∈ ["name", "type", keyAttribute, "based-on", "label", "description",
      "order"], name ∈ attributeNames := by decide
    exact hsub _ (names a ha)
  · have hne : ∀ name ∈ ["name", "type", keyAttribute, "based-on", "label", "description",
      "order"], name ≠ translateAttribute := by decide
    have hnone : attributes.find? (·.1 == translateAttribute) = none :=
      List.find?_eq_none.2 fun a ha => by simpa using hne _ (names a ha)
    simp [Element.get?, hnone] at hm

theorem Regular.set_key (h : Regular domains e) (key : String) :
    Regular domains (e.set keyAttribute key) := by
  obtain ⟨names, distinct, undeclared, marked, tags, children⟩ := h
  refine .intro (fun a ha => ?_) (Element.nodup_setPair _ _ distinct) undeclared ?_ tags children
  · rcases Element.mem_setPair ha with ha | ha
    · rw [ha]
      decide
    · exact names a ha
  · rwa [Element.get?_set, if_neg keyAttribute_ne_translate, Element.get?_set,
      if_neg keyAttribute_ne_domain]

theorem allRegular_nil : AllRegular domains [] := nofun

theorem allRegular_cons {es : List Element} (ht : isPlainName e.tag = true)
    (he : Regular domains e) (hes : AllRegular domains es) : AllRegular domains (e :: es) := by
  intro c hc
  rcases List.mem_cons.1 hc with rfl | hc
  · exact ⟨ht, he⟩
  · exact hes c hc

end Regular

/-! ## Expressible values -/

/-- Messages that an element can express: the identifier is not empty, nor is the text that is shown
for it, and there is a domain, which is one of the given ones. -/
def ProperMessage (domains : Set String) (m : Message) : Prop :=
  m.id ≠ "" ∧ m.default ≠ some "" ∧ ∃ domain ∈ domains, m.domain = some domain

/-- The values of a field that have an element. With `validate` the items have to be valid too, and
so has the text that is shown for a message. -/
inductive Expressible (resolve : Resolver) (domains : Set String) (validate : Bool) : Field → Value → Prop
  /-- A scalar with a text. -/
  | scalar {f : Field} {v : Value} (h : f.PlainScalar resolve v) : Expressible resolve domains validate f v
  /-- A message. -/
  | message {f : Field} {m : Message} (ht : admitsMessages f.type = true) (hm : ProperMessage domains m)
    (hbounds : validate = true → f.validateBounds (.text m.text) = .ok ()) :
    Expressible resolve domains validate f (.message m)
  /-- A sequence. -/
  | list {f : Field} {items : List Value} (ht : f.type = .list)
    (hitems : ∀ v ∈ items, Expressible resolve domains validate (itemField f.valueType) v)
    (hvalid : validate = true → ∀ v ∈ items, (itemField f.valueType).validate v = .ok ()) :
    Expressible resolve domains validate f (.list items)
  /-- An immutable sequence. -/
  | tuple {f : Field} {items : List Value} (ht : f.type = .tuple)
    (hitems : ∀ v ∈ items, Expressible resolve domains validate (itemField f.valueType) v)
    (hvalid : validate = true → ∀ v ∈ items, (itemField f.valueType).validate v = .ok ()) :
    Expressible resolve domains validate f (.tuple items)
  /-- A set, with its members in order. -/
  | set {f : Field} {items : List Value} (ht : f.type = .set ∨ f.type = .frozenSet)
    (hordered : Value.Ordered items)
    (hitems : ∀ v ∈ items, Expressible resolve domains validate (itemField f.valueType) v)
    (hvalid : validate = true → ∀ v ∈ items, (itemField f.valueType).validate v = .ok ()) :
    Expressible resolve domains validate f (.set items)
  /-- A dict, with its keys in order. -/
  | dict {f : Field} {entries : List (Value × Value)} (ht : f.type = .dict)
    (hordered : Value.OrderedKeys entries)
    (hkeys : ∀ e ∈ entries, (itemField f.keyType).PlainScalar resolve e.1)
    (hkeysValid : validate = true → ∀ e ∈ entries, (itemField f.keyType).validate e.1 = .ok ())
    (hitems : ∀ e ∈ entries, Expressible resolve domains validate (itemField f.valueType) e.2)
    (hvalid : validate = true → ∀ e ∈ entries, (itemField f.valueType).validate e.2 = .ok ()) :
    Expressible resolve domains validate f (.dict entries)

/-! ## Scalars -/

theorem accept_ok {f : Field} {validate : Bool} {v : Value}
    (h : validate = true → f.validate v = .ok ()) : f.accept validate v = .ok v := by
  unfold Field.accept
  cases validate with
  | false => rfl
  | true =>
    rw [if_pos rfl, h rfl]

theorem decode_eq (s : Surroundings) (validate : Bool) (f : Field) (e : Element) :
    decode s validate f e =
      if f.type = .dict then do
        let entries ← decodeEntries s validate (itemField f.keyType) (itemField f.valueType) e.children
        return some (← f.accept validate (Value.dictOf entries))
      else if f.type.isCollection then do
        let items ← decodeItems s validate (itemField f.valueType) e.children
        return some (← f.accept validate (collectionOf f.type items))
      else decodeScalar s validate f e := by
  obtain ⟨tag, attributes, children, text, line, namespaces⟩ := e
  rw [decode]

theorem asMessage_of_unmarked {domain : Option String} {e : Element} (v : Value)
    (h : e.get? translateAttribute = none) : asMessage domain e v = v := by
  unfold asMessage
  rw [h]
  cases v <;> cases domain <;> rfl

theorem not_container_of_plainScalar {resolve : Resolver} {f : Field} {v : Value}
    (h : f.PlainScalar resolve v) : f.type ≠ .dict ∧ f.type.isCollection = false := by
  cases h with
  | text ht => cases h : f.type <;> simp_all [FieldType.isTextual, FieldType.isCollection]
  | bytes ht => rcases ht with ht | ht <;> simp [ht, FieldType.isCollection]
  | bool ht | int ht | decimal ht | date ht | datetime ht | dotted ht | choice ht =>
    simp [ht, FieldType.isCollection]

theorem encode_scalar {resolve : Resolver} {f : Field} {v : Value} {text : String} (force : Bool)
    (tag : String) (h : f.PlainScalar resolve v) (ht : f.textOfValue v = .ok text)
    (hforce : force = true ∨ (f.missingValue == some v) = false) :
    encode force f tag v = .ok { tag, text := some text } := by
  have hf : (!force && f.missingValue == some v) = false := by
    rcases hforce with rfl | h <;> simp [*]
  cases h <;> simp only [encode, hf, ht, Bool.false_eq_true, if_false, bind, Except.bind, pure,
    Except.pure]

theorem valueOfText_ok {resolve : Resolver} {f : Field} {v : Value} {validate : Bool} {text : String}
    (hp : f.parseText resolve text = .ok v) (hv : validate = true → f.validate v = .ok ()) :
    f.valueOfText resolve validate text = .ok v := by
  rw [Field.valueOfText, hp]
  exact accept_ok hv

theorem decodeScalar_text {s : Surroundings} {validate : Bool} {f : Field} {e : Element} {v : Value}
    {text : String} (ht : e.text = some text) (hne : (text.isEmpty && !f.type.isTextual) = false)
    (hv : f.valueOfText s.resolve validate text = .ok v) :
    decodeScalar s validate f e = .ok (some (asMessage s.domain e v)) := by
  rw [decodeScalar, ht]
  simp only [hne, Bool.false_eq_true, if_false, hv, bind, Except.bind]
  rfl

/-! ## Messages -/

theorem encodeMessage_attributes (tag : String) (m : Message) :
    (encodeMessage tag m).get? domainAttribute = m.domain ∧
      (encodeMessage tag m).get? translateAttribute =
        some (if (m.default.filter (!·.isEmpty)).isSome then m.id else "") ∧
      (encodeMessage tag m).children = [] := by
  unfold encodeMessage
  cases m.default.filter (!·.isEmpty) <;> cases m.domain <;>
    simp [Element.set, Element.setPair, Element.get?, translateAttribute_ne,
      translateAttribute_ne.symm]

theorem text_encodeMessage (tag : String) {domains : Set String} {m : Message}
    (hm : ProperMessage domains m) :
    (encodeMessage tag m).text = some m.text := by
  obtain ⟨id, default, domain⟩ := m
  obtain ⟨-, hd, -⟩ := hm
  cases default with
  | none => rfl
  | some text =>
    have hf : (some text).filter (!·.isEmpty) = some text := by simpa [Option.filter] using hd
    simp only [encodeMessage, hf]
    rfl

theorem tag_encodeMessage (tag : String) (m : Message) : (encodeMessage tag m).tag = tag := by
  unfold encodeMessage
  cases m.default.filter (!·.isEmpty) <;> cases m.domain <;> rfl

/-- A proper message is told from its text by the attributes of its element. -/
theorem asMessage_of_sameContent {domain : Option String} {domains : Set String} {tag : String}
    {m : Message} {e' : Element} (hm : ProperMessage domains m)
    (h : SameContent domain (encodeMessage tag m) e') :
    asMessage domain e' (.text m.text) = .message m := by
  obtain ⟨hdomain, htranslate, -⟩ := encodeMessage_attributes tag m
  obtain ⟨translate, messageDomain, -, -⟩ := h
  rw [htranslate] at translate messageDomain
  obtain ⟨hd, hdom⟩ := messageDomain rfl
  rw [hdomain] at hdom
  obtain ⟨id, default, own⟩ := m
  obtain ⟨hid, hdefault, hown⟩ := hm
  obtain ⟨d, rfl⟩ := Option.isSome_iff_exists.1 hd
  obtain ⟨o, -, rfl⟩ := hown
  have hget : (e'.get? domainAttribute).getD d = o := by
    cases hg : e'.get? domainAttribute <;> simpa [hg] using hdom
  unfold asMessage
  rw [translate]
  simp only [hget]
  cases default with
  | none => rfl
  | some text =>
    have hf : (some text).filter (!·.isEmpty) = some text := by simpa [Option.filter] using hdefault
    simp only [hf, Option.isSome_some, if_true]
    rw [if_neg (by simpa using hid)]
    rfl

/-! ## Elements of values -/

/-- Whether an element stands for a value of a field: every element with the same content reads back
as the value, by the field and by looser ones. -/
structure Represents (resolve : Resolver) (domains : Set String) (validate : Bool) (f : Field)
    (e : Element) (v : Value) : Prop where
  /-- The element can be written and read. -/
  regular : Regular domains e
  /-- What has the same content is read as the value. -/
  decode {s : Surroundings} {g : Field} {e' : Element} (hs : s.resolve = resolve)
    (hg : g.Looser f) (h : SameContent s.domain e e') : decode s validate g e' = .ok (some v)

theorem looser_itemField {h f : Option Field} (hl : Field.LooserItem h f) :
    (itemField h).Looser (itemField f) := by
  cases h <;> cases f <;> first | exact hl | exact hl.elim | exact .refl _

theorem represents_scalar {resolve : Resolver} {domains : Set String} {validate : Bool} {f : Field}
    {v : Value} {text : String} (tag : String) (h : f.PlainScalar resolve v)
    (hp : ∀ {g : Field}, g.type = f.type → g.vocabulary = f.vocabulary →
      g.parseText resolve text = .ok v)
    (hne : (text.isEmpty && !f.type.isTextual) = false)
    (hv : validate = true → f.validate v = .ok ()) :
    Represents resolve domains validate f { tag, text := some text } v where
  regular := regular_unmarked (by simp) (by simp) allRegular_nil
  decode {s g e'} hs hg hsame := by
    obtain ⟨translate, -, htext, -⟩ := hsame
    obtain ⟨hdict, hcoll⟩ := not_container_of_plainScalar h
    subst hs
    rw [decode_eq, hg.type_eq, if_neg hdict, hcoll, if_neg Bool.false_ne_true,
      decodeScalar_text (htext rfl) (by rw [hg.type_eq]; exact hne)
        (valueOfText_ok (hp hg.type_eq hg.vocabulary_eq) fun hval => hg.validate v (hv hval)),
      asMessage_of_unmarked _ translate]

theorem regular_encodeMessage {domains : Set String} (tag : String) {m : Message}
    (hm : ProperMessage domains m) : Regular domains (encodeMessage tag m) := by
  obtain ⟨hdomain, -, hchildren⟩ := encodeMessage_attributes tag m
  obtain ⟨-, -, domain, hmem, hd⟩ := hm
  have hnodup : [domainAttribute, translateAttribute].Nodup := by decide
  have hattributes : (encodeMessage tag m).attributes.map (·.1) =
      [domainAttribute, translateAttribute] ∧ (encodeMessage tag m).namespaces = [] := by
    unfold encodeMessage
    rw [hd]
    cases m.default.filter (!·.isEmpty) <;>
      simp [Element.set, Element.setPair, translateAttribute_ne.symm]
  refine .intro (fun a ha => ?_) (by rw [hattributes.1]; exact hnodup) hattributes.2
    (fun _ => ⟨domain, hmem, hdomain.trans hd⟩) (by simp [hchildren]) (by simp [hchildren])
  have hnames : ∀ name ∈ [domainAttribute, translateAttribute], name ∈ attributeNames := by decide
  exact hnames _ (hattributes.1 ▸ List.mem_map.2 ⟨a, ha, rfl⟩)

theorem represents_message {resolve : Resolver} {domains : Set String} {validate : Bool} {f : Field}
    {m : Message} (tag : String) (ht : admitsMessages f.type = true) (hm : ProperMessage domains m)
    (hv : validate = true → f.validate (.text m.text) = .ok ()) :
    Represents resolve domains validate f (encodeMessage tag m) (.message m) where
  regular := regular_encodeMessage tag hm
  decode {s g e'} hs hg hsame := by
    obtain ⟨-, -, hchildren⟩ := encodeMessage_attributes tag m
    have htextual : g.type.isTextual = true := by
      rw [hg.type_eq]
      exact isTextual_of_admitsMessages ht
    have htext : e'.text = some m.text := by
      obtain ⟨-, -, htext, -⟩ := hsame
      rw [htext hchildren, text_encodeMessage tag hm]
    have hdict : g.type ≠ .dict := fun h => by simp [h, FieldType.isTextual] at htextual
    have hcoll : g.type.isCollection = false := by
      cases h : g.type <;> first | rfl | simp [h, FieldType.isTextual] at htextual
    rw [decode_eq, if_neg hdict, hcoll, if_neg Bool.false_ne_true,
      decodeScalar_text htext (by simp [htextual])
        (valueOfText_ok (Field.parseText_of_isTextual htextual _ _) fun hval =>
          hg.validate _ (hv hval)),
      asMessage_of_sameContent hm hsame]

theorem isItem_of_tag {e : Element} (h : e.tag = itemTag) : isItem e = true := by
  rw [isItem, Element.isModelElement, Element.localName, h]
  decide

/-- The items of a value have elements that read back, if each of them has one. -/
theorem exists_items {resolve : Resolver} {domains : Set String} {validate : Bool} {item : Field}
    {items : List Value}
    (h : ∀ v ∈ items, ∃ e, encode true item itemTag v = .ok e ∧ e.tag = itemTag ∧
      Represents resolve domains validate item e v) :
    ∃ es, encodeItems true item items = .ok es ∧
      AllRegular domains es ∧
      ∀ {s : Surroundings} {g : Field} {es' : List Element}, s.resolve = resolve → g.Looser item →
        SameElements s.domain es es' → decodeItems s validate g es' = .ok items := by
  induction items with
  | nil =>
    refine ⟨[], by rw [encodeItems], allRegular_nil, fun _ _ hsame => ?_⟩
    cases hsame
    rw [decodeItems]
  | cons v vs ih =>
    obtain ⟨e, he, htag, hrep⟩ := h v (.head _)
    obtain ⟨es, hes, hregular, hread⟩ := ih fun w hw => h w (.tail _ hw)
    refine ⟨e :: es, ?_, ?_, fun {s g es'} hs hg hsame => ?_⟩
    · simp only [encodeItems, he, hes, bind, Except.bind, pure, Except.pure]
    · exact allRegular_cons (by rw [htag]; decide) hrep.regular hregular
    · cases hsame with
      | @cons _ e' _ es' model localName attributes content rest =>
        have hitem' : isItem e' = true := by
          rw [← isItem_of_tag htag, isItem, isItem, model, localName]
        simp only [decodeItems, hitem', if_true, hrep.decode hs hg content, hread hs hg rest,
          requireItem, bind, Except.bind, pure, Except.pure]

/-- The entries of a dict have elements that read back, if each of their values has one. -/
theorem exists_entries {resolve : Resolver} {domains : Set String} {validate : Bool} {key item : Field}
    {entries : List (Value × Value)}
    (hkeys : ∀ d ∈ entries, key.PlainScalar resolve d.1)
    (hkeysValid : validate = true → ∀ d ∈ entries, key.validate d.1 = .ok ())
    (h : ∀ d ∈ entries, ∃ e, encode true item itemTag d.2 = .ok e ∧ e.tag = itemTag ∧
      Represents resolve domains validate item e d.2) :
    ∃ es, encodeEntries true key item entries = .ok es ∧
      AllRegular domains es ∧
      ∀ {s : Surroundings} {k g : Field} {es' : List Element}, s.resolve = resolve →
        k.Looser key → g.Looser item → SameElements s.domain es es' →
          decodeEntries s validate k g es' = .ok entries := by
  induction entries with
  | nil =>
    refine ⟨[], by rw [encodeEntries], allRegular_nil, fun _ _ _ hsame => ?_⟩
    cases hsame
    rw [decodeEntries]
  | cons d ds ih =>
    obtain ⟨k, v⟩ := d
    obtain ⟨text, htext, -, hparse⟩ := (hkeys _ (.head _)).exists_text
    obtain ⟨e, he, htag, hrep⟩ := h _ (.head _)
    obtain ⟨es, hes, hregular, hread⟩ := ih (fun d hd => hkeys d (.tail _ hd))
      (fun hv d hd => hkeysValid hv d (.tail _ hd)) fun d hd => h d (.tail _ hd)
    refine ⟨e.set keyAttribute text :: es, ?_, ?_, fun {s kf g es'} hs hk hg hsame => ?_⟩
    · simp only [encodeEntries, he, htext, hes, bind, Except.bind, pure, Except.pure]
    · exact allRegular_cons (by rw [Element.set, htag]; decide) (hrep.regular.set_key text) hregular
    · cases hsame with
      | @cons _ e' _ es' model localName attributes content rest =>
        have hitem' : isItem e' = true := by
          rw [← isItem_of_tag htag, isItem, isItem, model, localName]
          rfl
        have hget := attributes keyAttribute keyAttribute_ne_domain
        rw [Element.get?_set, if_pos rfl] at hget
        have hkey : kf.valueOfText s.resolve validate text = .ok k :=
          valueOfText_ok (by rw [hs]; exact hparse hk.type_eq hk.vocabulary_eq) fun hv =>
            hk.validate k (hkeysValid hv _ (.head _))
        simp only [decodeEntries, hitem', if_true, hget, hkey,
          hrep.decode hs hg content.of_set_key, hread hs hk hg rest, requireItem, bind, Except.bind,
          pure, Except.pure]

theorem represents_collection {resolve : Resolver} {domains : Set String} {validate : Bool}
    {f : Field} {v : Value} {items : List Value} {es : List Element} (tag : String) (ht : f.type.isCollection = true)
    (hcollection : collectionOf f.type items = v) (hv : validate = true → f.validate v = .ok ())
    (hregular : AllRegular domains es)
    (hread : ∀ {s : Surroundings} {g : Field} {es' : List Element}, s.resolve = resolve →
      g.Looser (itemField f.valueType) → SameElements s.domain es es' →
        decodeItems s validate g es' = .ok items) :
    Represents resolve domains validate f { tag, children := es } v where
  regular := regular_unmarked (by simp) (by simp) hregular
  decode {s g e'} hs hg hsame := by
    obtain ⟨-, -, -, hchildren⟩ := hsame
    have hdict : g.type ≠ .dict := fun h => by simp [← hg.type_eq, h, FieldType.isCollection] at ht
    rw [decode_eq, if_neg hdict, hg.type_eq, if_pos ht,
      hread hs (looser_itemField hg.value_item) hchildren]
    simp only [bind, Except.bind, hcollection, accept_ok fun hval => hg.validate v (hv hval)]
    rfl

theorem represents_dict {resolve : Resolver} {domains : Set String} {validate : Bool} {f : Field}
    {entries : List (Value × Value)} {es : List Element} (tag : String) (ht : f.type = .dict)
    (hordered : Value.OrderedKeys entries)
    (hv : validate = true → f.validate (.dict entries) = .ok ())
    (hregular : AllRegular domains es)
    (hread : ∀ {s : Surroundings} {k g : Field} {es' : List Element}, s.resolve = resolve →
      k.Looser (itemField f.keyType) → g.Looser (itemField f.valueType) →
        SameElements s.domain es es' → decodeEntries s validate k g es' = .ok entries) :
    Represents resolve domains validate f { tag, children := es } (.dict entries) where
  regular := regular_unmarked (by simp) (by simp) hregular
  decode {s g e'} hs hg hsame := by
    obtain ⟨-, -, -, hchildren⟩ := hsame
    rw [decode_eq, hg.type_eq, if_pos ht,
      hread hs (looser_itemField hg.key_item) (looser_itemField hg.value_item) hchildren]
    simp only [bind, Except.bind, Value.dictOf_of_ordered hordered,
      accept_ok fun hval => hg.validate _ (hv hval)]
    rfl

/-- An expressible value has an element that stands for it, if it is valid or need not be. -/
theorem Expressible.exists_element {resolve : Resolver} {domains : Set String} {validate : Bool}
    {f : Field} {v : Value} (h : Expressible resolve domains validate f v) (hv : validate = true → f.validate v = .ok ())
    (tag : String) :
    ∃ e, encode true f tag v = .ok e ∧ e.tag = tag ∧ Represents resolve domains validate f e v := by
  -- the items of a collection are what `exists_items` asks for, by the induction hypotheses
  have items {item : Field} {items : List Value}
      (ih : ∀ w ∈ items, (validate = true → item.validate w = .ok ()) → ∀ tag,
        ∃ e, encode true item tag w = .ok e ∧ e.tag = tag ∧
          Represents resolve domains validate item e w)
      (hvalid : validate = true → ∀ w ∈ items, item.validate w = .ok ()) :=
    exists_items fun w hw => ih w hw (fun hv => hvalid hv w hw) itemTag
  induction h generalizing tag with
  | @scalar f v h =>
    obtain ⟨text, htext, hne, hparse⟩ := h.exists_text
    exact ⟨_, encode_scalar true tag h htext (.inl rfl), rfl,
      represents_scalar tag h hparse hne hv⟩
  | @message f m ht hm hbounds =>
    refine ⟨_, ?_, tag_encodeMessage tag m, represents_message tag ht hm fun hval =>
      Field.validate_messageText ht (hv hval) (hbounds hval)⟩
    simp only [encode, Bool.not_true, Bool.false_and, Bool.false_eq_true, if_false]
  | @list f vs ht hitems hvalid ih =>
    obtain ⟨es, hes, hregular, hread⟩ := items ih hvalid
    refine ⟨{ tag, children := es }, ?_, rfl,
      represents_collection tag (by rw [ht]; rfl) (by rw [ht]; rfl) hv hregular hread⟩
    simp only [encode, Bool.not_true, Bool.false_and, Bool.false_eq_true, if_false, hes, bind,
      Except.bind, pure, Except.pure]
  | @tuple f vs ht hitems hvalid ih =>
    obtain ⟨es, hes, hregular, hread⟩ := items ih hvalid
    refine ⟨{ tag, children := es }, ?_, rfl,
      represents_collection tag (by rw [ht]; rfl) (by rw [ht]; rfl) hv hregular hread⟩
    simp only [encode, Bool.not_true, Bool.false_and, Bool.false_eq_true, if_false, hes, bind,
      Except.bind, pure, Except.pure]
  | @set f vs ht hordered hitems hvalid ih =>
    obtain ⟨es, hes, hregular, hread⟩ := items ih hvalid
    have hset : collectionOf f.type vs = .set vs := by
      rcases ht with ht | ht <;> rw [ht] <;> exact Value.setOf_of_ordered hordered
    refine ⟨{ tag, children := es }, ?_, rfl,
      represents_collection tag (by rcases ht with ht | ht <;> rw [ht] <;> rfl) hset hv hregular hread⟩
    simp only [encode, Bool.not_true, Bool.false_and, Bool.false_eq_true, if_false, hes, bind,
      Except.bind, pure, Except.pure]
  | @dict f ds ht hordered hkeys hkeysValid hitems hvalid ih =>
    obtain ⟨es, hes, hregular, hread⟩ := exists_entries hkeys hkeysValid fun d hd =>
      ih d hd (fun hv => hvalid hv d hd) itemTag
    refine ⟨{ tag, children := es }, ?_, rfl, represents_dict tag ht hordered hv hregular hread⟩
    simp only [encode, Bool.not_true, Bool.false_and, Bool.false_eq_true, if_false, hes, bind,
      Except.bind, pure, Except.pure]

/-! ## The round trip -/

end ContentSchema.Document
