import ContentSchema.Proofs.Document.Decoded
import ContentSchema.Proofs.Document.FirstDomain
import ContentSchema.Proofs.Document.Wording

/-!
# Texts for users in the element of a field

A message is read again as a message only where the document has a message domain, and with the same
identifier and text only if the element tells the one from the other (`Message.IsTold`); `Survives`
says what else becomes of it. The element of a field holds an element for each attribute that has to be
written (`IsWritten`, or with more markup around it `HoldsField`), so that a text that is read was
written, or is the empty text that is left out.

Result: the field that is read from the element of another one has its title, its description, and its
nested fields, in so far as messages survive (`reworded_of_readField`).
-/
namespace ContentSchema

/-! ## Messages -/

/-- What the element of a message holds: the text that is shown, or the identifier if that is empty. -/
def Message.written (m : Message) : String := if m.text = "" then m.id else m.text

/-- Whether a message can be told from others by its element: its identifier is empty just if the text
that is shown is. -/
def Message.IsTold (m : Message) : Prop := m.id = "" ↔ m.text = ""

namespace Document

open Markup (Element Writable isPlainName)

/-- What becomes of a text for users in a document with a message domain, or without one. -/
structure Survives (domain : Option String) (v v' : Value) : Prop where
  /-- A plain text is the same. -/
  text (t : String) : v = .text t → v' = .text t
  /-- A message is a message again, with the same identifier and the same text that is shown, just if
  the document has a domain and the message can be told. -/
  message (m : Message) : v = .message m →
    ((∃ m', v' = .message m' ∧ m'.id = m.id ∧ m'.text = m.text) ↔ domain ≠ none ∧ m.IsTold)
  /-- In a document without a domain it becomes a text. -/
  plain (m : Message) : v = .message m → domain = none → v' = .text m.written
  /-- A message that is read has its own domain, or else that of the document. -/
  ownDomain (m m' : Message) : v = .message m → v' = .message m' → m'.domain = m.domain.or domain

theorem survives_text (domain : Option String) (t : String) : Survives domain (.text t) (.text t) :=
  ⟨fun _ h => h, nofun, nofun, nofun⟩

/-- The element of a message holds its default and names its identifier, or holds the identifier. -/
theorem written_cases (m : Message) :
    (∃ text, text ≠ "" ∧ m.default.filter (!·.isEmpty) = some text ∧ m.written = text ∧
      m.text = text) ∨
    (m.default.filter (!·.isEmpty) = none ∧ m.written = m.id ∧ (m.text = m.id ∨ m.text = "")) := by
  obtain ⟨id, default, domain⟩ := m
  cases default with
  | none =>
    refine .inr ⟨rfl, ?_, .inl rfl⟩
    rw [Message.written, Message.text, Option.getD_none, ite_self]
  | some text =>
    by_cases h : text = ""
    · subst h
      exact .inr ⟨rfl, rfl, .inr rfl⟩
    · exact .inl ⟨text, h, by simp [Option.filter, h], if_neg h, rfl⟩

theorem text_encodeMessage_written (tag : String) (m : Message) :
    (encodeMessage tag m).text = some m.written := by
  rcases written_cases m with ⟨text, -, hfilter, hwritten, -⟩ | ⟨hfilter, hwritten, -⟩ <;>
    rw [hwritten, encodeMessage] <;> simp only [hfilter]

theorem asMessage_of_marked {domain id : String} {e : Element}
    (h : e.get? translateAttribute = some id) (text : String) :
    asMessage (some domain) e (.text text) =
      .message (if id.isEmpty then ⟨text, none, some ((e.get? domainAttribute).getD domain)⟩
        else ⟨id, some text, some ((e.get? domainAttribute).getD domain)⟩) := by
  unfold asMessage
  rw [h]

theorem survives_read {domain : Option String} {m m' : Message} (hdomain : domain ≠ none)
    (hown : m'.domain = m.domain.or domain)
    (hsame : m'.id = m.id ∧ m'.text = m.text ↔ m.IsTold) :
    Survives domain (.message m) (.message m') := by
  refine ⟨nofun, fun m₁ h₁ => ?_, fun _ _ h => absurd h hdomain, fun m₁ m₂ h₁ h₂ => ?_⟩
  · cases h₁
    rw [← hsame]
    refine ⟨fun ⟨m₂, h₂, hid, htext⟩ => ?_, fun h => ⟨m', rfl, h.2⟩⟩
    cases h₂
    exact ⟨hdomain, hid, htext⟩
  · cases h₁
    cases h₂
    exact hown

/-- What is read for a message from an element with its attributes. -/
theorem survives_message {domain : Option String} {m : Message} {e : Element}
    (htranslate : e.get? translateAttribute =
      some (if (m.default.filter (!·.isEmpty)).isSome then m.id else ""))
    (hdomain : domain ≠ none → (e.get? domainAttribute).or domain = m.domain.or domain) :
    Survives domain (.message m) (asMessage domain e (.text m.written)) := by
  cases domain with
  | none => exact ⟨nofun, fun _ _ => ⟨nofun, fun h => absurd rfl h.1⟩,
      fun _ h _ => by cases h; rfl, fun _ _ _ => nofun⟩
  | some d =>
    have hsome : some d ≠ none := Option.some_ne_none d
    have hown : some ((e.get? domainAttribute).getD d) = m.domain.or (some d) := by
      rw [← hdomain hsome]
      cases e.get? domainAttribute <;> rfl
    rw [asMessage_of_marked htranslate, hown]
    rcases written_cases m with ⟨text, hne, hfilter, hwritten, htext⟩ | ⟨hfilter, hwritten, htext⟩
    · rw [hfilter, hwritten, Option.isSome_some, if_pos rfl]
      by_cases hid : m.id = ""
      · rw [hid, if_pos (by rfl)]
        refine survives_read hsome rfl ⟨fun h => absurd (h.1.trans hid) hne, fun h => ?_⟩
        exact absurd (htext ▸ h.1 hid) hne
      · rw [if_neg (by simpa using hid)]
        exact survives_read hsome rfl ⟨fun _ => iff_of_false hid (htext ▸ hne),
          fun _ => ⟨rfl, htext.symm⟩⟩
    · rw [hfilter, hwritten, Option.isSome_none, if_neg Bool.false_ne_true, if_pos (by rfl)]
      refine survives_read hsome rfl ⟨fun h => ?_, fun h => ⟨rfl, ?_⟩⟩
      · rw [Message.IsTold, ← h.2]
        rfl
      · exact htext.elim Eq.symm fun he => (h.2 he).trans he.symm

/-! ## Texts -/

/-- A text is read as it stands, and then perhaps made a message. -/
theorem eq_of_decode_textual {s : Surroundings} {validate : Bool} {f : Field} {e : Element}
    {text : String} {v : Option Value} (hf : f.type.isTextual = true) (he : e.text = some text)
    (h : decode s validate f e = .ok v) : v = some (asMessage s.domain e (.text text)) := by
  have hdict : f.type ≠ .dict := fun ht => by simp [ht, FieldType.isTextual] at hf
  have hcollection : f.type.isCollection = false := by
    cases ht : f.type <;> first | rfl | simp [ht, FieldType.isTextual] at hf
  rw [decode_eq, if_neg hdict, hcollection, if_neg Bool.false_ne_true, decodeScalar, he] at h
  simp only [hf, Bool.not_true, Bool.and_false, Bool.false_eq_true, if_false] at h
  obtain ⟨u, hu, h⟩ := exists_of_bind h
  obtain ⟨parsed, hparsed, haccept⟩ := exists_of_bind hu
  rw [Field.parseText_of_isTextual hf] at hparsed
  cases hparsed
  rw [eq_of_accept haccept] at h
  exact (Except.ok.inj h).symm

theorem isTextual_attributeField (w : Wording) :
    (attributeField w.spec.kind).type.isTextual = true := by
  cases w <;> rfl

/-- A text for users is written as a plain text, or as a message. -/
theorem encode_wording {w : Wording} {v : Value} {c : Element}
    (h : encode (isForced w.spec.name) (attributeField w.spec.kind) w.spec.name v = .ok c) :
    (∀ t, v = .text t → c = { tag := w.spec.name, text := some t }) ∧
      ∀ m, v = .message m → c = encodeMessage w.spec.name m := by
  have hmissing : (!isForced w.spec.name &&
      (attributeField w.spec.kind).missingValue == some v) = false := by
    cases w <;> rfl
  have hobject : (attributeField w.spec.kind).type ≠ .object := by cases w <;> nofun
  constructor
  · rintro t rfl
    simp only [encode, hmissing, Bool.false_eq_true, if_false] at h
    obtain ⟨text, htext, h⟩ := exists_of_bind h
    simp only [Field.textOfValue, if_neg hobject, Value.text?] at htext
    cases htext
    exact (Except.ok.inj h).symm
  · rintro m rfl
    rw [encode, hmissing, if_neg Bool.false_ne_true] at h
    exact (Except.ok.inj h).symm

/-- What is read for a text for users. -/
theorem survives_of_decode {w : Wording} {v v' : Value} {u : Option Value} {c c' : Element}
    {first : Option String} {s : Surroundings} (hs : s.domain = first.filter (!·.isEmpty))
    (hc : encode (isForced w.spec.name) (attributeField w.spec.kind) w.spec.name v = .ok c)
    (h : Restored first c c') (hread : decode s true (attributeField w.spec.kind) c' = .ok u)
    (hexpect : Field.expectText w.spec.name u = .ok v') : Survives s.domain v v' := by
  obtain ⟨htext, hmessage⟩ := encode_wording hc
  have htextual := isTextual_attributeField w
  have htranslate := h.get? translateAttribute_ne
  obtain ⟨-, -, -, hdomain, hsame, -⟩ := h
  cases v with
  | text t =>
    rw [htext t rfl] at htranslate hsame
    obtain rfl := eq_of_decode_textual htextual (hsame rfl) hread
    rw [eq_of_expectText hexpect, asMessage_of_unmarked _ htranslate]
    exact survives_text _ t
  | message m =>
    obtain ⟨hown, hmarked, hchildren⟩ := encodeMessage_attributes w.spec.name m
    rw [hmessage m rfl] at htranslate hdomain hsame
    obtain rfl := eq_of_decode_textual htextual
      ((hsame hchildren).trans (text_encodeMessage_written _ m)) hread
    rw [eq_of_expectText hexpect]
    refine survives_message (htranslate.trans hmarked) fun hd => ?_
    obtain ⟨domain, hsome⟩ := Option.ne_none_iff_exists'.1 hd
    have hfirst : first = some domain :=
      (Option.filter_eq_some_iff.1 (hs.symm.trans hsome)).1
    rw [hsome, ← hfirst, ← hown]
    exact hdomain (by rw [hmarked]; rfl)
  | _ => exact ⟨nofun, nofun, nofun, nofun⟩

/-! ## What is written of a field -/

/-- The element of a nested field. -/
def nestedFieldElement (registry : Registry) (name : String) (k : Field) : Except Fault Element :=
  writeNested registry name k fun c => writeField registry k c none name

theorem exists_codec_of_nested {registry : Registry} {name : String} {k : Field} {c : Element}
    (h : nestedFieldElement registry name k = .ok c) :
    ∃ codec, registry.get? k.typeIdentifier = some codec ∧
      writeField registry k codec none name = .ok c := by
  unfold nestedFieldElement writeNested at h
  split at h
  · exact ⟨_, by assumption, h⟩
  · cases h

/-- The element of an attribute of a field, if it has to be written. -/
def attributeElement (registry : Registry) (f : Field) (spec : AttributeSpec) :
    Except Fault (Option Element) :=
  writeAttribute f (f.keyType.map (nestedFieldElement registry "key_type"))
    (f.valueType.map (nestedFieldElement registry "value_type")) spec

theorem attributeElement_value {registry : Registry} {f : Field} {spec : AttributeSpec}
    {v : Option Value} (h : f.attribute? spec.name = some (.value v)) :
    attributeElement registry f spec = writeValue f spec v := by
  simp only [attributeElement, writeAttribute, h]

theorem name_of_field {f : Field} {name : String} {k : Option Field}
    (h : f.attribute? name = some (.field k)) :
    name = "key_type" ∧ k = f.keyType ∨ name = "value_type" ∧ k = f.valueType := by
  unfold Field.attribute? at h
  split at h
  case h_18 =>
    cases h
    exact .inl ⟨rfl, rfl⟩
  case h_19 =>
    cases h
    exact .inr ⟨rfl, rfl⟩
  all_goals first | cases h | (split at h <;> cases h)

theorem attributeElement_nested {registry : Registry} {f k : Field} {spec : AttributeSpec}
    (h : f.attribute? spec.name = some (.field (some k))) :
    attributeElement registry f spec = do return some (← nestedFieldElement registry spec.name k) := by
  have hwrite : (if spec.name == "key_type" then f.keyType.map (nestedFieldElement registry "key_type")
      else f.valueType.map (nestedFieldElement registry "value_type")) =
        some (nestedFieldElement registry spec.name k) := by
    rcases name_of_field h with ⟨hname, hk⟩ | ⟨hname, hk⟩ <;> rw [hname, ← hk] <;> rfl
  simp only [attributeElement, writeAttribute, h, hwrite]

/-- What is written for an attribute of a field. -/
inductive WrittenAttribute (registry : Registry) (f : Field) (spec : AttributeSpec) :
    Option Element → Prop
  /-- The type has no such attribute. -/
  | unknown (h : f.attribute? spec.name = none) : WrittenAttribute registry f spec none
  /-- A value that is the default is left out. -/
  | default {v : Option Value} (h : f.attribute? spec.name = some (.value v))
    (hdefault : (v == spec.default) = true) : WrittenAttribute registry f spec none
  /-- There is no field. -/
  | noField (h : f.attribute? spec.name = some (.field none)) : WrittenAttribute registry f spec none
  /-- Other values have an element. -/
  | value {v : Option Value} {c : Element} (h : f.attribute? spec.name = some (.value v))
    (hdefault : (v == spec.default) = false)
    (hc : encodeOptional (isForced spec.name) (typedBy f spec) spec.name v = .ok c) :
    WrittenAttribute registry f spec (some c)
  /-- So have fields. -/
  | field {k : Field} {c : Element} (h : f.attribute? spec.name = some (.field (some k)))
    (hc : nestedFieldElement registry spec.name k = .ok c) : WrittenAttribute registry f spec (some c)

theorem writtenAttribute {registry : Registry} {f : Field} {spec : AttributeSpec} {w : Option Element}
    (h : attributeElement registry f spec = .ok w) : WrittenAttribute registry f spec w := by
  cases hattribute : f.attribute? spec.name with
  | none =>
    rw [attributeElement, writeAttribute, hattribute] at h
    cases h
    exact .unknown hattribute
  | some held =>
    cases held with
    | value v =>
      rw [attributeElement_value hattribute, writeValue] at h
      split at h
      · rename_i hdefault
        cases h
        exact .default hattribute hdefault
      · rename_i hdefault
        obtain ⟨c, hc, h⟩ := exists_of_bind h
        cases h
        exact .value hattribute (Bool.eq_false_of_not_eq_true hdefault) hc
    | field k =>
      cases k with
      | none =>
        rw [attributeElement, writeAttribute, hattribute] at h
        cases h
        exact .noField hattribute
      | some k =>
        rw [attributeElement_nested hattribute] at h
        obtain ⟨c, hc, h⟩ := exists_of_bind h
        cases h
        exact .field hattribute hc

/-- An attribute that has an element holds a value that is not its default, or a field. -/
theorem written_of_attributeElement {registry : Registry} {f : Field} {spec : AttributeSpec} {c : Element}
    (h : attributeElement registry f spec = .ok (some c)) :
    (∃ v, f.attribute? spec.name = some (.value v) ∧
        encodeOptional (isForced spec.name) (typedBy f spec) spec.name v = .ok c) ∨
      ∃ k, f.attribute? spec.name = some (.field (some k)) ∧
        nestedFieldElement registry spec.name k = .ok c := by
  cases writtenAttribute h with
  | value hv _ hc => exact .inl ⟨_, hv, hc⟩
  | field hk hc => exact .inr ⟨_, hk, hc⟩

/-- The attributes of the element of a field. -/
def fieldAttributes (label : Option String) (identifier : String) : List (String × String) :=
  (match label with
    | some n => [("name", n)]
    | none => []) ++ [("type", identifier)]

/-- What the element is that was written for a field. -/
structure IsWritten (registry : Registry) (f : Field) (codec : FieldCodec) (label : Option String)
    (tag : String) (e : Element) : Prop where
  /-- The tag. -/
  tag : e.tag = tag
  /-- The type stands in an attribute, after the name if there is one. -/
  attributes : e.attributes = fieldAttributes label f.typeIdentifier
  /-- No namespace is declared. -/
  namespaces : e.namespaces = []
  /-- The elements inside are those of attributes, and that of terms. -/
  inside (c : Element) : c ∈ e.children → (∃ name spec, codec.attributes.get? name = some spec ∧
    attributeElement registry f spec = .ok (some c)) ∨ writeTerms f = .ok c
  /-- Each attribute has its element inside, if it has one. -/
  written (name : String) (spec : AttributeSpec) : codec.attributes.get? name = some spec →
    codec.writes spec.name = true →
      ∃ w, attributeElement registry f spec = .ok w ∧ ∀ c, w = some c → c ∈ e.children

/-- What the element of a field is: inside are the elements of attributes in the order of their codec, and
for a choice the one of its terms. -/
theorem exists_of_writeField {registry : Registry} {f : Field} {codec : FieldCodec}
    {label : Option String} {tag : String} {e : Element}
    (h : writeField registry f codec label tag = .ok e) :
    ∃ written terms, e = { tag, attributes := fieldAttributes label f.typeIdentifier,
                           children := written.filterMap id ++ terms } ∧
      List.Forall₂ (fun spec w => attributeElement registry f spec = .ok w)
        (codec.attributes.values.filter fun spec => codec.writes spec.name) written ∧
      if codec.type = .choice then ∃ c, terms = [c] ∧ writeTerms f = .ok c else terms = [] := by
  rw [writeField_eq] at h
  obtain ⟨written, hwritten, h⟩ := exists_of_bind h
  obtain ⟨terms, hterms, h⟩ := exists_of_bind h
  cases h
  refine ⟨written, terms, rfl, forall₂_of_mapM hwritten, ?_⟩
  split at hterms
  · obtain ⟨c, hc, rfl⟩ := exists_of_map hterms
    rw [if_pos ‹_›]
    exact ⟨c, rfl, hc⟩
  · cases hterms
    rw [if_neg ‹_›]

theorem isWritten_of_writeField {registry : Registry} {f : Field} {codec : FieldCodec}
    {label : Option String} {tag : String} {e : Element}
    (h : writeField registry f codec label tag = .ok e) : IsWritten registry f codec label tag e := by
  obtain ⟨written, terms, rfl, hall, hterms⟩ := exists_of_writeField h
  refine ⟨rfl, rfl, rfl, fun c hc => ?_, fun name spec hspec hwrites => ?_⟩
  · rcases List.mem_append.1 hc with hc | hc
    · obtain ⟨w, hw, rfl⟩ := List.mem_filterMap.1 hc
      obtain ⟨spec, hmem, hok⟩ := exists_of_forall₂_right hall hw
      obtain ⟨⟨name, _⟩, hentry, rfl⟩ := List.mem_map.1 (List.mem_filter.1 hmem).1
      exact .inl ⟨name, _, (NameMap.mem_entries_iff _).1 hentry, hok⟩
    · split at hterms
      · obtain ⟨d, rfl, hd⟩ := hterms
        exact .inr (List.mem_singleton.1 hc ▸ hd)
      · rw [hterms] at hc
        cases hc
  · have hmem : spec ∈ codec.attributes.values.filter (fun spec => codec.writes spec.name) :=
      List.mem_filter.2 ⟨List.mem_map.2 ⟨(name, spec), (NameMap.mem_entries_iff _).2 hspec, rfl⟩, hwrites⟩
    obtain ⟨w, hw, hok⟩ := exists_of_forall₂_right hall.flip hmem
    exact ⟨w, hok, fun c hc => List.mem_append_left _ (List.mem_filterMap.2 ⟨w, hw, hc⟩)⟩

/-! ## Tags -/

/-- The element of a value has the tag that was asked for. -/
theorem tag_encode {force : Bool} {f : Field} {tag : String} {v : Value} {e : Element}
    (h : encode force f tag v = .ok e) : e.tag = tag := by
  cases v with
  | message m =>
    simp only [encode] at h
    split at h <;> cases h
    · rfl
    · exact tag_encodeMessage tag m
  | _ =>
    simp only [encode] at h
    split at h
    · cases h
      rfl
    · obtain ⟨_, -, h⟩ := exists_of_bind h
      cases h
      rfl

theorem tag_writeTerms {f : Field} {c : Element} (h : writeTerms f = .ok c) :
    c.tag = "vocabulary" ∨ c.tag = "values" := by
  unfold writeTerms at h
  split at h
  · exact .inl (tag_encode h)
  · obtain ⟨_, -, h⟩ := exists_of_bind h
    obtain ⟨_, -, h⟩ := exists_of_bind h
    cases h
    exact .inr rfl
  · cases h
  · cases h

/-- The element of an attribute has the name of the attribute for a tag. -/
theorem tag_attributeElement {registry : Registry} {f : Field} {spec : AttributeSpec} {c : Element}
    (h : attributeElement registry f spec = .ok (some c)) : c.tag = spec.name := by
  rcases written_of_attributeElement h with ⟨v, -, hv⟩ | ⟨k, -, hk⟩
  · cases v with
    | none =>
      cases hv
      rfl
    | some v => exact tag_encode hv
  · obtain ⟨codec, -, hwrite⟩ := exists_codec_of_nested hk
    exact (isWritten_of_writeField hwrite).tag

/-- Whether an element of the model has a name, without a namespace. -/
theorem model_of_plain {c : Element} {name : String} (ht : c.tag = name)
    (hn : isPlainName name = true) : c.isModelElement = true ∧ c.localName = name := by
  obtain ⟨hmodel, hlocal⟩ := Element.isModelElement_of_plain (ht.symm ▸ hn)
  exact ⟨hmodel, hlocal.trans ht⟩

/-! ## Elements that can be written -/

/-- Elements of fields can stand in documents. -/
theorem writable_writeField {registry : Registry} (hr : registry.NamesPlainly) {f : Field}
    {codec : FieldCodec} (hc : codec.NamesPlainly) {label : Option String} {tag : String}
    (ht : isPlainName tag = true) {e : Element} (h : writeField registry f codec label tag = .ok e) :
    Writable e := by
  induction f using Field.nested_induction generalizing codec label tag e with
  | step f key value =>
    obtain ⟨htag, hattributes, hnamespaces, hinside, -⟩ := isWritten_of_writeField h
    have hchildren : ∀ c ∈ e.children, Writable c := fun c hmem => by
      rcases hinside c hmem with ⟨name, spec, hspec, hwritten⟩ | hterms
      · have hplain : isPlainName spec.name = true := by
          obtain ⟨hname, hplain⟩ := hc name spec hspec
          rwa [hname]
        rcases written_of_attributeElement hwritten with ⟨v, -, hv⟩ | ⟨k, hk, hnested⟩
        · cases v with
          | none =>
            cases hv
            exact writable_of_children hplain (List.forall_mem_nil _)
          | some v => exact (failsOnly_encode _ _ hplain v).ok c hv
        · obtain ⟨nested, hfound, hnested⟩ := exists_codec_of_nested hnested
          rcases name_of_field hk with ⟨-, hk⟩ | ⟨-, hk⟩
          · exact key k hk.symm (hr _ _ hfound) hplain hnested
          · exact value k hk.symm (hr _ _ hfound) hplain hnested
      · exact (failsOnly_writeTerms f).ok c hterms
    have hplain : Writable
        { tag, attributes := fieldAttributes label f.typeIdentifier, children := e.children } :=
      writable_fieldElement ht hchildren
    obtain ⟨-, names, distinct, -, -⟩ := hplain
    exact .intro (htag ▸ ht) (hattributes ▸ names) (hattributes ▸ distinct) hnamespaces hchildren

/-! ## Fields -/

/-- Whether the type by which a field is written has a nested field of a name. -/
def Declares (registry : Registry) (f : Field) (name : String) : Prop :=
  ∃ codec, registry.get? f.typeIdentifier = some codec ∧ codec.attributes.get? name ≠ none

/-- Whether a field that was read has the texts for users of one that was written, and so have the
fields nested in it. -/
inductive Reworded (registry : Registry) (domain : Option String) : Field → Field → Prop
  /-- The texts survive, here and in the nested fields that the type has. -/
  | intro {f g : Field} (wording : ∀ w : Wording, Survives domain (w.of f) (w.of g))
    (key : Declares registry f "key_type" →
      Option.Rel (Reworded registry domain) f.keyType g.keyType)
    (value : Declares registry f "value_type" →
      Option.Rel (Reworded registry domain) f.valueType g.valueType) : Reworded registry domain f g

/-- What the element of a field holds, whatever else is written there in other namespaces. -/
structure HoldsField (registry : Registry) (f : Field) (codec : FieldCodec) (label : Option String)
    (e : Element) : Prop where
  /-- The name of the field stands in an attribute, if it has one. -/
  named : e.get? "name" = label
  /-- So does the type. -/
  typed : e.get? "type" = some f.typeIdentifier
  /-- The elements of the model inside are those of attributes, and that of terms. -/
  inside (c : Element) : c ∈ e.children → c.isModelElement = true →
    (∃ name spec, codec.attributes.get? name = some spec ∧
      attributeElement registry f spec = .ok (some c)) ∨ writeTerms f = .ok c
  /-- Each attribute has its element inside, if it has one. -/
  written (name : String) (spec : AttributeSpec) : codec.attributes.get? name = some spec →
    codec.writes spec.name = true →
      ∃ w, attributeElement registry f spec = .ok w ∧ ∀ c, w = some c → c ∈ e.children

theorem IsWritten.holdsField {registry : Registry} {f : Field} {codec : FieldCodec}
    {label : Option String} {tag : String} {e : Element} (he : IsWritten registry f codec label tag e) :
    HoldsField registry f codec label e := by
  have hget (name : String) :
      e.get? name = ((fieldAttributes label f.typeIdentifier).find? (·.1 == name)).map (·.2) := by
    rw [Element.get?, he.attributes]
  refine ⟨(hget _).trans ?_, (hget _).trans ?_, fun c hc _ => he.inside c hc, he.written⟩ <;>
    cases label <;> simp [fieldAttributes]

section Field

variable {registry : Registry} {f g : Field} {codec : FieldCodec} (hc : codec.CarriesWording)

include hc

/-- The element of an attribute is one of the model, under the name of the attribute. -/
theorem model_attributeElement {name : String} {spec : AttributeSpec} {c : Element}
    (hspec : codec.attributes.get? name = some spec)
    (h : attributeElement registry f spec = .ok (some c)) :
    c.isModelElement = true ∧ c.localName = name := by
  obtain ⟨hname, hplain⟩ := hc.named name spec hspec
  exact model_of_plain ((tag_attributeElement h).trans hname) hplain

variable {label : Option String} {e e' : Element} {first : Option String}
  (he : HoldsField registry f codec label e) (h : Restored first e e') {name : String}
  (hn : name ∈ wordedAttributes) {s : Scope}

include he h hn

/-- An attribute with texts for users that is read from an element was written as the element that is
restored there. -/
theorem exists_written_of_gives {c' : Element} (hmem : c' ∈ e'.children)
    (hgives : GivesAttribute s codec name g c') :
    ∃ spec c, codec.attributes.get? name = some spec ∧ spec.name = name ∧ Restored first c c' ∧
      attributeElement registry f spec = .ok (some c) := by
  obtain ⟨c, hc', hrestored⟩ := exists_of_forall₂_right h.children hmem
  have hlocal : c.localName = name := hrestored.localName.symm.trans hgives.localName
  rcases he.inside c hc' (hrestored.model.symm.trans hgives.model) with ⟨key, spec, hspec, hok⟩ | hterms
  · obtain rfl : key = name := (model_attributeElement hc hspec hok).2.symm.trans hlocal
    exact ⟨spec, c, hspec, (hc.named key spec hspec).1, hrestored, hok⟩
  · have hout : "vocabulary" ∉ wordedAttributes ∧ "values" ∉ wordedAttributes := by decide
    rw [← hlocal] at hn
    rcases tag_writeTerms hterms with ht | ht
    · rw [(model_of_plain ht (by decide)).2] at hn
      exact absurd hn hout.1
    · rw [(model_of_plain ht (by decide)).2] at hn
      exact absurd hn hout.2

/-- An attribute with texts for users that no element gives was not written. -/
theorem unwritten_of_not_gives (hnone : ∀ c ∈ e'.children, c.isModelElement = true →
    c.localName = name → codec.attributes.get? name = none) {spec : AttributeSpec}
    (hspec : codec.attributes.get? name = some spec) : attributeElement registry f spec = .ok none := by
  have hname := (hc.named name spec hspec).1
  obtain ⟨w, hok, hinside⟩ := he.written name spec hspec (hname.symm ▸ hc.writes name hn)
  cases w with
  | none => exact hok
  | some c =>
    obtain ⟨c', hmem, hrestored⟩ := exists_of_forall₂_right h.children.flip (hinside c rfl)
    obtain ⟨hmodel, hlocal⟩ := model_attributeElement hc hspec hok
    rw [hnone c' hmem (hrestored.model.trans hmodel) (hrestored.localName.trans hlocal)] at hspec
    cases hspec

end Field

/-- A title or description is read as a text. -/
theorem exists_text_of_readDescription {s : Scope} {f f' : Field} {w : Wording} {e : Element}
    {m n : Nat} (h : (readDescription s f w.spec e).Yields m n f') :
    ∃ u, decode s.toSurroundings true (attributeField w.spec.kind) e = .ok u ∧
      Field.expectText w.spec.name u = .ok (w.of f') := by
  cases w with
  | title =>
    obtain ⟨_, u, hdecode, h⟩ := Reading.Yields.bind (x := decode s.toSurroundings true _ e) h
    obtain ⟨v, hexpect, hset⟩ := exists_of_bind (Reading.yields_ofModel h).2
    cases hset
    exact ⟨u, (Reading.yields_liftM hdecode).2, hexpect⟩
  | description =>
    obtain ⟨_, u, hdecode, h⟩ := Reading.Yields.bind (x := decode s.toSurroundings true _ e) h
    obtain ⟨v, hexpect, hset⟩ := exists_of_bind (Reading.yields_ofModel h).2
    cases hset
    exact ⟨u, (Reading.yields_liftM hdecode).2, hexpect⟩

/-- A nested field is read by the codec of its type. -/
theorem exists_field_of_readDescription {s : Scope} {f f' : Field} {spec : AttributeSpec} {e : Element}
    {m n : Nat} (hk : spec.kind = .nestedField) (h : (readDescription s f spec e).Yields m n f') :
    ∃ type codec k i j, e.get? "type" = some type ∧ s.registry.get? type = some codec ∧
      (readField s codec e).Yields i j k ∧ f'.attribute? spec.name = some (.field (some k)) := by
  rw [readDescription, if_pos hk] at h
  obtain ⟨_, codec, hcodec, h⟩ := h.bind
  obtain ⟨_, k, hread, h⟩ := h.bind
  have hcodec := (Reading.yields_liftM hcodec).2
  unfold nestedCodec at hcodec
  split at hcodec
  · cases hcodec
  · rename_i type htype
    split at hcodec
    · rename_i found
      cases hcodec
      exact ⟨type, _, k, _, _, htype, found, hread, (changesOnly_setNested (Reading.yields_ofModel h).2).2⟩
    · cases hcodec

theorem of_eq_of_attribute? {w : Wording} {f g : Field}
    (h : f.attribute? w.spec.name = g.attribute? w.spec.name) : w.of f = w.of g := by
  rw [w.attribute?_spec, w.attribute?_spec] at h
  exact Option.some.inj (AttributeValue.value.inj (Option.some.inj h))

section RoundTrip

variable {registry : Registry} (hr : registry.CarriesWording) {f g : Field}
  {codec : FieldCodec} (hcodec : registry.get? f.typeIdentifier = some codec) {label : Option String}
  {e e' : Element} {first : Option String}
  (he : HoldsField registry f codec label e) (h : Restored first e e') {s : Scope} {m n : Nat}
  (hread : (readField s codec e').Yields m n g)

include hr hcodec he h hread

/-- A title or description that is read was written, or is the empty text. -/
theorem survives_wording (hd : s.domain = first.filter (!·.isEmpty)) (w : Wording) :
    Survives s.domain (w.of f) (w.of g) := by
  have hc := hr _ _ hcodec
  rcases givesAttribute_of_readField hc hread w.name_mem with ⟨c', hmem, hgives⟩ | ⟨hnew, hnone⟩
  · obtain ⟨spec, c, hspec, -, hrestored, hok⟩ :=
      exists_written_of_gives hc he h w.name_mem hmem hgives
    cases hspec.symm.trans (hc.wording w)
    obtain ⟨spec', k, k', i, j, hspec', hdescribe, hsame⟩ := hgives.read
    cases hspec'.symm.trans (hc.wording w)
    obtain ⟨u, hdecode, hexpect⟩ := exists_text_of_readDescription hdescribe
    rw [of_eq_of_attribute? hsame]
    rcases written_of_attributeElement hok with ⟨v, hv, hencode⟩ | ⟨k, hk, -⟩
    · cases hv.symm.trans (w.attribute?_spec f)
      have htyped : typedBy f w.spec = attributeField w.spec.kind := by cases w <;> rfl
      rw [htyped] at hencode
      exact survives_of_decode hd hencode hrestored hdecode hexpect
    · cases hk.symm.trans (w.attribute?_spec f)
  · have hok := unwritten_of_not_gives hc he h w.name_mem hnone (hc.wording w)
    rw [attributeElement_value (w.attribute?_spec f), writeValue] at hok
    have hempty : w.of f = .text "" := by
      split at hok
      · rename_i hdefault
        have hspec : w.spec.default = some (.text "") := by cases w <;> rfl
        rw [hspec] at hdefault
        exact Option.some.inj (eq_of_beq_text hdefault)
      · obtain ⟨_, -, hok⟩ := exists_of_bind hok
        cases hok
    have hempty' : w.of g = .text "" := by
      rw [of_eq_of_attribute? hnew]
      cases w <;> rfl
    rw [hempty, hempty']
    exact survives_text _ ""

/-- A nested field that is read was written, or is not there. -/
theorem rel_nested {name : String} (hname : name = "key_type" ∨ name = "value_type") {k l : Option Field}
    (hf : f.attribute? name = some (.field k)) (hg : g.attribute? name = some (.field l))
    (hs : s.registry = registry) (hdeclares : Declares registry f name) {R : Field → Field → Prop}
    (ih : ∀ a, k = some a → ∀ {b : Field} {codec : FieldCodec} {e e' : Element} {m n : Nat},
      registry.get? a.typeIdentifier = some codec → HoldsField registry a codec none e →
      Restored first e e' → (readField s codec e').Yields m n b → R a b) : Option.Rel R k l := by
  have hc := hr _ _ hcodec
  have hn : name ∈ wordedAttributes := by rcases hname with rfl | rfl <;> decide
  obtain ⟨codec', hcodec', hdeclared⟩ := hdeclares
  cases hcodec'.symm.trans hcodec
  obtain ⟨spec, hspec⟩ := Option.ne_none_iff_exists'.1 hdeclared
  rcases givesAttribute_of_readField hc hread hn with ⟨c', hmem, hgives⟩ | ⟨hnew, hnone⟩
  · obtain ⟨spec', c, hspec', rfl, hrestored, hok⟩ := exists_written_of_gives hc he h hn hmem hgives
    obtain ⟨spec'', f₁, f₂, i, j, hspec'', hdescribe, hsame⟩ := hgives.read
    cases hspec''.symm.trans hspec'
    obtain ⟨type, codec₂, b, p, q, htype, hcodec₂, hreads, hset⟩ :=
      exists_field_of_readDescription (hc.nested _ spec' hname hspec') hdescribe
    cases (hg.symm.trans hsame).trans hset
    rcases written_of_attributeElement hok with ⟨v, hv, -⟩ | ⟨a, ha, hnested⟩
    · cases hv.symm.trans hf
    · cases hf.symm.trans ha
      obtain ⟨codec₁, hcodec₁, hwrite⟩ := exists_codec_of_nested hnested
      have hwritten := (isWritten_of_writeField hwrite).holdsField
      rw [hrestored.get? (by decide), hwritten.typed] at htype
      cases htype
      rw [hs] at hcodec₂
      cases hcodec₂.symm.trans hcodec₁
      exact .some (ih a rfl hcodec₁ hwritten hrestored hreads)
  · have hok := unwritten_of_not_gives hc he h hn hnone hspec
    have hname' := (hc.named name spec hspec).1
    have hl : l = none := by
      rw [hg] at hnew
      rcases hname with rfl | rfl <;> cases hnew <;> rfl
    have hk : k = none := by
      cases k with
      | none => rfl
      | some a =>
        rw [attributeElement_nested (hname'.symm ▸ hf)] at hok
        obtain ⟨_, -, hok⟩ := exists_of_bind hok
        cases hok
    rw [hl, hk]
    exact .none

end RoundTrip

/-- A field that is read from the element of another one has its texts for users, as far as the message
domain of the document goes. -/
theorem reworded_of_readField {registry : Registry} (hr : registry.CarriesWording)
    {f g : Field} {codec : FieldCodec} (hcodec : registry.get? f.typeIdentifier = some codec)
    {label : Option String} {e e' : Element} {first : Option String}
    (he : HoldsField registry f codec label e) (h : Restored first e e') {s : Scope}
    (hs : s.registry = registry) (hd : s.domain = first.filter (!·.isEmpty)) {m n : Nat}
    (hread : (readField s codec e').Yields m n g) : Reworded registry s.domain f g := by
  induction f using Field.nested_induction generalizing g codec label e e' m n with
  | step f key value =>
    refine .intro (survives_wording hr hcodec he h hread hd) (fun hdeclares => ?_) fun hdeclares => ?_
    · exact rel_nested hr hcodec he h hread (.inl rfl) rfl rfl hs hdeclares
        fun a ha _ _ _ _ _ _ hcodec he h hread => key a ha hcodec he h hread
    · exact rel_nested hr hcodec he h hread (.inr rfl) rfl rfl hs hdeclares
        fun a ha _ _ _ _ _ _ hcodec he h hread => value a ha hcodec he h hread

end Document
end ContentSchema
