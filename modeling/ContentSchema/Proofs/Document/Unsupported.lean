import ContentSchema.Proofs.Document.Domain
import ContentSchema.Proofs.Document.FieldWriter

/-!
# What documents cannot express

Writing fails in one way only: a document cannot express something. `FailsOnly` says so of a step, with
the reason, and also what the step gives where it does not fail. A value has no element if a scalar in
it has no text (`Textless`), and the terms of a choice have one if they are plain (`PlainTerms`).

Result: a field has an element that can stand in a document, or is `Inexpressible` at some level
(`failsOnly_writeField`).
-/
namespace ContentSchema.Document

open FieldCodec (standard)
open Markup (Element Writable IsAttributeName isPlainName)

/-! ## Steps that fail in one way -/

/-- Whether a step gives something good, or fails because a document cannot express something, for a
reason. -/
structure FailsOnly {α : Type} (x : Except Fault α) (good : α → Prop) (reason : Prop) : Prop where
  /-- What the step gives is good. -/
  ok (a : α) : x = .ok a → good a
  /-- The fault is that of a document, and there is the reason. -/
  error (fault : Fault) : x = .error fault → (∃ cause, fault = .notSupported cause) ∧ reason

section Steps

variable {α β : Type} {x : Except Fault α} {good : α → Prop} {reason : Prop}

theorem failsOnly_ok {a : α} (h : good a) : FailsOnly (.ok a) good reason :=
  ⟨fun _ ha => Except.ok.inj ha ▸ h, nofun⟩

theorem failsOnly_unsupported {cause : Unsupported} (h : reason) :
    FailsOnly (.error (.notSupported cause)) good reason :=
  ⟨nofun, fun _ he => Except.error.inj he ▸ ⟨⟨cause, rfl⟩, h⟩⟩

theorem FailsOnly.imp {good' : α → Prop} {reason' : Prop} (h : FailsOnly x good reason)
    (hgood : ∀ a, good a → good' a) (hreason : reason → reason') : FailsOnly x good' reason' :=
  ⟨fun a ha => hgood a (h.ok a ha),
    fun fault hf => ⟨(h.error fault hf).1, hreason (h.error fault hf).2⟩⟩

theorem FailsOnly.bind {k : α → Except Fault β} {good' : β → Prop} (hx : FailsOnly x good reason)
    (hk : ∀ a, good a → FailsOnly (k a) good' reason) : FailsOnly (x >>= k) good' reason := by
  cases x with
  | error fault => exact ⟨nofun, fun _ he => Except.error.inj he ▸ hx.error fault rfl⟩
  | ok a => exact hk a (hx.ok a rfl)

theorem FailsOnly.of_ok {k : α → Except Fault β} {good : β → Prop} {a : α}
    (h : FailsOnly (k a) good reason) : FailsOnly (.ok a >>= k) good reason := h

theorem FailsOnly.mapM {f : α → Except Fault β} {good : β → Prop} {as : List α}
    (h : ∀ a ∈ as, FailsOnly (f a) good reason) :
    FailsOnly (as.mapM f) (fun bs => ∀ b ∈ bs, good b) reason := by
  induction as with
  | nil => exact failsOnly_ok nofun
  | cons a as ih =>
    rw [List.mapM_cons]
    refine (h a (.head _)).bind fun b hb => ?_
    refine (ih fun a ha => h a (.tail _ ha)).bind fun bs hbs => failsOnly_ok ?_
    exact List.forall_mem_cons.2 ⟨hb, hbs⟩

end Steps

/-! ## Elements that can be written -/

theorem writable_of_children {tag : String} {children : List Element} {text : Option String}
    (ht : isPlainName tag = true) (h : ∀ c ∈ children, Writable c) :
    Writable { tag, children, text } :=
  .intro ht nofun List.nodup_nil rfl h

theorem writable_set {e : Element} (h : Writable e) {name : String} (hn : name ∈ attributeNames)
    (value : String) : Writable (e.set name value) := by
  obtain ⟨tag, names, distinct, undeclared, children⟩ := h
  refine .intro tag (fun a ha => ?_) (Element.nodup_setPair _ _ distinct) undeclared children
  rcases Element.mem_setPair ha with ha | ha
  · exact ha ▸ isAttributeName_of_mem hn
  · exact names a ha

theorem writable_text {e : Element} (h : Writable e) (text : Option String) :
    Writable { e with text } := by
  obtain ⟨tag, names, distinct, undeclared, children⟩ := h
  exact .intro tag names distinct undeclared children

theorem writable_encodeMessage {tag : String} (ht : isPlainName tag = true) (m : Message) :
    Writable (encodeMessage tag m) := by
  have hleaf : Writable { tag } := writable_of_children ht (List.forall_mem_nil _)
  unfold encodeMessage
  cases m.domain with
  | none =>
    dsimp only
    split <;> exact writable_text (writable_set hleaf (by decide) _) _
  | some domain =>
    have hdomain : Writable (({ tag } : Element).set domainAttribute domain) :=
      writable_set hleaf (by decide) domain
    dsimp only
    split <;> exact writable_text (writable_set hdomain (by decide) _) _

/-! ## Values -/

/-- Whether a value has no text for a field. -/
def HasNoText (f : Field) (v : Value) : Prop := ∀ text, f.textOfValue v ≠ .ok text

/-- Whether some scalar in a value has no text for its field. -/
inductive Textless : Field → Value → Prop
  /-- The value itself. -/
  | scalar {f : Field} {v : Value} (hv : v.isContainer = false)
    (h : HasNoText f v) : Textless f v
  /-- An item of a collection. -/
  | item {f : Field} {members : List Value} {v w : Value}
    (hv : v = .list members ∨ v = .tuple members ∨ v = .set members) (hw : w ∈ members)
    (h : Textless (itemField f.valueType) w) : Textless f v
  /-- A key of a mapping. -/
  | key {f : Field} {entries : List (Value × Value)} {d : Value × Value} (hd : d ∈ entries)
    (h : HasNoText (itemField f.keyType) d.1) : Textless f (.dict entries)
  /-- A value of a mapping. -/
  | value {f : Field} {entries : List (Value × Value)} {d : Value × Value} (hd : d ∈ entries)
    (h : Textless (itemField f.valueType) d.2) : Textless f (.dict entries)

theorem failsOnly_textOfValue (f : Field) (v : Value) :
    FailsOnly (f.textOfValue v) (fun _ => True) (HasNoText f v) := by
  refine ⟨fun _ _ => trivial, fun fault hf => ⟨?_, fun text ht => ?_⟩⟩
  · unfold Field.textOfValue at hf
    split at hf
    · exact ⟨_, (Except.error.inj hf).symm⟩
    · split at hf
      · simp only [Field.textOfBytes] at hf
        split at hf
        · exact ⟨_, (Except.error.inj hf).symm⟩
        · cases hf
      · split at hf
        · cases hf
        · exact ⟨_, (Except.error.inj hf).symm⟩
  · rw [hf] at ht
    cases ht

theorem isPlainName_itemTag : isPlainName itemTag = true := by decide

/-- The element of a value is empty, or holds what is made of the value. -/
theorem failsOnly_encode_of_step {force : Bool} {f : Field} {tag : String} {v : Value}
    {x : Except Fault Element} {reason : Prop} (ht : isPlainName tag = true)
    (hx : FailsOnly x Writable reason) :
    FailsOnly (if !force && f.missingValue == some v then .ok { tag } else x) Writable reason := by
  split
  · exact failsOnly_ok (writable_of_children ht nofun)
  · exact hx

theorem failsOnly_children {x : Except Fault (List Element)} {tag : String} {reason reason' : Prop}
    (ht : isPlainName tag = true) (hx : FailsOnly x (fun es => ∀ e ∈ es, Writable e) reason)
    (h : reason → reason') :
    FailsOnly (do let children ← x; return ({ tag, children } : Element)) Writable reason' :=
  (hx.imp (fun _ => id) h).bind fun _ hes => failsOnly_ok (writable_of_children ht hes)

mutual

/-- A value has an element, unless some scalar in it has no text. -/
theorem failsOnly_encode (force : Bool) (f : Field) {tag : String} (ht : isPlainName tag = true)
    (v : Value) : FailsOnly (encode force f tag v) Writable (Textless f v) := by
  match v with
  | .dict entries =>
    simp only [encode]
    refine failsOnly_encode_of_step ht (failsOnly_children ht
      (failsOnly_encodeEntries force _ _ entries) ?_)
    rintro ⟨d, hd, hkey | hvalue⟩
    · exact .key hd hkey
    · exact .value hd hvalue
  | .list members =>
    simp only [encode]
    exact failsOnly_encode_of_step ht (failsOnly_children ht
      (failsOnly_encodeItems force _ members) fun ⟨w, hw, h⟩ => .item (.inl rfl) hw h)
  | .tuple members =>
    simp only [encode]
    exact failsOnly_encode_of_step ht (failsOnly_children ht
      (failsOnly_encodeItems force _ members) fun ⟨w, hw, h⟩ => .item (.inr (.inl rfl)) hw h)
  | .set members =>
    simp only [encode]
    exact failsOnly_encode_of_step ht (failsOnly_children ht
      (failsOnly_encodeItems force _ members) fun ⟨w, hw, h⟩ => .item (.inr (.inr rfl)) hw h)
  | .message m =>
    simp only [encode]
    exact failsOnly_encode_of_step ht (failsOnly_ok (writable_encodeMessage ht m))
  | .bool _ | .int _ | .float _ | .decimal _ | .text _ | .bytes _ | .date _ | .datetime _
  | .dotted _ =>
    simp only [encode]
    refine failsOnly_encode_of_step ht ?_
    exact ((failsOnly_textOfValue f _).imp (fun _ => id) (.scalar rfl)).bind fun _ _ =>
      failsOnly_ok (writable_of_children ht nofun)

/-- Items have elements, unless some scalar in them has no text. -/
theorem failsOnly_encodeItems (force : Bool) (item : Field) (vs : List Value) :
    FailsOnly (encodeItems force item vs) (fun es => ∀ e ∈ es, Writable e)
      (∃ w ∈ vs, Textless item w) := by
  match vs with
  | [] =>
    simp only [encodeItems]
    exact failsOnly_ok nofun
  | v :: vs =>
    simp only [encodeItems]
    have hfirst : FailsOnly (encode force item itemTag v) Writable (∃ w ∈ v :: vs, Textless item w) :=
      (failsOnly_encode force item isPlainName_itemTag v).imp (fun _ => id) fun h => ⟨v, .head _, h⟩
    have hmore : FailsOnly (encodeItems force item vs) (fun es => ∀ e ∈ es, Writable e)
        (∃ w ∈ v :: vs, Textless item w) :=
      (failsOnly_encodeItems force item vs).imp (fun _ => id) fun ⟨w, hw, h⟩ => ⟨w, .tail _ hw, h⟩
    exact hfirst.bind fun e he => hmore.bind fun es hes =>
      failsOnly_ok (List.forall_mem_cons.2 ⟨he, hes⟩)

/-- Entries have elements, unless some scalar in them has no text. -/
theorem failsOnly_encodeEntries (force : Bool) (key item : Field) (ds : List (Value × Value)) :
    FailsOnly (encodeEntries force key item ds) (fun es => ∀ e ∈ es, Writable e)
      (∃ d ∈ ds, HasNoText key d.1 ∨ Textless item d.2) := by
  match ds with
  | [] =>
    simp only [encodeEntries]
    exact failsOnly_ok nofun
  | (k, v) :: ds =>
    simp only [encodeEntries]
    have hvalue : FailsOnly (encode force item itemTag v) Writable
        (∃ d ∈ (k, v) :: ds, HasNoText key d.1 ∨ Textless item d.2) :=
      (failsOnly_encode force item isPlainName_itemTag v).imp (fun _ => id)
        fun h => ⟨(k, v), .head _, .inr h⟩
    have hkey : FailsOnly (key.textOfValue k) (fun _ => True)
        (∃ d ∈ (k, v) :: ds, HasNoText key d.1 ∨ Textless item d.2) :=
      (failsOnly_textOfValue key k).imp (fun _ => id) fun h => ⟨(k, v), .head _, .inl h⟩
    have hmore : FailsOnly (encodeEntries force key item ds) (fun es => ∀ e ∈ es, Writable e)
        (∃ d ∈ (k, v) :: ds, HasNoText key d.1 ∨ Textless item d.2) :=
      (failsOnly_encodeEntries force key item ds).imp (fun _ => id)
        fun ⟨d, hd, h⟩ => ⟨d, .tail _ hd, h⟩
    exact hvalue.bind fun e he => hkey.bind fun _ _ => hmore.bind fun es hes =>
      failsOnly_ok (List.forall_mem_cons.2 ⟨writable_set he (by decide) _, hes⟩)

end

/-- Texts and messages have a text, except for objects. -/
theorem not_textless_of_displayText {f : Field} {v : Value} (hf : f.type ≠ .object)
    (hv : v.displayText? ≠ none) : ¬ Textless f v := by
  intro h
  cases h with
  | scalar hcontainer h =>
    cases v with
    | text s => exact h s (by simp [Field.textOfValue, hf, Value.text?])
    | message m => exact h m.id (by simp [Field.textOfValue, hf, Value.text?])
    | _ => exact hv rfl
  | item hcontainer hw h => rcases hcontainer with rfl | rfl | rfl <;> exact hv rfl
  | key hd h => exact hv rfl
  | value hd h => exact hv rfl

/-! ## The terms of choices -/

/-- The terms that a document can express: the name of a vocabulary, or texts that stand for
themselves, with texts or messages for titles. -/
def PlainTerms : TermSource → Prop
  | .named _ => True
  | .inline v => ∀ t ∈ v.terms, t.value.plainText? ≠ none ∧ t.token = tokenFor t.value ∧
      ∀ title, t.title = some title → title.displayText? ≠ none
  | .source _ => False

theorem failsOnly_termText (f : Field) (t : Term) :
    FailsOnly (termText f t) (fun _ => True)
      (t.value.plainText? = none ∨ t.token ≠ tokenFor t.value) := by
  have htoken (text : String) : FailsOnly
      (if t.token == tokenFor t.value then pure text
        else throw (Fault.notSupported (.termToken f.name t.token)) : Except Fault String)
      (fun _ => True) (t.value.plainText? = none ∨ t.token ≠ tokenFor t.value) := by
    split
    · exact failsOnly_ok trivial
    · rename_i h
      exact failsOnly_unsupported (.inr (by simpa using h))
  unfold termText
  generalize t.value = value at htoken
  cases value with
  | text s => exact .of_ok (htoken s)
  | int n => exact .of_ok (htoken (int64Text n))
  | _ => exact failsOnly_unsupported (.inl rfl)

theorem failsOnly_writeTerm (keyed : Bool) (t : Term) (text : String) :
    FailsOnly (writeTerm keyed t text) Writable
      (∃ title, t.title = some title ∧ title.displayText? = none) := by
  have htype : (Field.ofType .text).type ≠ .object := nofun
  unfold writeTerm
  split
  · have htitle : FailsOnly (encode true (Field.ofType .text) itemTag (t.title.getD (.text text)))
        Writable (∃ title, t.title = some title ∧ title.displayText? = none) := by
      refine (failsOnly_encode true _ isPlainName_itemTag _).imp (fun _ => id) fun h => ?_
      cases htitle : t.title with
      | none =>
        rw [htitle] at h
        exact absurd h (not_textless_of_displayText htype nofun)
      | some title =>
        rw [htitle] at h
        refine ⟨title, rfl, ?_⟩
        by_contra hd
        exact not_textless_of_displayText htype hd h
    exact htitle.bind fun e he => failsOnly_ok (writable_set he (by decide) _)
  · exact failsOnly_ok (writable_of_children isPlainName_itemTag nofun)

theorem failsOnly_writeVocabulary (f : Field) (v : Vocabulary) :
    FailsOnly (writeVocabulary f v) Writable (¬ PlainTerms (.inline v)) := by
  unfold writeVocabulary
  have htexts : FailsOnly (v.terms.mapM (termText f)) (fun _ => True) (¬ PlainTerms (.inline v)) := by
    refine (FailsOnly.mapM fun t ht => (failsOnly_termText f t).imp (fun _ => id) ?_).imp
      (fun _ _ => trivial) id
    exact fun h hplain => h.elim (hplain t ht).1 (· (hplain t ht).2.1)
  refine htexts.bind fun texts _ => ?_
  dsimp only
  refine failsOnly_children (by decide) (FailsOnly.mapM fun t ht => ?_) id
  refine (failsOnly_writeTerm _ t.1 t.2).imp (fun _ => id) ?_
  rintro ⟨title, htitle, hnone⟩ hplain
  exact (hplain t.1 (List.of_mem_zip ht).1).2.2 title htitle hnone

/-- The terms of a choice have an element, if they are there and plain. -/
theorem failsOnly_writeTerms (f : Field) :
    FailsOnly (writeTerms f) Writable (∀ source, f.vocabulary = some source → ¬ PlainTerms source) := by
  unfold writeTerms
  split
  · refine (failsOnly_encode true _ (by decide) _).imp (fun _ => id) fun h => ?_
    exact absurd h (not_textless_of_displayText nofun nofun)
  · rename_i v hv
    refine (failsOnly_writeVocabulary f v).imp (fun _ => id) fun h source hs => ?_
    rw [hv] at hs
    exact Option.some.inj hs ▸ h
  · rename_i identifier hv
    refine failsOnly_unsupported fun source hs => ?_
    rw [hv] at hs
    cases hs
    exact id
  · rename_i hv
    refine failsOnly_unsupported fun source hs => ?_
    rw [hv] at hs
    cases hs

/-! ## Fields -/

/-- The field by which an attribute of the field `f` is written that holds a value. -/
def typedBy (f : Field) (spec : AttributeSpec) : Field :=
  if spec.kind.isOwnType then f else attributeField spec.kind

/-- Whether a field itself, apart from the fields nested in it, has something that documents cannot
express. -/
inductive Inexpressible (f : Field) : Prop
  /-- The terms of a choice. -/
  | terms (choice : f.type = .choice)
    (h : ∀ source, f.vocabulary = some source → ¬ PlainTerms source)
  /-- A value. -/
  | value {spec : AttributeSpec} {v : Value} (mem : spec ∈ writtenSpecs)
    (written : (standard f.type).writes spec.name = true)
    (holds : f.attribute? spec.name = some (.value (some v))) (h : Textless (typedBy f spec) v)

theorem isPlainName_of_written {spec : AttributeSpec} (h : spec ∈ writtenSpecs) :
    isPlainName spec.name = true := by
  have hall : ∀ spec ∈ writtenSpecs, isPlainName spec.name = true := by decide
  exact hall spec h

/-- An attribute with a value has an element or is left out. -/
theorem failsOnly_writeValue {f : Field} {spec : AttributeSpec} {v : Option Value}
    (hs : spec ∈ writtenSpecs) :
    FailsOnly (writeValue f spec v) (fun w => ∀ e ∈ w, Writable e)
      (∃ w, v = some w ∧ Textless (typedBy f spec) w) := by
  have ht := isPlainName_of_written hs
  unfold writeValue
  split
  · exact failsOnly_ok nofun
  · have hencode : FailsOnly (encodeOptional (isForced spec.name) (typedBy f spec) spec.name v)
        Writable (∃ w, v = some w ∧ Textless (typedBy f spec) w) := by
      cases v with
      | none => exact failsOnly_ok (writable_of_children ht nofun)
      | some w => exact (failsOnly_encode _ _ ht w).imp (fun _ => id) fun h => ⟨w, rfl, h⟩
    exact hencode.bind fun e he => failsOnly_ok fun _ h => Option.some.inj h ▸ he

/-- A nested field has an element or is not there. -/
theorem failsOnly_writeAttribute_nested {f : Field} {key item : Option (Except Fault Element)}
    {name : String} {nested : Option Field} {write : Field → Except Fault Element} {reason : Prop}
    (hf : f.attribute? name = some (.field nested))
    (hwrite : (if name == "key_type" then key else item) = nested.map write)
    (h : ∀ k, nested = some k → FailsOnly (write k) Writable reason) :
    FailsOnly (writeAttribute f key item ⟨name, .nestedField, none⟩) (fun w => ∀ e ∈ w, Writable e)
      reason := by
  unfold writeAttribute
  simp only [hf, hwrite]
  cases nested with
  | none => exact failsOnly_ok nofun
  | some k => exact (h k rfl).bind fun e he => failsOnly_ok fun _ h => Option.some.inj h ▸ he

theorem writeNested_standard {f : Field} (hf : f.typeName = none) (name : String)
    (write : FieldCodec → Except Fault Element) :
    writeNested Registry.standard name f write = write (standard f.type) := by
  unfold writeNested Field.typeIdentifier
  rw [hf, Option.getD_none, Registry.get?_standard]

/-- The element of a field can stand in a document. -/
theorem writable_fieldElement {tag identifier : String} {label : Option String}
    {children : List Element} (ht : isPlainName tag = true) (h : ∀ c ∈ children, Writable c) :
    Writable
      { tag
        attributes := (match label with
          | some n => [("name", n)]
          | none => []) ++ [("type", identifier)]
        children } := by
  have hmem : ∀ name ∈ ["name", "type"], name ∈ attributeNames := by decide
  cases label with
  | none =>
    refine .intro ht (fun a ha => isAttributeName_of_mem (hmem _ ?_)) (List.nodup_singleton _) rfl h
    cases List.mem_singleton.1 ha
    exact .tail _ (.head _)
  | some n =>
    refine .intro ht (fun a ha => isAttributeName_of_mem (hmem _ ?_)) (by simp) rfl h
    rcases List.mem_cons.1 ha with rfl | ha
    · exact .head _
    · cases List.mem_singleton.1 ha
      exact .tail _ (.head _)

/-- A field has an element that can stand in a document, unless something in it is inexpressible. -/
theorem failsOnly_writeField {f : Field} (hf : f.Everywhere fun k => k.typeName = none)
    (label : Option String) {tag : String} (ht : isPlainName tag = true) :
    FailsOnly (writeField Registry.standard f (standard f.type) label tag) Writable
      (f.Somewhere Inexpressible) := by
  induction hf generalizing label tag with
  | @intro f here key value ihkey ihvalue =>
    rw [writeField_eq]
    have hattributes : FailsOnly
        (((standard f.type).attributes.values.filter fun spec =>
          (standard f.type).writes spec.name).mapM (writeAttribute f
            (f.keyType.map fun g => writeNested Registry.standard "key_type" g fun c =>
              writeField Registry.standard g c none "key_type")
            (f.valueType.map fun g => writeNested Registry.standard "value_type" g fun c =>
              writeField Registry.standard g c none "value_type")))
        (fun ws => ∀ w ∈ ws, ∀ e ∈ w, Writable e) (f.Somewhere Inexpressible) := by
      refine FailsOnly.mapM fun spec hspec => ?_
      obtain ⟨hmem, hw⟩ := List.mem_filter.1 hspec
      have hs := (FieldCodec.mem_written hmem hw).2
      by_cases hk : spec.kind = .nestedField
      · rcases FieldCodec.eq_of_nestedField hs hk with rfl | rfl
        · refine failsOnly_writeAttribute_nested rfl rfl fun k hkey => ?_
          rw [writeNested_standard (key k hkey).here]
          exact (ihkey k hkey none (by decide)).imp (fun _ => id) (.key hkey)
        · refine failsOnly_writeAttribute_nested rfl rfl fun k hvalue => ?_
          rw [writeNested_standard (value k hvalue).here]
          exact (ihvalue k hvalue none (by decide)).imp (fun _ => id) (.value hvalue)
      · obtain ⟨v, hattr, -⟩ := exists_attribute hs hk f
        simp only [writeAttribute, hattr]
        refine (failsOnly_writeValue hs).imp (fun _ => id) ?_
        rintro ⟨w, rfl, h⟩
        exact .here (.value hs hw hattr h)
    have hterms : FailsOnly (if (standard f.type).type = .choice then (writeTerms f).map ([·])
        else .ok [] : Except Fault (List Element)) (fun es => ∀ e ∈ es, Writable e)
        (f.Somewhere Inexpressible) := by
      rw [FieldCodec.type_standard]
      split
      · rename_i hchoice
        have := (failsOnly_writeTerms f).imp (fun _ => id) fun h =>
          (.here (.terms hchoice h) : f.Somewhere Inexpressible)
        exact this.bind fun e he => failsOnly_ok (List.forall_mem_singleton.2 he)
      · exact failsOnly_ok nofun
    refine hattributes.bind fun written hwritten => hterms.bind fun terms hterms => failsOnly_ok ?_
    refine writable_fieldElement ht fun c hc => ?_
    rcases List.mem_append.1 hc with hc | hc
    · obtain ⟨w, hw, hwc⟩ := List.mem_filterMap.1 hc
      exact hwritten w hw c hwc
    · exact hterms c hc

end ContentSchema.Document
