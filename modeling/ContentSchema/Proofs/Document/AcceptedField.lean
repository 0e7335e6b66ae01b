import ContentSchema.Proofs.Document.Decoded
import ContentSchema.Proofs.Document.Default
import ContentSchema.Proofs.Document.Unsupported

/-!
# Fields that were read can be written

A field that was read has bounds that fit together (`ReadFrom.bounds`), and each of its values has the
shape that the field gives it (`decoded_of_valueRead`).

Result: such a field can be written unless its terms come from a `source` element, or its default or
missing value holds the reference of an object (`ReadFrom.of_inexpressible`).
-/
namespace ContentSchema.Document

open FieldCodec (standard)
open Markup (Element)

/-! ## References of objects -/

/-- Whether a value is the reference of an object for a field, or holds one. -/
inductive RefersToObject : Field → Value → Prop
  /-- The values of object fields are references. -/
  | reference {f : Field} {name : String} (type : f.type = .object) : RefersToObject f (.dotted name)
  /-- An item of a collection. -/
  | item {f : Field} {members : List Value} {v w : Value}
    (hv : v = .list members ∨ v = .tuple members ∨ v = .set members) (hw : w ∈ members)
    (h : RefersToObject (itemField f.valueType) w) : RefersToObject f v
  /-- A key of a mapping. -/
  | key {f : Field} {entries : List (Value × Value)} {d : Value × Value} (hd : d ∈ entries)
    (h : RefersToObject (itemField f.keyType) d.1) : RefersToObject f (.dict entries)
  /-- A value of a mapping. -/
  | value {f : Field} {entries : List (Value × Value)} {d : Value × Value} (hd : d ∈ entries)
    (h : RefersToObject (itemField f.valueType) d.2) : RefersToObject f (.dict entries)

/-- Only the values of objects have no text. -/
theorem IsScalar.refersToObject {f : Field} {v : Value} (h : IsScalar f v) (ht : HasNoText f v) :
    RefersToObject f v := by
  by_cases htype : f.type = .object
  · obtain ⟨name, rfl⟩ := h.object htype
    exact .reference htype
  · rcases h.parsed with hparsed | ⟨m, rfl⟩
    · obtain ⟨text, htext⟩ := hparsed.exists_text htype
      exact absurd htext (ht text)
    · exact absurd (by simp [Field.textOfValue, htype, Value.text?]) (ht m.id)

theorem IsScalar.isContainer {f : Field} {v : Value} (h : IsScalar f v) : v.isContainer = false := by
  rcases h.parsed with hparsed | ⟨m, rfl⟩
  · cases hparsed <;> rfl
  · rfl

theorem isContainer_of_members {v : Value} {members : List Value}
    (hv : v = .list members ∨ v = .tuple members ∨ v = .set members) : v.isContainer = true := by
  rcases hv with rfl | rfl | rfl <;> rfl

theorem members_eq {v : Value} {members members' : List Value}
    (hv : v = .list members ∨ v = .tuple members ∨ v = .set members)
    (hv' : v = .list members' ∨ v = .tuple members' ∨ v = .set members') : members = members' := by
  rcases hv with rfl | rfl | rfl <;> rcases hv' with h | h | h <;> cases h <;> rfl

/-- A value of the shape of its field has a text, unless it refers to an object. -/
theorem Decoded.refersToObject {f : Field} {v : Value} (ht : Textless f v) (h : Decoded f v) :
    RefersToObject f v := by
  induction ht with
  | scalar hcontainer hnone =>
    cases h with
    | scalar _ h => exact h.refersToObject hnone
    | collection _ hv _ => rw [isContainer_of_members hv] at hcontainer; cases hcontainer
    | dict _ _ _ => cases hcontainer
  | item hv hw _ ih =>
    cases h with
    | scalar _ h => exact absurd (isContainer_of_members hv) (by rw [h.isContainer]; nofun)
    | collection _ hv' h =>
      obtain rfl := members_eq hv hv'
      exact .item hv hw (ih (h _ hw))
    | dict _ _ _ => rcases hv with hv | hv | hv <;> cases hv
  | key hd hnone =>
    cases h with
    | scalar _ h => exact absurd h.isContainer nofun
    | collection _ hv _ => rcases hv with hv | hv | hv <;> cases hv
    | dict _ keys _ => exact .key hd ((keys _ hd).refersToObject hnone)
  | value hd _ ih =>
    cases h with
    | scalar _ h => exact absurd h.isContainer nofun
    | collection _ hv _ => rcases hv with hv | hv | hv <;> cases hv
    | dict _ _ h => exact .value hd (ih (h _ hd))

theorem not_textless_of_isParsed {f : Field} {v : Value} (hf : f.type ≠ .object)
    (hv : Field.IsParsed v) : ¬ Textless f v := by
  intro h
  have hscalar : v.isContainer = false := by cases hv <;> rfl
  cases h with
  | scalar _ hnone =>
    obtain ⟨text, htext⟩ := hv.exists_text hf
    exact hnone text htext
  | item hv' _ _ =>
    rw [isContainer_of_members hv'] at hscalar
    cases hscalar
  | key _ _ => cases hscalar
  | value _ _ => cases hscalar

/-! ## Values of the field itself -/

section ReadFrom

variable {s : Scope} {t : FieldType} {e : Element} {g : Field} {m n : Nat}

/-- A missing value is read for a field that has none yet. -/
theorem ReadFrom.scalarMissing (h : ReadFrom s t e m g) : ScalarMissing g := by
  intro v hv ht
  have hmissing := h.missingValue
  rw [hv] at hmissing
  cases hmissing with
  | read _ _ hread =>
    have hunset : ScalarMissing (valued g g.min g.max g.default none) := nofun
    have htype : isScalarType (valued g g.min g.max g.default none).type := ht
    rw [decode_eq, if_neg htype.1, if_neg (Bool.eq_false_iff.1 htype.2)] at hread
    have hscalar := isScalar_of_decodeScalar hunset htype hread
    exact ⟨hscalar.parsed, hscalar.object⟩

/-- A value that is read for a field has the shape of the field. -/
theorem decoded_of_valueRead {es : List Element} {name : String} {least greatest default : Option Value}
    {v : Value} (hg : g.Everywhere ScalarMissing)
    (h : ValueRead s t es (valued g least greatest default none) name (some v)) : Decoded g v := by
  obtain ⟨-, key, value⟩ := hg
  cases h with
  | read _ _ hread =>
    have hmissing : (valued g least greatest default none).Everywhere ScalarMissing :=
      .intro nofun key value
    exact Decoded.congr (f := valued g least greatest default none) rfl rfl rfl
      (decoded_of_decode hmissing hread)

/-- A bound that was read is valid. -/
theorem validate_of_boundRead {es : List Element} {name : String} {least : Option Value} {v : Value}
    (hn : name = "min" ∨ name = "max")
    (h : ValueRead s t es (valued g least none none none) name (some v)) (ht : g.type = t) :
    (valued g least none none none).validate v = .ok () := by
  cases h with
  | read _ declared hread =>
    have hvalidate : (name != "missing_value") = true := by rcases hn with rfl | rfl <;> rfl
    rw [hvalidate] at hread
    have hvalid := validate_of_decode hread rfl
    cases v with
    | message message =>
      obtain ⟨spec, hspec⟩ := Option.ne_none_iff_exists'.1 declared
      have horderable := Field.not_isOrderable_of_text hvalid
      rw [show (valued g least none none none).type = t from ht,
        FieldCodec.isOrderable_of_declared hspec hn] at horderable
      cases horderable
    | _ => exact hvalid

/-- The greatest value is not below the least. -/
theorem ReadFrom.bounds (h : ReadFrom s t e m g) {a b : Value} (ha : g.min = some a)
    (hb : g.max = some b) : b.compareBound? a ≠ some .lt := by
  have hmax := h.max
  rw [ha, hb] at hmax
  have hvalid := validate_of_boundRead (.inr rfl) hmax h.fixed.2.1
  have hbounds := (Field.validateShallow_ok_iff.1 (Field.validateShallow_of_validate hvalid)).2.1
  exact (Field.validateBounds_ok_iff.1 hbounds).1 a rfl

/-! ## Descriptions -/

/-- Whether the title and the description of a field are texts or messages. -/
def IsTitled (g : Field) : Prop :=
  g.title.displayText? ≠ none ∧ g.description.displayText? ≠ none

theorem displayText_of_expectText {name : String} {v : Option Value} {w : Value}
    (h : Field.expectText name v = .ok w) : w.displayText? ≠ none := by
  unfold Field.expectText at h
  split at h <;> cases h <;> nofun

theorem DescribedBy.isTitled {g' : Field} (h : DescribedBy s t e g g') (hg : IsTitled g) :
    IsTitled g' := by
  cases h with
  | simple mem _ _ assigned =>
    simp only [simpleSpecs, List.mem_cons, List.not_mem_nil, or_false] at mem
    rcases mem with rfl | rfl | rfl | rfl | rfl | rfl | rfl | rfl | rfl <;>
      obtain ⟨x, hx, assigned⟩ := exists_of_bind assigned <;> cases assigned
    · exact ⟨hg.1, displayText_of_expectText hx⟩
    · exact hg
    · exact hg
    · exact hg
    · exact hg
    · exact hg
    · exact hg
    · exact ⟨displayText_of_expectText hx, hg.2⟩
    · exact hg
  | schema _ _ => exact hg
  | factory => exact hg
  | key _ _ => exact hg
  | item _ _ => exact hg
  | terms _ _ set =>
    rw [setVocabulary_ok set]
    exact hg
  | unnamed _ => exact hg

theorem DescribedBy.vocabulary {g' : Field} (h : DescribedBy s t e g g') :
    g'.vocabulary = g.vocabulary ∨ ∃ source, GivesTerms s e source ∧ g'.vocabulary = some source := by
  cases h with
  | simple mem _ _ assigned =>
    rw [assign_simple mem assigned]
    exact .inl rfl
  | schema _ _ => exact .inl rfl
  | factory => exact .inl rfl
  | key _ _ => exact .inl rfl
  | item _ _ => exact .inl rfl
  | terms _ given set =>
    rw [setVocabulary_ok set]
    exact .inr ⟨_, given, rfl⟩
  | unnamed _ => exact .inl rfl

/-- Descriptions leave texts or messages for the title and the description. -/
theorem DescribedFrom.isTitled {es : List Element} {f : Field} (h : DescribedFrom s t es f g)
    (hf : IsTitled f) : IsTitled g := by
  induction h with
  | refl => exact hf
  | tail _ hstep ih =>
    obtain ⟨c, -, -, hc⟩ := hstep
    exact hc.isTitled ih

/-- The terms of a field that was described are given by one of the elements. -/
theorem DescribedFrom.vocabulary {es : List Element} {f : Field} (h : DescribedFrom s t es f g)
    (hf : f.vocabulary = none) {source : TermSource} (hg : g.vocabulary = some source) :
    ∃ c ∈ es, c.isModelElement = true ∧ GivesTerms s c source := by
  induction h generalizing source with
  | refl =>
    rw [hf] at hg
    cases hg
  | tail _ hstep ih =>
    obtain ⟨c, hc, hmodel, hdescribed⟩ := hstep
    rcases hdescribed.vocabulary with hsame | ⟨given, hgiven, hset⟩
    · exact ih (hsame ▸ hg)
    · rw [hset] at hg
      cases hg
      exact ⟨c, hc, hmodel, hgiven⟩

/-! ## Terms -/

theorem displayText_of_decode {r : Surroundings} {c : Element} {v : Value}
    (h : decode r false (Field.ofType .text) c = .ok (some v)) : v.displayText? ≠ none := by
  have hdict : (Field.ofType .text).type ≠ .dict := nofun
  have hcollection : ¬ (Field.ofType .text).type.isCollection = true := nofun
  rw [decode_eq, if_neg hdict, if_neg hcollection] at h
  unfold decodeScalar at h
  split at h
  · rename_i text _
    split at h
    · cases h
    · obtain ⟨w, hw, h⟩ := exists_of_bind h
      cases hw
      cases h
      unfold asMessage
      split
      · split <;> nofun
      · nofun
  · cases h

theorem plain_of_readTerm {c : Element} {keyed : Bool} {term : Term}
    (h : readTerm s keyed c = .ok term) : term.value.plainText? ≠ none ∧
      term.token = tokenFor term.value ∧
        ∀ title, term.title = some title → title.displayText? ≠ none := by
  unfold readTerm at h
  split at h
  · unfold readKeyedTerm at h
    split at h
    · cases h
    · obtain ⟨title, htitle, h⟩ := exists_of_bind h
      cases h
      refine ⟨Option.some_ne_none _, rfl, fun w hw => ?_⟩
      obtain ⟨hw, -⟩ := Option.filter_eq_some_iff.1 hw
      exact displayText_of_decode (hw ▸ htitle)
  · cases h
    exact ⟨Option.some_ne_none _, rfl, fun _ h => absurd h.symm (Option.some_ne_none _)⟩

theorem terms_of_ofTerms {terms : List Term} {v : Vocabulary} {cause : Repetition → ModelError}
    (h : (Vocabulary.ofTerms terms).mapError cause = .ok v) : v.terms = terms := by
  unfold Vocabulary.ofTerms at h
  split at h
  · cases h
  · cases h
    rfl

/-- Terms that are given one by one are plain, and so is the name of a vocabulary. -/
theorem GivesTerms.plain {source : TermSource} (h : GivesTerms s e source) :
    PlainTerms source ∨ e.localName = "source" ∧ resolveTerms s.resolve (dottedName e) = .ok source := by
  cases h with
  | named _ _ => exact .inl trivial
  | inline read =>
    refine .inl fun term hterm => ?_
    obtain ⟨k, terms, hterms, hread⟩ := Reading.Yields.bind read
    obtain ⟨-, hvocabulary⟩ := Reading.yields_ofModel hread
    rw [terms_of_ofTerms hvocabulary] at hterm
    obtain ⟨i, -, _, _, hi⟩ := exists_of_forall₂_right (Reading.Yields.mapM hterms) hterm
    exact plain_of_readTerm (Reading.yields_ofExcept hi.of_within).2
  | resolved localName found => exact .inr ⟨localName, found⟩

/-! ## What cannot be written -/

/-- Whether a field takes its terms from a `source` element inside its own element. -/
def TakesTermsFrom (resolve : Resolver) (e : Element) (g : Field) : Prop :=
  ∃ c ∈ e.children, c.isModelElement = true ∧ c.localName = "source" ∧
    ∃ terms, resolveTerms resolve (dottedName c) = .ok terms ∧ g.vocabulary = some terms

/-- Whether the default or missing value of a field holds the reference of an object. -/
def HoldsReference (g : Field) : Prop :=
  ∃ v, (g.default = some v ∨ g.missingValue = some v) ∧ v.isContainer = true ∧ RefersToObject g v

theorem RefersToObject.isContainer {f : Field} {v : Value} (h : RefersToObject f v)
    (hf : f.type ≠ .object) : v.isContainer = true := by
  cases h with
  | reference type => exact absurd type hf
  | item hv _ _ => exact isContainer_of_members hv
  | key _ _ => rfl
  | value _ _ => rfl

/-- The default and the missing value of an object are not written. -/
theorem ne_object_of_writes {name : String} (hn : name = "default" ∨ name = "missing_value")
    (h : (standard g.type).writes name = true) : g.type ≠ .object := by
  intro ht
  have hobject : ∀ name ∈ ["default", "missing_value"], (standard .object).writes name = false := by
    decide
  rw [ht, hobject name (by simpa using hn)] at h
  cases h

/-- Ordered values have a text. -/
theorem not_textless_of_isOrderable {f : Field} {v : Value} (hf : f.type.isOrderable = true)
    (hv : Decoded f v) : ¬ Textless f v := by
  have htype : f.type ≠ .object ∧ f.type ≠ .dict ∧ f.type.isCollection = false := by
    revert hf
    cases f.type <;> decide
  cases hv with
  | scalar _ h =>
    rcases h.parsed with hparsed | ⟨message, rfl⟩
    · exact not_textless_of_isParsed htype.1 hparsed
    · exact not_textless_of_displayText htype.1 nofun
  | collection type _ _ => rw [htype.2.2] at type; cases type
  | dict type _ _ => exact absurd type htype.2.1

/-- Of the values of a field that was read only the default and the missing value can lack a text, by
holding the reference of an object. -/
theorem ReadFrom.of_textless (h : ReadFrom s t e m g) (hg : g.Everywhere ScalarMissing)
    {spec : AttributeSpec} {v : Value} (mem : spec ∈ writtenSpecs)
    (written : (standard g.type).writes spec.name = true)
    (holds : g.attribute? spec.name = some (.value (some v))) (ht : Textless (typedBy g spec) v) :
    HoldsReference g := by
  have hheld {name : String} (hn : name = "default" ∨ name = "missing_value")
      (hw : (standard g.type).writes name = true) (hv : g.default = some v ∨ g.missingValue = some v)
      (hdecoded : Decoded g v) (ht : Textless g v) : HoldsReference g := by
    have hrefers := hdecoded.refersToObject ht
    exact ⟨v, hv, hrefers.isContainer (ne_object_of_writes hn hw), hrefers⟩
  have hbound {name : String} {least : Option Value} (hn : name = "min" ∨ name = "max")
      (hread : ValueRead s t e.children (valued g least none none none) name (some v)) :
      ¬ Textless g v := by
    have hdecoded := decoded_of_valueRead hg hread
    cases hread with
    | read _ declared _ =>
      obtain ⟨spec, hspec⟩ := Option.ne_none_iff_exists'.1 declared
      refine not_textless_of_isOrderable ?_ hdecoded
      rw [h.fixed.2.1]
      exact FieldCodec.isOrderable_of_declared hspec hn
  have htitled : IsTitled g := h.described.isTitled ⟨nofun, nofun⟩
  simp only [writtenSpecs, List.mem_cons, List.not_mem_nil, or_false] at mem
  rcases mem with rfl | rfl | rfl | rfl | rfl | rfl | rfl | rfl | rfl | rfl | rfl | rfl | rfl |
    rfl | rfl | rfl
  · have hv : g.default = some v := by injections
    exact hheld (.inl rfl) written (.inl hv) (decoded_of_valueRead hg (hv ▸ h.default)) ht
  · cases holds
    exact absurd ht (not_textless_of_displayText (fun he => by cases he) htitled.2)
  · cases holds
  · have hv : g.max = some v := by injections
    exact absurd ht (hbound (.inr rfl) (hv ▸ h.max))
  · obtain ⟨dots, -, rfl⟩ := Option.map_eq_some_iff.1 (show g.maxDots.map Value.int = some v by injections)
    exact absurd ht (not_textless_of_isParsed (fun he => by cases he) (.int dots))
  · obtain ⟨length, -, rfl⟩ :=
      Option.map_eq_some_iff.1 (show g.maxLength.map Value.int = some v by injections)
    exact absurd ht (not_textless_of_isParsed (fun he => by cases he) (.int length))
  · have hv : g.min = some v := by injections
    exact absurd ht (hbound (.inl rfl) (hv ▸ h.min))
  · cases holds
    exact absurd ht (not_textless_of_isParsed (fun he => by cases he) (.int _))
  · cases holds
    exact absurd ht (not_textless_of_isParsed (fun he => by cases he) (.int _))
  · have hv : g.missingValue = some v := by injections
    exact hheld (.inr rfl) written (.inr hv) (decoded_of_valueRead hg (hv ▸ h.missingValue)) ht
  · cases holds
    exact absurd ht (not_textless_of_isParsed (fun he => by cases he) (.bool _))
  · cases holds
    exact absurd ht (not_textless_of_isParsed (fun he => by cases he) (.bool _))
  · obtain ⟨name, -, rfl⟩ := Option.map_eq_some_iff.1 (show g.schema.map Value.dotted = some v by injections)
    exact absurd ht (not_textless_of_isParsed (fun he => by cases he) (.dotted name))
  · cases holds
    exact absurd ht (not_textless_of_displayText (fun he => by cases he) htitled.1)
  · cases holds
    exact absurd ht (not_textless_of_isParsed (fun he => by cases he) (.bool _))
  · cases holds

/-- A field that was read has only terms from a source, or references inside a default or missing value,
that documents cannot express. -/
theorem ReadFrom.of_inexpressible (h : ReadFrom s t e m g) (hg : g.Everywhere ScalarMissing)
    (hbad : Inexpressible g) : TakesTermsFrom s.resolve e g ∨ HoldsReference g := by
  cases hbad with
  | terms choice hplain =>
    obtain ⟨source, hsource⟩ := Option.ne_none_iff_exists'.1 (h.complete choice)
    obtain ⟨c, hc, hmodel, hgiven⟩ := h.described.vocabulary rfl hsource
    rcases hgiven.plain with hplain' | ⟨hlocal, hfound⟩
    · exact absurd hplain' (hplain source hsource)
    · exact .inl ⟨c, hc, hmodel, hlocal, source, hfound, hsource⟩
  | value mem written holds ht => exact .inr (h.of_textless hg mem written holds ht)

end ReadFrom

end ContentSchema.Document
