import ContentSchema.Proofs.Document.Default
import ContentSchema.Proofs.Document.WordedField

/-!
# Defaults and missing values that documents keep

The default and the missing value of a field are always written, but a value may be written as an empty
text (`Value.IsBlank`), and an element without a text holds no value unless texts are values of the
field. So a valid default is read back as some value unless it is blank and the field is not textual
(`keepsValues_of_readField`), which leaves bytes, names of schemas, and choices.
-/
namespace ContentSchema

/-! ## Blank values -/

/-- Whether nothing is written for a value: it is an empty text, name or byte sequence, or a message
without a text. -/
def Value.IsBlank : Value → Prop
  | .text s | .dotted s => s = ""
  | .bytes b => b.size = 0
  | .message m => m.written = ""
  | _ => False

namespace Binary64

theorem positional_ne_nil (d : Nat) (p : Int) : positional d p ≠ [] := by
  unfold positional
  split
  · exact List.append_ne_nil_of_left_ne_nil Nat.toDigits_ne_nil _
  · exact List.append_ne_nil_of_right_ne_nil _ (List.cons_ne_nil _ _)

theorem text_ne_empty (x : Binary64) : x.text ≠ "" := by
  have hbody (cs : List Char) (h : cs ≠ []) :
      String.ofList (if x.isNegative then '-' :: cs else cs) ≠ "" := by
    rw [Ne, String.ofList_eq_empty_iff]
    split
    · exact List.cons_ne_nil _ _
    · exact h
  unfold text
  split
  · decide
  · refine hbody _ ?_
    split
    · decide
    · split
      · exact List.append_ne_nil_of_right_ne_nil _ (List.cons_ne_nil _ _)
      · exact positional_ne_nil _ _

end Binary64

/-- Every byte sequence but the empty one has characters. -/
theorem Text.utf8Lossy_eq_nil_iff (bytes : List UInt8) : utf8Lossy bytes = [] ↔ bytes = [] := by
  cases bytes with
  | nil => exact iff_of_true rfl rfl
  | cons b bs =>
    refine iff_of_false (fun h => ?_) (List.cons_ne_nil b bs)
    unfold utf8Lossy at h
    rw [List.length_cons, utf8Lossy.go] at h
    split at h <;> cases h

/-- The text of a scalar is empty if the scalar is blank. -/
theorem Field.textOfValue_eq_empty_iff {f : Field} {v : Value} {text : String}
    (hv : ∀ m, v ≠ .message m) (h : f.textOfValue v = .ok text) : text = "" ↔ v.IsBlank := by
  have htext := text?_of_textOfValue h
  cases v with
  | bytes b =>
    cases htext
    rw [String.ofList_eq_empty_iff, Text.utf8Lossy_eq_nil_iff, Array.toList_eq_nil_iff,
      Array.eq_empty_iff_size_eq_zero]
    rfl
  | message m => exact absurd rfl (hv m)
  | text s | dotted s =>
    cases htext
    rfl
  | bool b =>
    cases htext
    cases b <;> exact iff_of_false (by decide) id
  | int n =>
    cases htext
    exact iff_of_false (int64Text_ne_empty n) id
  | float x =>
    cases htext
    exact iff_of_false x.text_ne_empty id
  | decimal d =>
    cases htext
    exact iff_of_false d.text_ne_empty id
  | date d =>
    cases htext
    exact iff_of_false (Calendar.dateText_ne_empty d) id
  | datetime t =>
    cases htext
    exact iff_of_false (Calendar.datetimeText_ne_empty t) id
  | list _ | tuple _ | set _ | dict _ => cases htext

theorem Field.admits_of_validate {f : Field} {v : Value} (h : f.validate v = .ok ()) :
    admits f.type v = true :=
  validateType_ok_iff.1 (validateShallow_ok_iff.1 (validateShallow_of_validate h)).1

/-- Containers are the values of container types, and of no other type. -/
theorem Field.isContainer_of_admits {t : FieldType} {v : Value} (h : admits t v = true) :
    v.isContainer = (t == .dict || t.isCollection) := by
  cases t <;> cases v <;> first | rfl | cases h

/-- The types that have blank values. -/
theorem Field.of_isBlank {t : FieldType} {v : Value} (h : admits t v = true) (hv : v.IsBlank) :
    t.isTextual = true ∨ t = .object ∨ t ∈ [.bytes, .bytesLine, .interfaceField, .choice] := by
  cases v with
  | text _ | dotted _ | bytes _ | message _ =>
    cases t <;> first
      | exact .inl rfl
      | exact .inr (.inl rfl)
      | exact .inr (.inr (by decide))
      | cases h
  | _ => exact hv.elim

namespace Document

open FieldCodec (standard)
open Markup (Element)

/-! ## One value -/

/-- A scalar is written as a text, which is empty if the scalar is blank. -/
theorem exists_text_of_encode {f : Field} {tag : String} {v : Value} {c : Element}
    (hv : v.isContainer = false) (h : encode true f tag v = .ok c) :
    ∃ text, c.text = some text ∧ (text = "" ↔ v.IsBlank) := by
  cases v with
  | message m =>
    rw [encode] at h
    cases h
    exact ⟨m.written, text_encodeMessage_written tag m, Iff.rfl⟩
  | list _ | tuple _ | set _ | dict _ => cases hv
  | _ =>
    simp only [encode, Bool.not_true, Bool.false_and, Bool.false_eq_true, if_false] at h
    obtain ⟨text, htext, h⟩ := exists_of_bind h
    cases h
    exact ⟨text, rfl, Field.textOfValue_eq_empty_iff nofun htext⟩

/-- The element of a valid value gives some value, unless the value is blank and texts are none of
the field's values. -/
theorem isSome_of_decode {s : Surroundings} {validate : Bool} {f g : Field} {tag : String} {d : Value}
    {c : Element} {w : Option Value} (hvalid : f.validate d = .ok ())
    (hc : encode true f tag d = .ok c) (htype : g.type = f.type) (hmissing : g.missingValue = none)
    (h : decode s validate g c = .ok w) :
    w.isSome = true ↔ (d.IsBlank → f.type.isTextual = true) := by
  have hcontainer := Field.isContainer_of_admits (Field.admits_of_validate hvalid)
  have hfilled (v : Value) (hd : d.isContainer = true) (hw : w = some v) :
      w.isSome = true ↔ (d.IsBlank → f.type.isTextual = true) := by
    refine iff_of_true (by rw [hw]; rfl) fun hblank => ?_
    cases d <;> first | exact hblank.elim | cases hd
  rw [decode_eq, htype] at h
  split at h
  · rename_i hdict
    obtain ⟨_, -, h⟩ := exists_of_bind h
    obtain ⟨v, -, h⟩ := exists_of_bind h
    exact hfilled v (by rw [hcontainer, hdict]; rfl) (Except.ok.inj h).symm
  · rename_i hdict
    split at h
    · rename_i hcollection
      obtain ⟨_, -, h⟩ := exists_of_bind h
      obtain ⟨v, -, h⟩ := exists_of_bind h
      exact hfilled v (by rw [hcontainer, hcollection, Bool.or_true]) (Except.ok.inj h).symm
    · rename_i hcollection
      have hscalar : d.isContainer = false := by
        rw [hcontainer, Bool.eq_false_iff.2 hcollection, beq_false_of_ne hdict]
        rfl
      obtain ⟨text, htext, hblank⟩ := exists_text_of_encode hscalar hc
      rw [decodeScalar, htext, htype] at h
      dsimp only at h
      split at h
      · rename_i hcond
        obtain ⟨hempty, htextual⟩ := Bool.and_eq_true_iff.1 hcond
        cases hmissing ▸ h
        refine iff_of_false Bool.false_ne_true fun himp => ?_
        rw [himp (hblank.1 (by simpa using hempty))] at htextual
        cases htextual
      · rename_i hcond
        obtain ⟨v, -, h⟩ := exists_of_bind h
        cases h
        refine iff_of_true rfl fun hd => ?_
        rw [hblank.2 hd] at hcond
        simpa using hcond

/-! ## The elements of a field -/

section Written

variable {registry : Registry} {f : Field} {label : Option String} {tag : String} {e : Element}
  {name : String} {spec : AttributeSpec}

/-- Every type but that of objects has a default and a missing value, which are written and read as
values of the field's own. -/
theorem exists_valueSpec {t : FieldType} (ht : t ≠ .object) (hn : name ∈ valueAttributes) :
    ∃ spec, (standard t).attributes.get? name = some spec ∧ spec.name = name ∧
      spec.kind.isOwnType = true ∧ spec.default = none ∧ (standard t).reads name = true ∧
      (standard t).writes name = true := by
  have hthere : ∀ t ∈ FieldType.all, ∀ name ∈ valueAttributes,
      ((standard t).attributes.get? name).isSome = true := by decide +kernel
  have hwritten : ∀ spec ∈ writtenSpecs, spec.name ∈ valueAttributes →
      spec.kind.isOwnType = true ∧ spec.default = none := by decide
  have hothers : ∀ name ∈ valueAttributes, name ∉ hiddenNames ∧ name ∉ termNames ∧
      name ≠ "order" ∧ name ≠ "unique" ∧ name ≠ "vocabularyName" := by decide
  obtain ⟨hhidden, hterm, horder, hunique, halias⟩ := hothers name hn
  obtain ⟨spec, hspec⟩ := Option.isSome_iff_exists.1 (hthere t t.mem_all _ hn)
  obtain ⟨rfl, hmem | hmem | ⟨-, hmem⟩⟩ := FieldCodec.mem_declared hspec
  · obtain ⟨hown, hdefault⟩ := hwritten spec hmem hn
    refine ⟨spec, hspec, rfl, hown, hdefault, FieldCodec.reads_of_ne horder hunique halias, ?_⟩
    by_contra hwrites
    rcases FieldCodec.of_writes_eq_false (Bool.eq_false_iff.2 hwrites) with h | ⟨h, -⟩ | ⟨-, h⟩
    · exact hhidden h
    · exact ht h
    · exact hterm h
  · exact absurd hmem hhidden
  · exact absurd hmem hterm

/-- An element inside that of a field holds an attribute if it has the name of the attribute. -/
theorem attributeElement_of_localName (he : IsWritten registry f (standard f.type) label tag e)
    (hspec : (standard f.type).attributes.get? name = some spec) (hn : name ∉ termNames) {c : Element}
    (hc : c ∈ e.children) (hlocal : c.localName = name) :
    attributeElement registry f spec = .ok (some c) := by
  rcases he.inside c hc with ⟨other, spec', hspec', hwritten⟩ | hterms
  · have hother := model_attributeElement (FieldCodec.carriesWording_standard f.type) hspec' hwritten
    rw [← hlocal, hother.2] at hspec
    cases hspec.symm.trans hspec'
    exact hwritten
  · have hplain : ∀ name ∈ termNames, Markup.isPlainName name = true := by decide
    have hterm (term : String) (ht : term ∈ termNames) (htag : c.tag = term) : False := by
      rw [(model_of_plain htag (hplain term ht)).2] at hlocal
      exact hn (hlocal ▸ ht)
    rcases tag_writeTerms hterms with htag | htag
    · exact (hterm _ (by decide) htag).elim
    · exact (hterm _ (by decide) htag).elim

/-- The first element that is read for an attribute of the field's own type is the one that was
written for it, if there is one. -/
theorem find?_ownElements_written (he : IsWritten registry f (standard f.type) label tag e)
    (hspec : (standard f.type).attributes.get? name = some spec) (hname : spec.name = name)
    (hn : name ∉ termNames) (hown : spec.kind.isOwnType = true)
    (hreads : (standard f.type).reads name = true) (hwrites : (standard f.type).writes name = true) :
    ∃ w, attributeElement registry f spec = .ok w ∧
      (ownElements (standard f.type) e.children).find? (·.localName == name) = w := by
  obtain ⟨w, hw, hmem⟩ := he.written name spec hspec (hname ▸ hwrites)
  refine ⟨w, hw, ?_⟩
  have hsame (c : Element) (hc : c ∈ ownElements (standard f.type) e.children)
      (hlocal : c.localName = name) : w = some c := by
    have hwritten := attributeElement_of_localName he hspec hn (List.mem_filter.1 hc).1 hlocal
    exact Except.ok.inj (hw.symm.trans hwritten)
  cases hfind : (ownElements (standard f.type) e.children).find? (·.localName == name) with
  | some c =>
    exact (hsame c (List.mem_of_find?_eq_some hfind) (by simpa using List.find?_some hfind)).symm
  | none =>
    cases w with
    | none => rfl
    | some c =>
      obtain ⟨hmodel, hlocal⟩ :=
        model_attributeElement (FieldCodec.carriesWording_standard f.type) hspec hw
      have hattribute : attributeOf? (standard f.type) c = some spec :=
        attributeOf?_eq_some.2 ⟨hmodel, by rw [hlocal]; exact hreads, by rw [hlocal]; exact hspec⟩
      have hc : c ∈ ownElements (standard f.type) e.children :=
        List.mem_filter.2 ⟨hmem c rfl, by rw [hattribute]; exact hown⟩
      exact absurd (List.find?_eq_none.1 hfind c hc) (by simp [hlocal])

end Written

/-! ## What is read of a field -/

section Reading

variable {s : Scope} {f g g' : Field} {label : Option String} {tag : String} {e : Element} {m n : Nat}

/-- What comes first says nothing of the type, the default and the missing value. -/
theorem values_of_readAttributes {t : FieldType} {es : List Element}
    (h : (readAttributes s (standard t) g es).Yields m n g') :
    g'.type = g.type ∧ ∀ name ∈ valueAttributes, g'.attribute? name = g.attribute? name := by
  have hwritten : ∀ spec ∈ writtenSpecs, spec.kind.isOwnType = false →
      spec.name ∉ valueAttributes := by decide
  have hothers : ∀ name ∈ hiddenNames ++ termNames, name ∉ valueAttributes := by decide
  refine of_readAttributes (P := fun k => k.type = g.type ∧ ∀ name ∈ valueAttributes,
    k.attribute? name = g.attribute? name) (fun e spec k k' _ _ hattribute hk hread hkept => ?_) h
    ⟨rfl, fun _ _ => rfl⟩
  have hchange := changesOnly_readDescription hread
  obtain ⟨-, -, hspec⟩ := attributeOf?_eq_some.1 hattribute
  have hother : spec.name ∉ valueAttributes := by
    obtain ⟨-, hmem | hmem | ⟨-, hmem⟩⟩ := FieldCodec.mem_declared hspec
    · exact hwritten spec hmem hk
    · exact hothers _ (List.mem_append_left _ hmem)
    · exact hothers _ (List.mem_append_right _ hmem)
  exact ⟨hchange.type.trans hkept.1, fun value hv =>
    (hchange.values value hv fun heq => hother (heq ▸ hv)).trans (hkept.2 value hv)⟩

/-- Whether the value that is read of a default or missing value is there just if the written one is
there and is not lost. -/
def KeepsValue (t : FieldType) (written read : Option Value) : Prop :=
  read.isSome = true ↔ ∃ d, written = some d ∧ (d.IsBlank → t.isTextual = true)

/-- Only few types have valid values that are lost. -/
theorem isSome_eq_of_keepsValue {v w : Option Value} (ht : f.type ≠ .object)
    (hother : f.type ∉ [.bytes, .bytesLine, .interfaceField, .choice])
    (hvalid : ∀ d, v = some d → f.validate d = .ok ()) (h : KeepsValue f.type v w) :
    w.isSome = v.isSome := by
  rw [Bool.eq_iff_iff, show _ ↔ _ from h, Option.isSome_iff_exists]
  refine exists_congr fun d => and_iff_left_of_imp fun hd hblank => ?_
  rcases Field.of_isBlank (Field.admits_of_validate (hvalid d hd)) hblank with h | h | h
  · exact h
  · exact absurd h ht
  · exact absurd h hother

/-- The default or the missing value is read from the element that was written for it. -/
theorem keepsValue_of_readOwnType (ht : f.type ≠ .object)
    (he : writeField s.registry f (standard f.type) label tag = .ok e) (name : String)
    (hn : name ∈ valueAttributes) {v : Option Value} (hv : f.attribute? name = some (.value v))
    (hvalid : ∀ d, v = some d → f.validate d = .ok ()) (htype : g.type = f.type)
    (hmissing : g.attribute? "missing_value" = some (.value none))
    (hunset : g.attribute? name = some (.value none))
    (h : (readOwnType s (standard f.type) e.children g name).Yields m n g') :
    ∃ w, g'.attribute? name = some (.value w) ∧ KeepsValue f.type v w := by
  have hterm : ∀ name ∈ valueAttributes, name ∉ termNames ∧ isForced name = true := by decide
  obtain ⟨hnterm, hforced⟩ := hterm name hn
  obtain ⟨spec, hspec, rfl, hown, hdefault, hreads, hwrites⟩ := exists_valueSpec ht hn
  obtain ⟨c?, hc, hfind⟩ := find?_ownElements_written (isWritten_of_writeField he) hspec rfl hnterm
    hown hreads hwrites
  rw [attributeElement_value hv, writeValue, hdefault] at hc
  cases v with
  | none =>
    cases hc
    rw [readOwnType_of_none hfind] at h
    obtain ⟨-, rfl⟩ := Reading.yields_pure h
    refine ⟨none, hunset, iff_of_false Bool.false_ne_true ?_⟩
    rintro ⟨_, hd, -⟩
    cases hd
  | some d =>
    rw [if_neg (show ¬ (some d == (none : Option Value)) = true from Bool.false_ne_true),
      if_pos hown, hforced] at hc
    obtain ⟨c, hencode, hsome⟩ := exists_of_bind hc
    cases hsome
    rw [readOwnType_of_some hfind] at h
    obtain ⟨_, w, hdecode, h⟩ := h.of_within.bind
    obtain ⟨-, hdecode⟩ := Reading.yields_liftM hdecode
    obtain ⟨-, hassign⟩ := Reading.yields_ofModel h
    refine ⟨w, ?_, ?_⟩
    · simp only [valueAttributes, List.mem_cons, List.not_mem_nil, or_false] at hn
      rcases hn with hn | hn <;> rw [hn] at hassign ⊢ <;> cases hassign <;> rfl
    · rw [KeepsValue, isSome_of_decode (hvalid d rfl) hencode htype
        (AttributeValue.value.inj (Option.some.inj hmissing)) hdecode]
      simp only [Option.some.injEq, exists_eq_left']

/-- The default and the missing value come last: the field that they are read into has its type, and
neither of the two. -/
theorem exists_unset_of_readField {t : FieldType} (h : (readField s (standard t) e).Yields m n g) :
    ∃ bounded defaulted i j k, bounded.type = t ∧
      (∀ name ∈ valueAttributes, bounded.attribute? name = some (.value none)) ∧
      (readOwnType s (standard t) e.children bounded "default").Yields i j defaulted ∧
      (readOwnType s (standard t) e.children defaulted "missing_value").Yields j k g := by
  obtain ⟨_, described, hdescribe, hvalues, -⟩ := exists_described_of_readField h
  obtain ⟨htype, hunset⟩ := values_of_readAttributes hdescribe
  simp only [ownTypeAttributes, List.foldlM_cons, List.foldlM_nil, bind_pure] at hvalues
  obtain ⟨_, lower, hmin, hmore⟩ := hvalues.bind
  obtain ⟨_, bounded, hmax, hmore⟩ := hmore.bind
  obtain ⟨_, defaulted, hdefault, hmissing⟩ := hmore.bind
  have hlower := changesOnly_readOwnType hmin
  have hbounded := changesOnly_readOwnType hmax
  refine ⟨bounded, defaulted, _, _, _, ?_, fun name hn => ?_, hdefault, hmissing⟩
  · rw [hbounded.type, hlower.type, htype]
    exact FieldCodec.type_standard t
  · have hother : name ≠ "min" ∧ name ≠ "max" := by
      revert hn name
      decide
    rw [hbounded.values name hn hother.2, hlower.values name hn hother.1, hunset name hn]
    simp only [valueAttributes, List.mem_cons, List.not_mem_nil, or_false] at hn
    rcases hn with rfl | rfl <;> rfl

/-- A valid default is read back as some value unless it is blank and the field is not textual, and
so is a valid missing value; other values are not made up. -/
theorem keepsValues_of_readField (ht : f.type ≠ .object)
    (hdefault : ∀ d, f.default = some d → f.validate d = .ok ())
    (hmissing : ∀ d, f.missingValue = some d → f.validate d = .ok ())
    (he : writeField s.registry f (standard f.type) label tag = .ok e)
    (h : (readField s (standard f.type) e).Yields m n g) :
    KeepsValue f.type f.default g.default ∧ KeepsValue f.type f.missingValue g.missingValue ∧
      (f.type ∉ [.bytes, .bytesLine, .interfaceField, .choice] →
        g.default.isSome = f.default.isSome ∧ g.missingValue.isSome = f.missingValue.isSome) := by
  obtain ⟨bounded, defaulted, _, _, _, htype, hunset, hreadDefault, hreadMissing⟩ :=
    exists_unset_of_readField h
  have hdefaulted := changesOnly_readOwnType hreadDefault
  have hunsetMissing := (hdefaulted.values "missing_value" (by decide) (by decide)).trans
    (hunset "missing_value" (by decide))
  obtain ⟨_, hvalue, hkeptDefault⟩ := keepsValue_of_readOwnType ht he "default" (by decide) rfl
    hdefault htype (hunset "missing_value" (by decide)) (hunset "default" (by decide)) hreadDefault
  obtain ⟨_, hvalue', hkeptMissing⟩ := keepsValue_of_readOwnType ht he "missing_value" (by decide)
    rfl hmissing (hdefaulted.type.trans htype) hunsetMissing hunsetMissing hreadMissing
  -- Reading the missing value leaves the default as it is.
  rw [← (changesOnly_readOwnType hreadMissing).values "default" (by decide) (by decide)] at hvalue
  cases hvalue
  cases hvalue'
  refine ⟨hkeptDefault, hkeptMissing, fun hother => ⟨?_, ?_⟩⟩
  · exact isSome_eq_of_keepsValue ht hother hdefault hkeptDefault
  · exact isSome_eq_of_keepsValue ht hother hmissing hkeptMissing

end Reading

/-- A line of text that is empty by default, and a dash when it is missing. -/
def emptyLine : Field :=
  { Field.ofType .textLine with default := some (.text ""), missingValue := some (.text "-") }

/-- The element of such a field. -/
def emptyLineElement : Element where
  tag := "field"
  attributes := [("type", "zope.schema.TextLine")]
  children := [{ tag := "default", text := some "" }, { tag := "missing_value", text := some "-" }]

theorem keepsValues_of_readField_emptyLine :
    ∃ s : Scope, emptyLine.type ≠ .object ∧
      (∀ d, emptyLine.default = some d → emptyLine.validate d = .ok ()) ∧
      (∀ d, emptyLine.missingValue = some d → emptyLine.validate d = .ok ()) ∧
      writeField s.registry emptyLine (standard emptyLine.type) none "field" =
        .ok emptyLineElement ∧
      ∃ g, (readField s (standard emptyLine.type) emptyLineElement).Yields 1 2 g ∧
        KeepsValue emptyLine.type emptyLine.default g.default ∧
        KeepsValue emptyLine.type emptyLine.missingValue g.missingValue ∧
        (emptyLine.type ∉ [.bytes, .bytesLine, .interfaceField, .choice] →
          g.default.isSome = emptyLine.default.isSome ∧
            g.missingValue.isSome = emptyLine.missingValue.isSome) := by
  let s : Scope := ⟨⟨fun _ => none, none⟩, Registry.standard⟩
  have hdefault : ∀ d, emptyLine.default = some d → emptyLine.validate d = .ok () := by
    rintro d ⟨⟩
    rfl
  have hmissing : ∀ d, emptyLine.missingValue = some d → emptyLine.validate d = .ok () := by
    rintro d ⟨⟩
    rfl
  have hwrite : writeField s.registry emptyLine (standard emptyLine.type) none "field" =
      .ok emptyLineElement := rfl
  have hread : (readField s (standard emptyLine.type) emptyLineElement).Yields 1 2
      { emptyLine with order := 1 } := Reading.yields_of_start (p := ⟨1, []⟩) (q := ⟨2, []⟩) rfl
  exact ⟨s, nofun, hdefault, hmissing, hwrite, _, hread,
    keepsValues_of_readField nofun hdefault hmissing hwrite hread⟩

/-- Bytes that are empty by default. -/
def noBytes : Field := { Field.ofType .bytes with default := some (.bytes .empty) }

/-- The element of such a field. -/
def noBytesElement : Element where
  tag := "field"
  attributes := [("type", "zope.schema.Bytes")]
  children := [{ tag := "default", text := some "" }]

/-- The empty byte sequence is a valid default, and it is written, but what is read has none. -/
theorem default_lost_noBytes :
    noBytes.default = some (.bytes .empty) ∧ noBytes.validate (.bytes .empty) = .ok () ∧
      writeField Registry.standard noBytes (standard .bytes) none "field" = .ok noBytesElement ∧
      (readField ⟨⟨fun _ => none, none⟩, Registry.standard⟩ (standard .bytes)
        noBytesElement).Succeeds 1 2 { Field.ofType .bytes with order := 1 } ∧
      (Field.ofType .bytes).default = none := by
  exact ⟨rfl, rfl, rfl, fun _ => rfl, rfl⟩

end Document
end ContentSchema
