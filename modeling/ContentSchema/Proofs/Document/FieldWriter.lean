import ContentSchema.Proofs.Document.Field

/-!
# Fields are written by what is kept of them

The element of a field depends on nothing but its name and `Field.kept` of it. So two fields of
which documents keep the same have the same element under the same name (`writeField_of_kept`).
-/
namespace ContentSchema

/-! ## What is kept in common -/

/-- The field without bounds and nested fields, as far as documents speak of it. -/
def Field.flat (f : Field) : Field := { f.forgetBounds with keyType := none, valueType := none }

/-- Fields of which the same is kept but for bounds agree apart from bounds and nested fields, and the
same is kept of these. -/
theorem Field.parts_of_unbounded {f g : Field} (h : g.unbounded = f.unbounded) :
    g.flat = f.flat ∧ g.keyType.map unbounded = f.keyType.map unbounded ∧
      g.valueType.map unbounded = f.valueType.map unbounded := by
  rw [unbounded_eq, unbounded_eq] at h
  refine ⟨?_, congrArg keyType h, congrArg valueType h⟩
  have hflat := congrArg (fun k : Field => { k with keyType := none, valueType := none }) h
  exact hflat

theorem Field.unbounded_of_kept {f g : Field} (h : g.kept = f.kept) : g.unbounded = f.unbounded := by
  rw [← unbounded_kept, h, unbounded_kept]

/-- Fields of which the same is kept have the same bounds, and the same is kept of their nested
fields. -/
theorem Field.parts_of_kept {f g : Field} (h : g.kept = f.kept) :
    g.min = f.min ∧ g.max = f.max ∧ g.keyType.map kept = f.keyType.map kept ∧
      g.valueType.map kept = f.valueType.map kept := by
  rw [kept_eq, kept_eq] at h
  have hmin := congrArg Field.min h
  have hmax := congrArg Field.max h
  exact ⟨hmin, hmax, congrArg keyType h, congrArg valueType h⟩

theorem Field.unbounded_of_reread {f g : Field} (h : g.kept = f.reread) : g.unbounded = f.unbounded := by
  rw [← unbounded_kept, h, unbounded_reread]

end ContentSchema

namespace ContentSchema.Document

open FieldCodec (standard)
open Markup (Element)

section Unbounded

variable {f g : Field} (h : g.unbounded = f.unbounded)

include h

theorem type_of_unbounded : g.type = f.type := by
  have htype : g.flat.type = f.flat.type := by rw [(Field.parts_of_unbounded h).1]
  exact htype

theorem typeIdentifier_of_unbounded : g.typeIdentifier = f.typeIdentifier := by
  have htype : g.flat.typeIdentifier = f.flat.typeIdentifier := by
    rw [(Field.parts_of_unbounded h).1]
  exact htype

theorem missingValue_of_unbounded : g.missingValue = f.missingValue := by
  have hmissing : g.flat.missingValue = f.flat.missingValue := by
    rw [(Field.parts_of_unbounded h).1]
  exact hmissing

theorem textOfValue_of_unbounded (v : Value) : Agrees (f.textOfValue v) (g.textOfValue v) := by
  intro text ht
  rw [Field.textOfValue_eq_ok_iff] at ht ⊢
  rwa [type_of_unbounded h]

end Unbounded

theorem itemField_of_unbounded {k l : Option Field} (h : l.map Field.unbounded = k.map Field.unbounded) :
    (itemField l).unbounded = (itemField k).unbounded := by
  cases k <;> cases l <;> simp_all [itemField]

mutual

/-- A value has the same element for both fields. -/
theorem encode_of_unbounded {f g : Field} (h : g.unbounded = f.unbounded) (force : Bool) (tag : String)
    (v : Value) : Agrees (encode force f tag v) (encode force g tag v) := by
  obtain ⟨-, hkey, hvalue⟩ := Field.parts_of_unbounded h
  have hitem := itemField_of_unbounded hvalue
  match v with
  | .dict entries =>
    simp only [encode, missingValue_of_unbounded h]
    split
    · exact .refl _
    · exact (encodeEntries_of_unbounded (itemField_of_unbounded hkey) hitem force entries).bind
        fun _ => .refl _
  | .list items =>
    simp only [encode, missingValue_of_unbounded h]
    split
    · exact .refl _
    · exact (encodeItems_of_unbounded hitem force items).bind fun _ => .refl _
  | .tuple items =>
    simp only [encode, missingValue_of_unbounded h]
    split
    · exact .refl _
    · exact (encodeItems_of_unbounded hitem force items).bind fun _ => .refl _
  | .set items =>
    simp only [encode, missingValue_of_unbounded h]
    split
    · exact .refl _
    · exact (encodeItems_of_unbounded hitem force items).bind fun _ => .refl _
  | .message m =>
    simp only [encode, missingValue_of_unbounded h]
    exact .refl _
  | .bool _ | .int _ | .float _ | .decimal _ | .text _ | .bytes _ | .date _ | .datetime _
  | .dotted _ =>
    simp only [encode, missingValue_of_unbounded h]
    split
    · exact .refl _
    · exact (textOfValue_of_unbounded h _).bind fun _ => .refl _

/-- Items have the same elements for both fields. -/
theorem encodeItems_of_unbounded {f g : Field} (h : g.unbounded = f.unbounded) (force : Bool) (vs : List Value) :
    Agrees (encodeItems force f vs) (encodeItems force g vs) := by
  match vs with
  | [] =>
    simp only [encodeItems]
    exact .refl _
  | v :: vs =>
    simp only [encodeItems]
    exact (encode_of_unbounded h force itemTag v).bind fun _ =>
      (encodeItems_of_unbounded h force vs).bind fun _ => .refl _

/-- Entries have the same elements for both fields. -/
theorem encodeEntries_of_unbounded {k l f g : Field} (hk : l.unbounded = k.unbounded) (h : g.unbounded = f.unbounded)
    (force : Bool) (es : List (Value × Value)) :
    Agrees (encodeEntries force k f es) (encodeEntries force l g es) := by
  match es with
  | [] =>
    simp only [encodeEntries]
    exact .refl _
  | (key, v) :: es =>
    simp only [encodeEntries]
    exact (encode_of_unbounded h force itemTag v).bind fun _ => (textOfValue_of_unbounded hk key).bind fun _ =>
      (encodeEntries_of_unbounded hk h force es).bind fun _ => .refl _

end

/-! ## Attributes -/

/-- An attribute that is no nested field has a value, and keeps it unless it is a bound. -/
theorem exists_attribute {spec : AttributeSpec} (hs : spec ∈ writtenSpecs)
    (hk : spec.kind ≠ .nestedField) (f : Field) :
    ∃ v, f.attribute? spec.name = some (.value v) ∧
      (spec.name ≠ "min" → spec.name ≠ "max" → f.flat.attribute? spec.name = some (.value v)) := by
  simp only [writtenSpecs, List.mem_cons, List.not_mem_nil, or_false] at hs
  rcases hs with rfl | rfl | rfl | rfl | rfl | rfl | rfl | rfl | rfl | rfl | rfl | rfl | rfl | rfl |
    rfl | rfl <;> first
      | exact ⟨_, rfl, fun _ _ => rfl⟩
      | exact absurd rfl hk
      | exact ⟨_, rfl, fun _ _ => absurd rfl (by assumption)⟩

/-- Attributes that are no bounds have the same values. -/
theorem exists_attribute_of_unbounded {f g : Field} (h : g.unbounded = f.unbounded)
    {spec : AttributeSpec} (hs : spec ∈ writtenSpecs) (hk : spec.kind ≠ .nestedField)
    (hmin : spec.name ≠ "min") (hmax : spec.name ≠ "max") :
    ∃ v, f.attribute? spec.name = some (.value v) ∧ g.attribute? spec.name = some (.value v) := by
  obtain ⟨v, hattr, hflat⟩ := exists_attribute hs hk f
  obtain ⟨w, hattr', hflat'⟩ := exists_attribute hs hk g
  have hattrFlat' := hflat' hmin hmax
  rw [(Field.parts_of_unbounded h).1, hflat hmin hmax] at hattrFlat'
  cases hattrFlat'
  exact ⟨v, hattr, hattr'⟩

/-- All attributes but nested fields have the same values. -/
theorem exists_attribute_of_kept {f g : Field} (h : g.kept = f.kept) {spec : AttributeSpec}
    (hs : spec ∈ writtenSpecs) (hk : spec.kind ≠ .nestedField) :
    ∃ v, f.attribute? spec.name = some (.value v) ∧ g.attribute? spec.name = some (.value v) := by
  obtain ⟨hmin, hmax, -⟩ := Field.parts_of_kept h
  by_cases hn : spec.name = "min"
  · rw [hn]
    exact ⟨f.min, rfl, by rw [← hmin]; rfl⟩
  · by_cases hx : spec.name = "max"
    · rw [hx]
      exact ⟨f.max, rfl, by rw [← hmax]; rfl⟩
    · exact exists_attribute_of_unbounded (Field.unbounded_of_kept h) hs hk hn hx

theorem encodeOptional_of_unbounded {f g : Field} (h : g.unbounded = f.unbounded) (force : Bool) (tag : String)
    (v : Option Value) : Agrees (encodeOptional force f tag v) (encodeOptional force g tag v) := by
  cases v with
  | none => exact .refl _
  | some v => exact encode_of_unbounded h force tag v

theorem writeValue_of_unbounded {f g : Field} (h : g.unbounded = f.unbounded) (spec : AttributeSpec)
    (v : Option Value) : Agrees (writeValue f spec v) (writeValue g spec v) := by
  unfold writeValue
  split
  · exact .refl _
  · split
    · exact (encodeOptional_of_unbounded h _ _ v).bind fun _ => .refl _
    · exact .refl _

theorem writeTerms_of_unbounded {f g : Field} (h : g.unbounded = f.unbounded) :
    Agrees (writeTerms f) (writeTerms g) := by
  have hvocabulary : g.flat.vocabulary = f.flat.vocabulary := by rw [(Field.parts_of_unbounded h).1]
  have hvocabulary : g.vocabulary = f.vocabulary := hvocabulary
  have hterm (t : Term) : Agrees (termText f t) (termText g t) := by
    have htoken (text : String) : Agrees
        (if t.token == tokenFor t.value then pure text
          else throw (Fault.notSupported (.termToken f.name t.token)) : Except Fault String)
        (if t.token == tokenFor t.value then pure text
          else throw (Fault.notSupported (.termToken g.name t.token))) := by
      split
      · exact .refl _
      · exact nofun
    unfold termText
    generalize t.value = value at htoken
    cases value with
    | text s => exact (Agrees.refl (.ok s)).bind htoken
    | int n => exact (Agrees.refl (.ok (int64Text n))).bind htoken
    | _ => exact fun _ h => nomatch h
  unfold writeTerms
  rw [hvocabulary]
  split
  · exact .refl _
  · exact (Agrees.mapM fun t _ => hterm t).bind fun _ => .refl _
  · exact nofun
  · exact nofun

/-- The elements of nested fields agree, if those of the fields do. -/
theorem writeAttribute_nested {f g : Field} {name : String} {k l : Option Field}
    (hf : f.attribute? name = some (.field k)) (hg : g.attribute? name = some (.field l))
    {key item key' item' : Option (Except Fault Element)} {write write' : Field → Except Fault Element}
    (hwrite : (if name == "key_type" then key else item) = k.map write)
    (hwrite' : (if name == "key_type" then key' else item') = l.map write')
    (h : l.map Field.kept = k.map Field.kept)
    (hkl : ∀ a b, k = some a → b.kept = a.kept → Agrees (write a) (write' b)) :
    Agrees (writeAttribute f key item ⟨name, .nestedField, none⟩)
      (writeAttribute g key' item' ⟨name, .nestedField, none⟩) := by
  unfold writeAttribute
  simp only [hf, hg, hwrite, hwrite']
  cases k with
  | none =>
    cases l with
    | none => exact .refl _
    | some b => cases h
  | some a =>
    cases l with
    | none => cases h
    | some b =>
      simp only [Option.map_some, Option.some.injEq] at h ⊢
      exact (hkl a b rfl h).bind fun _ => .refl _

/-! ## Fields -/

theorem writeNested_of_unbounded {f g : Field} (h : g.unbounded = f.unbounded) (name : String)
    {write write' : FieldCodec → Except Fault Element}
    (hw : ∀ t, Agrees (write (standard t)) (write' (standard t))) :
    Agrees (writeNested Registry.standard name f write)
      (writeNested Registry.standard name g write') := by
  unfold writeNested
  rw [typeIdentifier_of_unbounded h]
  split
  · rename_i codec hcodec
    obtain ⟨t, -, rfl⟩ := Registry.of_get?_standard hcodec
    exact hw t
  · exact nofun

/-- A field of which the same is kept has the same element under the same name. -/
theorem writeField_of_kept {f g : Field} (h : g.kept = f.kept) (t : FieldType)
    (label : Option String) (tag : String) :
    Agrees (writeField Registry.standard f (standard t) label tag)
      (writeField Registry.standard g (standard t) label tag) := by
  induction f using Field.nested_induction generalizing g t label tag with
  | step f key value =>
    obtain ⟨-, -, hkey, hvalue⟩ := Field.parts_of_kept h
    have hunbounded := Field.unbounded_of_kept h
    rw [writeField_eq, writeField_eq, typeIdentifier_of_unbounded hunbounded]
    refine Agrees.bind (Agrees.mapM fun spec hspec => ?_) fun _ => Agrees.bind ?_ fun _ => .refl _
    · obtain ⟨hmem, hw⟩ := List.mem_filter.1 hspec
      have hs := (FieldCodec.mem_written hmem hw).2
      by_cases hk : spec.kind = .nestedField
      · rcases FieldCodec.eq_of_nestedField hs hk with rfl | rfl
        · exact writeAttribute_nested rfl rfl rfl rfl hkey fun a b ha hab =>
            writeNested_of_unbounded (Field.unbounded_of_kept hab) _ fun t => key a ha hab t none _
        · exact writeAttribute_nested rfl rfl rfl rfl hvalue fun a b ha hab =>
            writeNested_of_unbounded (Field.unbounded_of_kept hab) _ fun t => value a ha hab t none _
      · obtain ⟨v, hattr, hattr'⟩ := exists_attribute_of_kept h hs hk
        simp only [writeAttribute, hattr, hattr']
        exact writeValue_of_unbounded hunbounded spec v
    · split
      · exact (writeTerms_of_unbounded hunbounded).map _
      · exact .refl _

end ContentSchema.Document
