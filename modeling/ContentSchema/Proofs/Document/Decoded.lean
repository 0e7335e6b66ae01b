import ContentSchema.Proofs.Document.FieldReader

/-!
# Values that were read

What an element holds for a field is of the shape of the field (`Decoded`): scalars are what texts
stand for, or messages, and containers hold what the fields of their items read.

Result: every value that is read has that shape (`decoded_of_decode`), if the missing values of the
nested fields have it.
-/
namespace ContentSchema.Document

open Markup (Element)

/-- Whether the values of a field are neither sequences, sets nor mappings. -/
def isScalarType (t : FieldType) : Prop := t ≠ .dict ∧ t.isCollection = false

/-- The scalars that elements give for a field: what texts stand for, and messages. Objects have
dotted names. -/
structure IsScalar (f : Field) (v : Value) : Prop where
  /-- A text stands for it, or it is a message. -/
  parsed : Field.IsParsed v ∨ ∃ m, v = .message m
  /-- Objects have dotted names. -/
  object : f.type = .object → ∃ name, v = .dotted name

/-- Whether a value has the shape that a field gives it. -/
inductive Decoded : Field → Value → Prop
  /-- A scalar. -/
  | scalar {f : Field} {v : Value} (type : isScalarType f.type) (h : IsScalar f v) : Decoded f v
  /-- The items of a collection have the shape that their field gives them. -/
  | collection {f : Field} {members : List Value} {v : Value} (type : f.type.isCollection = true)
    (hv : v = .list members ∨ v = .tuple members ∨ v = .set members)
    (h : ∀ w ∈ members, Decoded (itemField f.valueType) w) : Decoded f v
  /-- Keys are scalars, and the values have the shape that their field gives them. -/
  | dict {f : Field} {entries : List (Value × Value)} (type : f.type = .dict)
    (keys : ∀ d ∈ entries, IsScalar (itemField f.keyType) d.1)
    (h : ∀ d ∈ entries, Decoded (itemField f.valueType) d.2) : Decoded f (.dict entries)

/-- Only the type and the nested fields count. -/
theorem Decoded.congr {f g : Field} {v : Value} (ht : g.type = f.type) (hk : g.keyType = f.keyType)
    (hv : g.valueType = f.valueType) (h : Decoded f v) : Decoded g v := by
  cases h with
  | scalar type h =>
    exact .scalar (ht ▸ type) ⟨h.parsed, ht ▸ h.object⟩
  | collection type hvalue h =>
    exact .collection (ht ▸ type) hvalue (by rw [hv]; exact h)
  | dict type keys h => exact .dict (ht ▸ type) (by rw [hk]; exact keys) (by rw [hv]; exact h)

/-! ## Scalars -/

/-- Whether the missing value of a field has the shape of the field, if that is a scalar. -/
def ScalarMissing (f : Field) : Prop :=
  ∀ v, f.missingValue = some v → isScalarType f.type → IsScalar f v

theorem eq_of_accept {f : Field} {validate : Bool} {v w : Value} (h : f.accept validate v = .ok w) :
    w = v := by
  unfold Field.accept at h
  split at h
  · split at h <;> cases h
    rfl
  · exact (Except.ok.inj h).symm

theorem isScalar_of_text {f : Field} {resolve : Resolver} {validate : Bool} {text : String} {v : Value}
    (h : f.valueOfText resolve validate text = .ok v) : IsScalar f v := by
  obtain ⟨parsed, hparsed, h⟩ := exists_of_bind h
  obtain rfl := eq_of_accept h
  refine ⟨.inl (Field.isParsed_of_parseText hparsed), fun ht => ?_⟩
  simp only [Field.parseText, ht] at hparsed
  obtain ⟨symbol, -, hparsed⟩ := exists_of_bind hparsed
  cases hparsed
  exact ⟨_, rfl⟩

theorem IsScalar.asMessage {f : Field} {v : Value} (h : IsScalar f v) (domain : Option String)
    (e : Element) : IsScalar f (asMessage domain e v) := by
  unfold ContentSchema.Document.asMessage
  split
  · refine ⟨.inr ⟨_, rfl⟩, fun ht => ?_⟩
    obtain ⟨name, hname⟩ := h.object ht
    cases hname
  · exact h

theorem isScalar_of_decodeScalar {s : Surroundings} {validate : Bool} {f : Field} {e : Element}
    {v : Value} (hf : ScalarMissing f) (ht : isScalarType f.type)
    (h : decodeScalar s validate f e = .ok (some v)) : IsScalar f v := by
  unfold decodeScalar at h
  split at h
  · split at h
    · exact hf v (Except.ok.inj h) ht
    · obtain ⟨w, hw, h⟩ := exists_of_bind h
      cases h
      exact (isScalar_of_text hw).asMessage s.domain e
  · exact hf v (Except.ok.inj h) ht

/-! ## Items and entries -/

theorem eq_of_requireItem {f : Field} {v : Option Value} {w : Value} (h : requireItem f v = .ok w) :
    v = some w := by
  cases v with
  | none => cases h
  | some v => rw [Except.ok.inj h]

/-- Each item was read from an element inside. -/
theorem exists_of_decodeItems {s : Surroundings} {validate : Bool} {item : Field} {es : List Element}
    {items : List Value} (h : decodeItems s validate item es = .ok items) {w : Value} (hw : w ∈ items) :
    ∃ c ∈ es, decode s validate item c = .ok (some w) := by
  induction es generalizing items with
  | nil =>
    rw [decodeItems] at h
    cases h
    cases hw
  | cons e es ih =>
    have hskip {items : List Value} (h : decodeItems s validate item es = .ok items) (hw : w ∈ items) :
        ∃ c ∈ e :: es, decode s validate item c = .ok (some w) := by
      obtain ⟨c, hc, hdecode⟩ := ih h hw
      exact ⟨c, .tail _ hc, hdecode⟩
    rw [decodeItems] at h
    split at h
    · obtain ⟨v, hv, h⟩ := exists_of_bind h
      obtain ⟨first, hfirst, h⟩ := exists_of_bind h
      obtain ⟨more, hmore, h⟩ := exists_of_bind h
      cases h
      rcases List.mem_cons.1 hw with rfl | hw
      · exact ⟨e, .head _, by rw [hv, eq_of_requireItem hfirst]⟩
      · exact hskip hmore hw
    · exact hskip h hw

/-- Each key was read from a text, and each value from an element inside. -/
theorem exists_of_decodeEntries {s : Surroundings} {validate : Bool} {key item : Field}
    {es : List Element} {entries : List (Value × Value)}
    (h : decodeEntries s validate key item es = .ok entries) {d : Value × Value} (hd : d ∈ entries) :
    (∃ text, key.valueOfText s.resolve validate text = .ok d.1) ∧
      ∃ c ∈ es, decode s validate item c = .ok (some d.2) := by
  induction es generalizing entries with
  | nil =>
    rw [decodeEntries] at h
    cases h
    cases hd
  | cons e es ih =>
    have hskip {entries : List (Value × Value)}
        (h : decodeEntries s validate key item es = .ok entries) (hd : d ∈ entries) :
        (∃ text, key.valueOfText s.resolve validate text = .ok d.1) ∧
          ∃ c ∈ e :: es, decode s validate item c = .ok (some d.2) := by
      obtain ⟨hkey, c, hc, hdecode⟩ := ih h hd
      exact ⟨hkey, c, .tail _ hc, hdecode⟩
    rw [decodeEntries] at h
    split at h
    · split at h
      · cases h
      · rename_i text _
        obtain ⟨k, hk, h⟩ := exists_of_bind h
        obtain ⟨v, hv, h⟩ := exists_of_bind h
        obtain ⟨first, hfirst, h⟩ := exists_of_bind h
        obtain ⟨more, hmore, h⟩ := exists_of_bind h
        cases h
        rcases List.mem_cons.1 hd with rfl | hd
        · exact ⟨⟨text, hk⟩, e, .head _, by rw [hv, eq_of_requireItem hfirst]⟩
        · exact hskip hmore hd
    · exact hskip h hd

/-! ## Whole values -/

theorem everywhere_itemField {P : Field → Prop} {f : Option Field}
    (h : ∀ k, f = some k → k.Everywhere P) (hline : P (Field.ofType .textLine)) :
    (itemField f).Everywhere P := by
  cases f with
  | none => exact .intro hline nofun nofun
  | some k => exact h k rfl

/-- A collection holds nothing but the items that it is made of. -/
theorem exists_collectionOf (type : FieldType) (items : List Value) :
    ∃ members, (collectionOf type items = .list members ∨ collectionOf type items = .tuple members ∨
      collectionOf type items = .set members) ∧ ∀ w ∈ members, w ∈ items := by
  obtain ⟨members, hset, -, hamong⟩ := Value.ordered_setOf items
  unfold collectionOf
  split
  · exact ⟨items, .inr (.inl rfl), fun _ hw => hw⟩
  · exact ⟨members, .inr (.inr hset), hamong⟩
  · exact ⟨members, .inr (.inr hset), hamong⟩
  · exact ⟨items, .inl rfl, fun _ hw => hw⟩

/-- Every value that is read has the shape that its field gives it. -/
theorem decoded_of_decode {s : Surroundings} {validate : Bool} {f : Field} {e : Element} {v : Value}
    (hf : f.Everywhere ScalarMissing) (h : decode s validate f e = .ok (some v)) : Decoded f v := by
  have hitem : (itemField f.valueType).Everywhere ScalarMissing := by
    cases hf with
    | intro _ _ value => exact everywhere_itemField value nofun
  have hchild {c : Element} (hc : c ∈ e.children) {w : Value}
      (hw : decode s validate (itemField f.valueType) c = .ok (some w)) :
      Decoded (itemField f.valueType) w :=
    have := Element.sizeOf_child_lt hc
    decoded_of_decode hitem hw
  rw [decode_eq] at h
  split at h
  · rename_i ht
    obtain ⟨entries, hentries, h⟩ := exists_of_bind h
    obtain ⟨w, hw, h⟩ := exists_of_bind h
    obtain rfl := eq_of_accept hw
    obtain ⟨members, hmembers, hamong⟩ := Value.exists_dictOf entries
    cases h
    rw [hmembers]
    refine .dict ht (fun d hd => ?_) fun d hd => ?_
    · obtain ⟨⟨d', hd', hk⟩, -⟩ := hamong d hd
      obtain ⟨⟨text, htext⟩, -⟩ := exists_of_decodeEntries hentries hd'
      exact hk ▸ isScalar_of_text htext
    · obtain ⟨-, d', hd', hv⟩ := hamong d hd
      obtain ⟨-, c, hc, hdecode⟩ := exists_of_decodeEntries hentries hd'
      exact hv ▸ hchild hc hdecode
  · rename_i hdict
    split at h
    · rename_i ht
      obtain ⟨items, hitems, h⟩ := exists_of_bind h
      obtain ⟨w, hw, h⟩ := exists_of_bind h
      obtain rfl := eq_of_accept hw
      cases h
      obtain ⟨members, hmembers, hamong⟩ := exists_collectionOf f.type items
      refine .collection ht hmembers fun w hw => ?_
      obtain ⟨c, hc, hdecode⟩ := exists_of_decodeItems hitems (hamong w hw)
      exact hchild hc hdecode
    · rename_i hcollection
      have ht : isScalarType f.type := ⟨hdict, Bool.eq_false_iff.2 hcollection⟩
      exact .scalar ht (isScalar_of_decodeScalar hf.here ht h)
termination_by sizeOf e

end ContentSchema.Document
