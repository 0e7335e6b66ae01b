import ContentSchema.Proofs.Document.FieldReader

/-!
# Defaults that were read

A default is checked before it may become a message, so it is checked as the text that is shown of
it (`Value.unmarked`). That text is valid for the finished field. The default itself is valid unless
it is a message and the field has none among its values (`validate_default`), which happens: a
message may be the default of a field of ASCII texts (`validate_default_message`).
-/
namespace ContentSchema

/-- The text that is shown for a message; any other value itself. -/
def Value.unmarked : Value → Value
  | .message m => .text m.text
  | v => v

namespace Field

variable {f : Field} {m : Message}

/-! ## Messages that are valid -/

theorem validateType_ok_iff {v : Value} : f.validateType v = .ok () ↔ admits f.type v = true := by
  unfold validateType
  split <;> simp_all

theorem admits_message_iff {t : FieldType} :
    admits t (.message m) = true ↔ admitsMessages t = true ∨ t = .choice := by
  cases t <;> simp [admits, admitsMessages, Value.kind, Value.isContainer]

/-- Ordered values are no texts. -/
theorem not_isOrderable_of_text {text : String} (h : f.validate (.text text) = .ok ()) :
    f.type.isOrderable = false := by
  rw [validate_ok_iff_of_scalar rfl, validateShallow_ok_iff, validateType_ok_iff] at h
  obtain ⟨⟨htype, -⟩, -⟩ := h
  cases ht : f.type <;> rw [ht] at htype <;> first | rfl | cases htype

/-- Whether a field lets a message pass whose text is valid. -/
def TakesMessage (f : Field) (m : Message) : Prop :=
  admitsMessages f.type = true ∨ f.type = .choice ∧ f.validateTerm (.message m) = .ok ()

/-- A message passes where its text does, if the field takes it and has no bounds. -/
theorem validate_message_iff (hmin : f.min = none) (hmax : f.max = none)
    (ht : f.validate (.text m.text) = .ok ()) :
    f.validate (.message m) = .ok () ↔ f.TakesMessage m := by
  rw [validate_ok_iff_of_scalar rfl, validateShallow_ok_iff] at ht ⊢
  obtain ⟨⟨-, -, hlength, htext⟩, -⟩ := ht
  have hbounds : f.validateBounds (.message m) = .ok () := by
    rw [validateBounds_ok_iff, hmin, hmax]
    exact ⟨nofun, nofun⟩
  have hform : f.validateText (.message m) = .ok () := by
    unfold validateText at htext ⊢
    split at htext
    · cases htext
    · rename_i hline
      rw [if_neg (show ¬ (f.type.isLine && hasLineBreak (.message m)) = true from hline)]
      rfl
  have hterm (h : admitsMessages f.type = true) : f.validateTerm (.message m) = .ok () := by
    unfold validateTerm
    cases hf : f.type <;> first | rfl | simp [hf, admitsMessages] at h
  rw [validateType_ok_iff, admits_message_iff]
  constructor
  · rintro ⟨⟨htype | hchoice, -⟩, hterm⟩
    · exact .inl htype
    · exact .inr ⟨hchoice, hterm⟩
  · rintro (htype | ⟨hchoice, hterm'⟩)
    · exact ⟨⟨.inl htype, hbounds, hlength, hform⟩, hterm htype⟩
    · exact ⟨⟨.inr hchoice, hbounds, hlength, hform⟩, hterm'⟩

end Field
end ContentSchema

namespace ContentSchema.Document

open FieldCodec (standard)
open Markup (Element)

/-! ## Values that were checked -/

theorem of_accept {f : Field} {v w : Value} (h : f.accept true v = .ok w) :
    w = v ∧ f.validate v = .ok () := by
  unfold Field.accept at h
  rw [if_pos rfl] at h
  split at h
  · rename_i hv
    exact ⟨(Except.ok.inj h).symm, hv⟩
  · cases h

theorem unmarked_collectionOf (type : FieldType) (items : List Value) :
    (collectionOf type items).unmarked = collectionOf type items := by
  unfold collectionOf
  split <;> rfl

theorem unmarked_of_isParsed {v : Value} (h : Field.IsParsed v) : v.unmarked = v := by
  cases h <;> rfl

theorem unmarked_asMessage {domain : Option String} {e : Element} {v : Value}
    (h : v.unmarked = v) : (asMessage domain e v).unmarked = v := by
  unfold asMessage
  split
  · split <;> rfl
  · exact h

/-- What is read of an element is valid once it counts as its text, unless it is the missing
value. -/
theorem validate_of_decode {s : Surroundings} {f : Field} {e : Element} {v : Value}
    (h : decode s true f e = .ok (some v)) (hmissing : f.missingValue = none) :
    f.validate v.unmarked = .ok () := by
  rw [decode_eq] at h
  split at h
  · obtain ⟨entries, -, h⟩ := exists_of_bind h
    obtain ⟨w, hw, h⟩ := exists_of_bind h
    obtain ⟨rfl, hv⟩ := of_accept hw
    cases h
    exact hv
  · split at h
    · obtain ⟨items, -, h⟩ := exists_of_bind h
      obtain ⟨w, hw, h⟩ := exists_of_bind h
      obtain ⟨rfl, hv⟩ := of_accept hw
      cases h
      rw [unmarked_collectionOf]
      exact hv
    · unfold decodeScalar at h
      rw [hmissing] at h
      split at h
      · split at h
        · cases h
        · obtain ⟨w, hw, h⟩ := exists_of_bind h
          cases h
          obtain ⟨parsed, hparsed, hw⟩ := exists_of_bind hw
          obtain ⟨rfl, hv⟩ := of_accept hw
          rw [unmarked_asMessage (unmarked_of_isParsed (Field.isParsed_of_parseText hparsed))]
          exact hv
      · cases h

/-! ## Defaults -/

section ReadFrom

variable {s : Scope} {t : FieldType} {e : Element} {g : Field} {m : Nat}

/-- Values that are not ordered have no bounds. -/
theorem ReadFrom.unbounded (h : ReadFrom s t e m g) (ht : t.isOrderable = false) :
    g.min = none ∧ g.max = none := by
  have hnone {name : String} {f : Field} {v : Option Value} (hn : name = "min" ∨ name = "max")
      (hv : ValueRead s t e.children f name v) : v = none := by
    cases hv with
    | absent => rfl
    | read _ declared _ =>
      obtain ⟨spec, hspec⟩ := Option.ne_none_iff_exists'.1 declared
      rw [FieldCodec.isOrderable_of_declared hspec hn] at ht
      cases ht
  exact ⟨hnone (.inl rfl) h.min, hnone (.inr rfl) h.max⟩

/-- A default that was read is valid once it counts as its text. -/
theorem ReadFrom.validate_unmarked (h : ReadFrom s t e m g) {d : Value}
    (hd : g.default = some d) : g.validate d.unmarked = .ok () := by
  have hdefault := h.default
  rw [hd] at hdefault
  cases hdefault with
  | read _ _ hread =>
    have hvalid := validate_of_decode hread rfl
    -- neither the default nor the missing value counts
    have hlooser : g.Looser (valued g g.min g.max none none) := by
      obtain ⟨type, min, max, minLength, maxLength, minDots, maxDots, unique, vocabulary, hasKey, key,
        hasValue, value⟩ := Field.Looser.refl g
      exact ⟨rfl, .inr rfl, .inr rfl, rfl, rfl, rfl, rfl, id, rfl, rfl, key, rfl, value⟩
    exact hlooser.validate _ hvalid

/-- A default that was read is valid unless it is a message that its field does not take. -/
theorem ReadFrom.validate_iff (h : ReadFrom s t e m g) {d : Value} (hd : g.default = some d) :
    g.validate d = .ok () ↔ ∀ message, d = .message message → g.TakesMessage message := by
  have hvalid := h.validate_unmarked hd
  cases d with
  | message message =>
    have ht : t.isOrderable = false := by
      rw [← h.fixed.2.1]
      exact Field.not_isOrderable_of_text hvalid
    rw [Field.validate_message_iff (h.unbounded ht).1 (h.unbounded ht).2 hvalid]
    constructor
    · intro htakes _ hm
      cases hm
      exact htakes
    · exact fun htakes => htakes message rfl
  | _ => exact ⟨fun _ => nofun, fun _ => hvalid⟩

end ReadFrom

/-- The default of a field that was read is valid once it counts as its text, and so is that of every
nested field. It is valid itself unless it is a message that the field does not take. -/
theorem validate_default (s : Scope) (hr : s.registry = Registry.standard) {identifier : String}
    {codec : FieldCodec} (hcodec : s.registry.get? identifier = some codec) (e : Element)
    {p q : Progress} {f : Field} (h : (readField s codec e).start p = (.ok f, q)) :
    f.Everywhere fun g => ∀ d, g.default = some d →
      g.validate d.unmarked = .ok () ∧
        (g.validate d = .ok () ↔ ∀ message, d = .message message → g.TakesMessage message) := by
  rw [hr] at hcodec
  obtain ⟨t, -, rfl⟩ := Registry.of_get?_standard hcodec
  refine (everywhere_of_yields hr (Reading.yields_of_start h)).imp fun g hg d hd => ?_
  obtain ⟨u, c, i, -, hread⟩ := hg
  exact ⟨hread.validate_unmarked hd, hread.validate_iff hd⟩

/-- The element of a field of the given type with a message for its default. -/
def messageDefault (tag : String) (t : FieldType) : Element :=
  { tag
    attributes := [("type", t.identifier)]
    children := [{ tag := "default", attributes := [(translateAttribute, "")], text := some "x" }] }

/-- The element of a list of such fields, with two of their values for its default. -/
def messageListDefault (t : FieldType) : Element :=
  { tag := "field"
    attributes := [("type", FieldType.list.identifier)]
    children := [messageDefault "value_type" t,
      { tag := "default", children := [{ tag := "element", text := some "a" },
        { tag := "element", text := some "b" }] }] }

/-- A list of lines of text, whose default is a list and that of its items a message. -/
theorem validate_default_list :
    let s : Scope := ⟨⟨fun _ => none, some "d"⟩, Registry.standard⟩
    ∃ f q, (readField s (standard .list) (messageListDefault .textLine)).start {} = (.ok f, q) ∧
      f.default = some (.list [.text "a", .text "b"]) ∧
      f.valueType.bind (·.default) = some (.message ⟨"x", none, some "d"⟩) ∧
      f.Everywhere fun g => ∀ d, g.default = some d →
        g.validate d.unmarked = .ok () ∧
          (g.validate d = .ok () ↔ ∀ message, d = .message message → g.TakesMessage message) := by
  intro s
  obtain ⟨f, q, h, hdefault, hitem⟩ : ∃ f q,
      (readField s (standard .list) (messageListDefault .textLine)).start {} = (.ok f, q) ∧
        f.default = some (.list [.text "a", .text "b"]) ∧
        f.valueType.bind (·.default) = some (.message ⟨"x", none, some "d"⟩) :=
    ⟨_, _, rfl, rfl, rfl⟩
  exact ⟨f, q, h, hdefault, hitem, validate_default s rfl (Registry.get?_standard .list) _ h⟩

/-- A field of ASCII texts has no messages among its values, and yet one is read for its default. -/
theorem validate_default_message :
    ∃ f q, (readField ⟨⟨fun _ => none, some "d"⟩, Registry.standard⟩ (standard .ascii)
        (messageDefault "field" .ascii)).start {} = (.ok f, q) ∧
      f.default = some (.message ⟨"x", none, some "d"⟩) ∧
      f.validate (.message ⟨"x", none, some "d"⟩) = .error (.wrongType .ascii .message) :=
  ⟨_, _, rfl, rfl, rfl⟩

end ContentSchema.Document
