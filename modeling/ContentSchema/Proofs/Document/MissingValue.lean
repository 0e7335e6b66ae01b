import ContentSchema.Proofs.Document.KeptValues
import ContentSchema.Proofs.Value.Equality

/-!
# Missing values that are left out

Without force a value is left out of its element if it equals the missing value of its field, also
inside of containers. The element is then blank, which a scalar field reads as the missing value and
a field of containers as the container without items (`decode_blank`). So what is written without
force reads back as `retained`: the value in which the containers that are left out have lost their
items (`Expressible.readsAsRetained`).

Results: a missing value that is left out is read back unless it is a container with items
(`decode_encode_missing`). With force such a container is written and read back
(`decode_encode_missing_lost`). Any other value is read back just if nothing is lost inside of it
(`decode_encode_unforced_iff`).
-/
namespace ContentSchema.Document

open Markup (Element)

/-! ## Blank elements -/

/-- The container without items that a type has. -/
def emptyContainer (t : FieldType) : Value := if t = .dict then .dict [] else collectionOf t []

/-- Whether the values of a type are containers. -/
def holdsItems (t : FieldType) : Bool := t == .dict || t.isCollection

/-- A blank element is a container without items, or no value and so the missing one. -/
theorem decode_blank (s : Surroundings) (validate : Bool) (f : Field) (tag : String) :
    decode s validate f { tag } =
      if holdsItems f.type = true then (f.accept validate (emptyContainer f.type)).map some
      else .ok f.missingValue := by
  rw [decode_eq]
  by_cases hdict : f.type = .dict
  · have hempty : emptyContainer f.type = Value.dictOf [] := by rw [hdict]; rfl
    rw [if_pos hdict, if_pos (by rw [hdict]; rfl), hempty, decodeEntries]
    cases hread : f.accept validate (Value.dictOf []) <;>
      simp [hread, bind, Except.bind, Except.map, pure, Except.pure]
  · have hholds : holdsItems f.type = f.type.isCollection := by simp [holdsItems, hdict]
    rw [if_neg hdict, hholds, emptyContainer, if_neg hdict, decodeItems]
    split
    · cases hread : f.accept validate (collectionOf f.type []) <;>
        simp [hread, bind, Except.bind, Except.map, pure, Except.pure]
    · rfl

theorem eq_emptyContainer_iff {t : FieldType} {v : Value} (h : Field.admits t v = true)
    (hv : v.isContainer = true) : v = emptyContainer t ↔ v.isEmpty = true := by
  cases v with
  | list items | tuple items | set items | dict items =>
    cases t <;> first
      | exact Bool.noConfusion h
      | cases items <;>
          simp [emptyContainer, collectionOf, Value.setOf, Value.isEmpty, Value.length?]
  | _ => cases hv

/-! ## What is retained -/

mutual

/-- What a value reads back as once missing values are left out. -/
def retained (f : Field) (v : Value) : Value :=
  if f.missingValue == some v then
    if v.isContainer then emptyContainer f.type else f.missingValue.getD v
  else match v with
    | .list items => .list (retainedItems (itemField f.valueType) items)
    | .tuple items => .tuple (retainedItems (itemField f.valueType) items)
    | .set items => Value.setOf (retainedItems (itemField f.valueType) items)
    | .dict entries => .dict (retainedEntries (itemField f.valueType) entries)
    | v => v

/-- What items read back as. -/
def retainedItems (item : Field) : List Value → List Value
  | [] => []
  | v :: vs => retained item v :: retainedItems item vs

/-- What entries read back as. -/
def retainedEntries (item : Field) : List (Value × Value) → List (Value × Value)
  | [] => []
  | (k, v) :: es => (k, retained item v) :: retainedEntries item es

end

/-- Whether a value is written without force, and reads back as what is retained of it. -/
def ReadsAsRetained (s : Surroundings) (f : Field) (v : Value) : Prop :=
  ∀ tag, ∃ e, encode false f tag v = .ok e ∧ e.tag = tag ∧
    decode s false f e = .ok (some (retained f v))

variable {s : Surroundings}

/-- A missing value is left out, so that only other values have to be looked at. -/
theorem readsAsRetained_of_rest {f : Field} {v : Value}
    (hcontainer : v.isContainer = holdsItems f.type)
    (hrest : (f.missingValue == some v) = false → ReadsAsRetained s f v) :
    ReadsAsRetained s f v := by
  cases hmissing : f.missingValue == some v with
  | false => exact hrest hmissing
  | true =>
    refine fun tag => ⟨{ tag }, encode_missingValue hmissing tag, rfl, ?_⟩
    have hretained : retained f v =
        if v.isContainer then emptyContainer f.type else f.missingValue.getD v := by
      cases v <;> simp only [retained, hmissing, if_true]
    rw [decode_blank, hretained, hcontainer]
    split
    · rfl
    · cases hm : f.missingValue with
      | none =>
        rw [hm] at hmissing
        cases hmissing
      | some m => rfl

theorem exists_unforcedItems {item : Field} {vs : List Value}
    (h : ∀ v ∈ vs, ReadsAsRetained s item v) :
    ∃ es, encodeItems false item vs = .ok es ∧
      decodeItems s false item es = .ok (retainedItems item vs) := by
  induction vs with
  | nil => exact ⟨[], by rw [encodeItems], by rw [decodeItems, retainedItems]⟩
  | cons v vs ih =>
    obtain ⟨e, he, htag, hread⟩ := h v (.head _) itemTag
    obtain ⟨es, hes, hreads⟩ := ih fun w hw => h w (.tail _ hw)
    refine ⟨e :: es, ?_, ?_⟩
    · simp only [encodeItems, he, hes, bind, Except.bind, pure, Except.pure]
    · simp only [decodeItems, isItem_of_tag htag, if_true, hread, hreads, requireItem,
        retainedItems, bind, Except.bind, pure, Except.pure]

/-- The key of an entry does not count in its value. -/
theorem decode_set_key (validate : Bool) (f : Field) (e : Element) (key : String) :
    decode s validate f (e.set keyAttribute key) = decode s validate f e := by
  have hmessage (v : Value) :
      asMessage s.domain (e.set keyAttribute key) v = asMessage s.domain e v := by
    unfold asMessage
    rw [Element.get?_set, Element.get?_set, if_neg keyAttribute_ne_translate,
      if_neg keyAttribute_ne_domain]
  have hscalar :
      decodeScalar s validate f (e.set keyAttribute key) = decodeScalar s validate f e := by
    unfold decodeScalar
    simp only [hmessage]
    rfl
  rw [decode_eq, decode_eq, hscalar]
  rfl

theorem exists_unforcedEntries {key item : Field} {ds : List (Value × Value)}
    (hkeys : ∀ d ∈ ds, key.PlainScalar s.resolve d.1) (h : ∀ d ∈ ds, ReadsAsRetained s item d.2) :
    ∃ es, encodeEntries false key item ds = .ok es ∧
      decodeEntries s false key item es = .ok (retainedEntries item ds) := by
  induction ds with
  | nil => exact ⟨[], by rw [encodeEntries], by rw [decodeEntries, retainedEntries]⟩
  | cons d ds ih =>
    obtain ⟨k, v⟩ := d
    obtain ⟨text, htext, -, hparse⟩ := (hkeys _ (.head _)).exists_text
    obtain ⟨e, he, htag, hread⟩ := h _ (.head _) itemTag
    obtain ⟨es, hes, hreads⟩ := ih (fun d hd => hkeys d (.tail _ hd)) fun d hd => h d (.tail _ hd)
    refine ⟨e.set keyAttribute text :: es, ?_, ?_⟩
    · simp only [encodeEntries, he, htext, hes, bind, Except.bind, pure, Except.pure]
    · have hitem : isItem (e.set keyAttribute text) = true := isItem_of_tag htag
      have hget : (e.set keyAttribute text).get? keyAttribute = some text := by
        rw [Element.get?_set, if_pos rfl]
      have hkey : key.valueOfText s.resolve false text = .ok k :=
        valueOfText_ok (hparse rfl rfl) nofun
      simp only [decodeEntries, hitem, if_true, hget, hkey, decode_set_key, hread, hreads,
        requireItem, retainedEntries, bind, Except.bind, pure, Except.pure]

theorem Expressible.isContainer {resolve : Resolver} {domains : Set String} {validate : Bool}
    {f : Field} {v : Value} (h : Expressible resolve domains validate f v) :
    v.isContainer = holdsItems f.type := by
  cases h with
  | scalar h =>
    obtain ⟨hdict, hcollection⟩ := not_container_of_plainScalar h
    have hholds : holdsItems f.type = false := by simp [holdsItems, hdict, hcollection]
    rw [hholds]
    cases h <;> rfl
  | message ht =>
    have htextual := isTextual_of_admitsMessages ht
    cases hf : f.type <;> first | rfl | simp [hf, FieldType.isTextual] at htextual
  | list ht | tuple ht | dict ht => rw [ht]; rfl
  | set ht => rcases ht with ht | ht <;> rw [ht] <;> rfl

theorem retained_of_scalar {f : Field} {v : Value} (hmissing : (f.missingValue == some v) = false)
    (hv : v.isContainer = false) : retained f v = v := by
  cases v <;> first
    | exact Bool.noConfusion hv
    | simp only [retained, hmissing, Bool.false_eq_true, if_false]

/-- A scalar that is not the missing value is written as with force. -/
theorem readsAsRetained_of_scalar {domains : Set String} {f : Field} {v : Value}
    (hdomain : s.domain.isSome = true) (h : Expressible s.resolve domains false f v)
    (hv : v.isContainer = false) : ReadsAsRetained s f v := by
  refine readsAsRetained_of_rest h.isContainer fun hmissing tag => ?_
  obtain ⟨e, he, htag, hrep⟩ := h.exists_element nofun tag
  obtain ⟨domain, hd⟩ := Option.isSome_iff_exists.1 hdomain
  refine ⟨e, by rw [encode_unforced hmissing tag hv, he], htag, ?_⟩
  rw [retained_of_scalar hmissing hv]
  exact hrep.decode rfl (.refl f) (hd ▸ hrep.regular.sameContent domain)

/-- A collection is written with its items, if it is not the missing value. -/
theorem readsAsRetained_of_items {f : Field} {v : Value} {vs : List Value}
    (ht : f.type.isCollection = true) (hv : v.isContainer = true)
    (hitems : ∀ w ∈ vs, ReadsAsRetained s (itemField f.valueType) w)
    (hencode : (f.missingValue == some v) = false → ∀ tag, encode false f tag v = do
      return { tag, children := ← encodeItems false (itemField f.valueType) vs })
    (hretained : (f.missingValue == some v) = false →
      retained f v = collectionOf f.type (retainedItems (itemField f.valueType) vs)) :
    ReadsAsRetained s f v := by
  have hcontainer : v.isContainer = holdsItems f.type := by rw [hv, holdsItems, ht, Bool.or_true]
  have hdict : f.type ≠ .dict := fun hdict => by simp [hdict, FieldType.isCollection] at ht
  refine readsAsRetained_of_rest hcontainer fun hmissing tag => ?_
  obtain ⟨es, hes, hread⟩ := exists_unforcedItems hitems
  refine ⟨{ tag, children := es }, by rw [hencode hmissing, hes]; rfl, rfl, ?_⟩
  rw [decode_eq, if_neg hdict, if_pos ht, hread, hretained hmissing]
  rfl

theorem orderedKeys_retainedEntries (item : Field) {ds : List (Value × Value)}
    (h : Value.OrderedKeys ds) : Value.OrderedKeys (retainedEntries item ds) := by
  have hkeys (ds : List (Value × Value)) : (retainedEntries item ds).map (·.1) = ds.map (·.1) := by
    induction ds with
    | nil => rw [retainedEntries]
    | cons d ds ih => rw [retainedEntries, List.map_cons, List.map_cons, ih]
  have hordered :
      ((retainedEntries item ds).map (·.1)).Pairwise fun a b => Value.compare a b = .lt := by
    rw [hkeys]
    exact List.pairwise_map.2 h
  exact List.pairwise_map.1 hordered

/-- What is written without force reads back as what is retained of it. -/
theorem Expressible.readsAsRetained {domains : Set String} {f : Field} {v : Value}
    (hdomain : s.domain.isSome = true) (h : Expressible s.resolve domains false f v) :
    ReadsAsRetained s f v := by
  induction h with
  | @scalar f v h =>
    have hself : Expressible s.resolve domains false f v := .scalar h
    exact readsAsRetained_of_scalar hdomain hself (by cases h <;> rfl)
  | message ht hm hbounds => exact readsAsRetained_of_scalar hdomain (.message ht hm hbounds) rfl
  | list ht _ _ ih | tuple ht _ _ ih =>
    refine readsAsRetained_of_items (by rw [ht]; rfl) rfl ih (fun hmissing tag => ?_)
      fun hmissing => ?_
    · simp only [encode, hmissing, Bool.and_false, Bool.false_eq_true, if_false]
    · simp only [ht, retained, hmissing, Bool.false_eq_true, if_false, collectionOf]
  | set ht _ _ _ ih =>
    refine readsAsRetained_of_items (by rcases ht with ht | ht <;> rw [ht] <;> rfl) rfl ih
      (fun hmissing tag => ?_) fun hmissing => ?_
    · simp only [encode, hmissing, Bool.and_false, Bool.false_eq_true, if_false]
    · rcases ht with ht | ht <;>
        simp only [ht, retained, hmissing, Bool.false_eq_true, if_false, collectionOf]
  | @dict f ds ht hordered hkeys hkeysValid hitems hvalid ih =>
    have hself := Expressible.dict ht hordered hkeys hkeysValid hitems hvalid
    refine readsAsRetained_of_rest hself.isContainer fun hmissing tag => ?_
    obtain ⟨es, hes, hread⟩ := exists_unforcedEntries hkeys ih
    refine ⟨{ tag, children := es }, ?_, rfl, ?_⟩
    · simp only [encode, hmissing, Bool.and_false, Bool.false_eq_true, if_false, hes, bind,
        Except.bind, pure, Except.pure]
    · rw [decode_eq, if_pos ht, hread]
      simp only [retained, hmissing, Bool.false_eq_true, if_false, bind, Except.bind,
        Value.dictOf_of_ordered (orderedKeys_retainedEntries _ hordered)]
      rfl

/-- A value is read back just if all of it is retained. -/
theorem decode_encode_unforced_iff {domains : Set String} {f : Field} {v : Value}
    (hdomain : s.domain.isSome = true) (h : Expressible s.resolve domains false f v)
    (tag : String) :
    ∃ e, encode false f tag v = .ok e ∧ (decode s false f e = .ok (some v) ↔ retained f v = v) := by
  obtain ⟨e, he, -, hread⟩ := h.readsAsRetained hdomain tag
  refine ⟨e, he, ?_⟩
  rw [hread, Except.ok.injEq, Option.some.injEq]

/-! ## Missing values -/

/-- A missing value that is valid is left out without force, and the element reads back as it unless
it is a container with items. -/
theorem decode_encode_missing (s : Surroundings) (validate : Bool) {f : Field} {m : Value}
    (hm : f.missingValue = some m) (hv : f.validate m = .ok ()) (tag : String) :
    ∃ e, encode false f tag m = .ok e ∧
      (decode s validate f e = .ok (some m) ↔ (m.isContainer = true → m.isEmpty = true)) := by
  have hmissing : (f.missingValue == some m) = true := by
    rw [hm]
    exact Value.beq_iff.2 (Std.ReflCmp.compare_self)
  have hadmits := Field.admits_of_validate hv
  have hholds : holdsItems f.type = m.isContainer := (Field.isContainer_of_admits hadmits).symm
  refine ⟨{ tag }, encode_missingValue hmissing tag, ?_⟩
  rw [decode_blank, hm, hholds]
  cases hcontainer : m.isContainer with
  | false =>
    rw [if_neg Bool.false_ne_true]
    exact iff_of_true rfl nofun
  | true =>
    rw [if_pos rfl, ← eq_emptyContainer_iff hadmits hcontainer]
    constructor
    · intro hread _
      cases haccept : f.accept validate (emptyContainer f.type) with
      | error e =>
        rw [haccept] at hread
        cases hread
      | ok w =>
        rw [haccept] at hread
        cases hread
        exact eq_of_accept haccept
    · intro hempty
      rw [← hempty rfl, accept_ok fun _ => hv]
      rfl

/-- A list of numbers, with a list of one number as its missing value. -/
def numbersOrOne : Field :=
  { Field.ofType .list with
    valueType := some (Field.ofType .int)
    missingValue := some (.list [.int 1]) }

theorem decode_encode_missing_noNumbers :
    let f := { numbersOrOne with missingValue := some (.list []) }
    f.validate (.list []) = .ok () ∧ ∃ e, encode false f "value" (.list []) = .ok e ∧
      (decode ⟨fun _ => none, none⟩ true f e = .ok (some (.list [])) ↔
        ((Value.list []).isContainer = true → (Value.list []).isEmpty = true)) :=
  ⟨rfl, decode_encode_missing ⟨fun _ => none, none⟩ true rfl rfl "value"⟩

/-- A missing value with items is read back with force, and lost without. -/
theorem decode_encode_missing_lost :
    numbersOrOne.validate (.list [.int 1]) = .ok () ∧
      (∃ e, encode true numbersOrOne "value" (.list [.int 1]) = .ok e ∧
        decode ⟨fun _ => none, none⟩ true numbersOrOne e = .ok (some (.list [.int 1]))) ∧
      ∃ e, encode false numbersOrOne "value" (.list [.int 1]) = .ok e ∧
        decode ⟨fun _ => none, none⟩ true numbersOrOne e = .ok (some (.list [])) ∧
        decode ⟨fun _ => none, none⟩ true numbersOrOne e ≠ .ok (some (.list [.int 1])) :=
  ⟨rfl, ⟨_, rfl, rfl⟩, ⟨_, rfl, rfl, nofun⟩⟩

end ContentSchema.Document
