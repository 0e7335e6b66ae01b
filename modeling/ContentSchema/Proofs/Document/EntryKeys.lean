import ContentSchema.Proofs.Document.MissingValue
import ContentSchema.Proofs.Field.Alike

/-!
# Keys of entries

An entry of a dict is an element with the text of its key as an attribute (`IsEntryOf`), and nothing
asks whether another entry has the same text. Each such element is read on its own (`ReadsEntry`), and
of entries that are read with equal keys the dict keeps one.

Result: the attributes are distinct just if no two keys are written alike, and no entry is lost just if
no two keys are read alike (`distinct_keys_of_encode`).
-/
namespace ContentSchema.Document

open Markup (Element)

/-! ## Elements of entries -/

/-- Whether an element is an item and has the text of a key. -/
structure IsEntryOf (key : Field) (d : Value × Value) (e : Element) : Prop where
  /-- It is among the items. -/
  item : isItem e = true
  /-- The key has a text, which is an attribute. -/
  text : ∃ text, key.textOfValue d.1 = .ok text ∧ e.get? keyAttribute = some text

variable {force validate : Bool} {key item : Field} {ds : List (Value × Value)} {es : List Element}
  {s : Surroundings}

theorem isEntryOf_of_encodeEntries (h : encodeEntries force key item ds = .ok es) :
    List.Forall₂ (IsEntryOf key) ds es := by
  induction ds generalizing es with
  | nil =>
    rw [encodeEntries] at h
    cases h
    exact .nil
  | cons d ds ih =>
    obtain ⟨k, v⟩ := d
    simp only [encodeEntries] at h
    obtain ⟨e, he, h⟩ := exists_of_bind h
    obtain ⟨text, htext, h⟩ := exists_of_bind h
    obtain ⟨es, hes, h⟩ := exists_of_bind h
    cases h
    have htag : e.tag = itemTag := tag_encode he
    have hitem : isItem (e.set keyAttribute text) = true := isItem_of_tag htag
    refine .cons ⟨hitem, text, htext, ?_⟩ (ih hes)
    rw [Element.get?_set, if_pos rfl]

/-- Whether an element is read as an entry: its key attribute as the key, and the rest of it as the
value. -/
structure ReadsEntry (s : Surroundings) (validate : Bool) (key item : Field) (e : Element)
    (d : Value × Value) : Prop where
  /-- The key is read from its attribute. -/
  key : ∃ text, e.get? keyAttribute = some text ∧
    key.valueOfText s.resolve validate text = .ok d.1
  /-- The value is read from the element. -/
  value : decode s validate item e = .ok (some d.2)

theorem requireItem_eq_ok_iff {v : Option Value} {w : Value} :
    requireItem item v = .ok w ↔ v = some w := by
  cases v <;> simp [requireItem]

/-- Entries are read one by one. -/
theorem decodeEntries_eq_ok_iff (hitems : ∀ e ∈ es, isItem e = true) :
    decodeEntries s validate key item es = .ok ds ↔
      List.Forall₂ (ReadsEntry s validate key item) es ds := by
  induction es generalizing ds with
  | nil =>
    rw [decodeEntries, Except.ok.injEq, List.forall₂_nil_left_iff, eq_comm]
  | cons e es ih =>
    obtain ⟨he, hes⟩ := List.forall_mem_cons.1 hitems
    rw [decodeEntries, if_pos he]
    constructor
    · intro h
      split at h
      · cases h
      · rename_i text htext
        obtain ⟨k, hkey, h⟩ := exists_of_bind h
        obtain ⟨read, hread, h⟩ := exists_of_bind h
        obtain ⟨v, hv, h⟩ := exists_of_bind h
        obtain ⟨rest, hrest, h⟩ := exists_of_bind h
        cases h
        obtain rfl := requireItem_eq_ok_iff.1 hv
        exact .cons ⟨⟨text, htext, hkey⟩, hread⟩ ((ih hes).1 hrest)
    · intro h
      cases h with
      | cons hd hds =>
        obtain ⟨⟨text, htext, hkey⟩, hvalue⟩ := hd
        have hrest := (ih hes).2 hds
        rw [htext]
        simp only [hkey, hvalue, hrest, requireItem, bind, Except.bind]
        rfl

/-! ## Dicts -/

variable {f : Field} {tag : String} {entries : List (Value × Value)} {e : Element}

theorem children_of_encode_dict (h : encode true f tag (.dict entries) = .ok e) :
    List.Forall₂ (IsEntryOf (itemField f.keyType)) entries e.children := by
  simp only [encode, Bool.not_true, Bool.false_and, Bool.false_eq_true, if_false] at h
  obtain ⟨children, hchildren, h⟩ := exists_of_bind h
  cases h
  exact isEntryOf_of_encodeEntries hchildren

/-- A dict is read if its entries are, and accepted if it is valid or need not be. -/
theorem decode_dict_eq_ok_iff (ht : f.type = .dict) (hitems : ∀ c ∈ e.children, isItem c = true)
    {w : Option Value} : decode s validate f e = .ok w ↔
      ∃ read, List.Forall₂ (ReadsEntry s validate (itemField f.keyType) (itemField f.valueType))
        e.children read ∧ f.accept validate (Value.dictOf read) = .ok (Value.dictOf read) ∧
          w = some (Value.dictOf read) := by
  rw [decode_eq, if_pos ht]
  constructor
  · intro h
    obtain ⟨read, hread, h⟩ := exists_of_bind h
    obtain ⟨v, hv, h⟩ := exists_of_bind h
    cases h
    obtain rfl := eq_of_accept hv
    exact ⟨read, (decodeEntries_eq_ok_iff hitems).1 hread, hv, rfl⟩
  · rintro ⟨read, hread, haccept, rfl⟩
    rw [(decodeEntries_eq_ok_iff hitems).2 hread]
    simp only [bind, Except.bind, haccept]
    rfl

theorem parseText_of_valueOfText {resolve : Resolver} {text : String} {v : Value}
    (h : key.valueOfText resolve validate text = .ok v) : key.parseText resolve text = .ok v := by
  obtain ⟨w, hw, h⟩ := exists_of_bind h
  rw [hw, eq_of_accept h]

/-! ## Distinct keys -/

/-- Two keys of a dict are in order, and both are of the type of its keys. -/
def AreKeys (key : Field) (a b : Value × Value) : Prop :=
  Value.compare a.1 b.1 = .lt ∧ Field.admits key.type a.1 = true ∧ Field.admits key.type b.1 = true

theorem AreKeys.compare_ne {a b : Value × Value} (h : AreKeys key a b) :
    Value.compare a.1 b.1 ≠ .eq := by
  rw [h.1]
  decide

theorem areKeys_of_orderedKeys (hordered : Value.OrderedKeys ds)
    (hkeys : ∀ d ∈ ds, key.validate d.1 = .ok ()) : ds.Pairwise (AreKeys key) :=
  List.Pairwise.imp_of_mem (fun ha hb hab => ⟨hab, Field.admits_of_validate (hkeys _ ha),
    Field.admits_of_validate (hkeys _ hb)⟩) hordered

/-- The attributes of the keys are distinct just if no two keys are written alike. -/
theorem nodup_keys_iff (hentries : List.Forall₂ (IsEntryOf key) ds es)
    (hkeys : ds.Pairwise (AreKeys key)) :
    (es.map (·.get? keyAttribute)).Nodup ↔ ds.Pairwise fun a b => ¬ a.1.WrittenAlike b.1 := by
  rw [List.Nodup, List.pairwise_map]
  refine (pairwise_iff_of_forall₂ hentries hkeys fun {a a' c c'} hc hc' hab => ?_).symm
  obtain ⟨text, htext, hget⟩ := hc.text
  obtain ⟨text', htext', hget'⟩ := hc'.text
  rw [hget, hget', Ne, Option.some.injEq, Field.textOfValue_eq_iff htext htext' hab.compare_ne]

/-- The entries that are read make up a dict of as many just if no two keys are read alike. -/
theorem exists_dictOf_read (hentries : List.Forall₂ (IsEntryOf key) ds es)
    (hkeys : ds.Pairwise (AreKeys key)) {read : List (Value × Value)}
    (hread : List.Forall₂ (ReadsEntry s validate key item) es read) :
    ∃ members, Value.dictOf read = .dict members ∧
      (members.length = ds.length ↔ ds.Pairwise fun a b => ¬ key.ReadAlike a.1 b.1) := by
  obtain ⟨members, hdict, hlength⟩ := Value.length_dictOf_eq_iff read
  refine ⟨members, hdict, ?_⟩
  rw [hentries.length_eq, hread.length_eq, hlength]
  refine (pairwise_iff_of_forall₂ (forall₂_comp hentries hread) hkeys ?_).symm
  rintro a a' d d' ⟨c, hc, hd⟩ ⟨c', hc', hd'⟩ hab
  obtain ⟨text, htext, hget⟩ := hc.text
  obtain ⟨text', htext', hget'⟩ := hc'.text
  -- what is read are the texts that were written
  obtain ⟨_, hsame, hkey⟩ := hd.key
  obtain ⟨_, hsame', hkey'⟩ := hd'.key
  cases hget.symm.trans hsame
  cases hget'.symm.trans hsame'
  have hread := parseText_of_valueOfText hkey
  have hread' := parseText_of_valueOfText hkey'
  exact not_congr
    (Field.compare_read_iff htext htext' hread hread' hab.2.1 hab.2.2 hab.compare_ne).symm

/-- A dict that is written with force has an element with as many entries. The attributes of the keys
are distinct just if no two keys are written alike, which two keys may be only for some types of keys.
If the element is read, then as a dict, with all the entries just if no two keys are read alike. It is
read without validation just if each of its entries is. -/
theorem distinct_keys_of_encode (ht : f.type = .dict) (hordered : Value.OrderedKeys entries)
    (hkeys : ∀ d ∈ entries, (itemField f.keyType).validate d.1 = .ok ())
    (he : encode true f tag (.dict entries) = .ok e) :
    e.children.length = entries.length ∧
      ((e.children.map (·.get? keyAttribute)).Nodup ↔
        entries.Pairwise fun a b => ¬ a.1.WrittenAlike b.1) ∧
      ((itemField f.keyType).type ∉ Field.sharingTypes →
        (entries.Pairwise fun a b => ¬ a.1.WrittenAlike b.1) ∧
          ((itemField f.keyType).type ≠ .interfaceField →
            entries.Pairwise fun a b => ¬ (itemField f.keyType).ReadAlike a.1 b.1)) ∧
      (∀ s validate w, decode s validate f e = .ok w → ∃ members, w = some (.dict members) ∧
        (members.length = entries.length ↔
          entries.Pairwise fun a b => ¬ (itemField f.keyType).ReadAlike a.1 b.1)) ∧
      ∀ s, (∃ w, decode s false f e = .ok w) ↔
        ∀ c ∈ e.children,
          ∃ d, ReadsEntry s false (itemField f.keyType) (itemField f.valueType) c d := by
  have hentries := children_of_encode_dict he
  have hkeys := areKeys_of_orderedKeys hordered hkeys
  have hitems : ∀ c ∈ e.children, isItem c = true := fun c hc => by
    obtain ⟨d, -, hd⟩ := exists_of_forall₂_right hentries hc
    exact hd.item
  refine ⟨hentries.length_eq.symm, nodup_keys_iff hentries hkeys,
    fun hexact => ⟨?_, fun hinterface => ?_⟩, ?_, ?_⟩
  · exact hkeys.imp fun h => Field.not_writtenAlike hexact h.2.1 h.2.2
  · exact hkeys.imp fun h => Field.not_readAlike hexact hinterface h.2.1 h.2.2
  · intro s validate w hw
    obtain ⟨read, hread, -, rfl⟩ := (decode_dict_eq_ok_iff ht hitems).1 hw
    obtain ⟨members, hdict, hlength⟩ := exists_dictOf_read hentries hkeys hread
    exact ⟨members, congrArg some hdict, hlength⟩
  · intro s
    constructor
    · intro ⟨w, hw⟩ c hc
      obtain ⟨read, hread, -⟩ := (decode_dict_eq_ok_iff ht hitems).1 hw
      obtain ⟨d, -, hd⟩ := exists_of_forall₂_right (List.Forall₂.flip (R := flip _) hread) hc
      exact ⟨d, hd⟩
    · intro h
      obtain ⟨read, hread⟩ := exists_forall₂ h
      exact ⟨_, (decode_dict_eq_ok_iff ht hitems).2 ⟨read, hread, rfl, rfl⟩⟩

/-- Two entries, one under a text and one under a message. -/
def captions (id : String) : List (Value × Value) :=
  [(.text "a", .text "one"), (.message ⟨id, none, some "d"⟩, .text "two")]

/-- The elements that they are written as. -/
def captionsElement (id : String) : Element where
  tag := "value"
  children :=
    [{ tag := "element", attributes := [("key", "a")], text := some "one" },
      { tag := "element", attributes := [("key", id)], text := some "two" }]

theorem encode_captions (id : String) :
    encode true (Field.ofType .dict) "value" (.dict (captions id)) = .ok (captionsElement id) := rfl

theorem orderedKeys_captions (id : String) : Value.OrderedKeys (captions id) := by
  refine List.pairwise_cons.2 ⟨fun d hd => ?_, List.pairwise_singleton _ _⟩
  rw [List.mem_singleton.1 hd]
  rfl

theorem distinct_keys_of_encode_captions :
    let f := Field.ofType .dict
    Value.OrderedKeys (captions "b") ∧
      (∀ d ∈ captions "b", (itemField f.keyType).validate d.1 = .ok ()) ∧
      encode true f "value" (.dict (captions "b")) = .ok (captionsElement "b") ∧
      ((captionsElement "b").children.map (·.get? keyAttribute)).Nodup ∧
      (∃ w, decode ⟨fun _ => none, some "d"⟩ false f (captionsElement "b") = .ok w) ∧
      ∀ w, decode ⟨fun _ => none, some "d"⟩ false f (captionsElement "b") = .ok w →
        ∃ members, w = some (.dict members) ∧ members.length = 2 := by
  have hvalid : ∀ d ∈ captions "b",
      (itemField (Field.ofType .dict).keyType).validate d.1 = .ok () := by
    simp only [captions, List.forall_mem_cons, List.not_mem_nil, false_imp_iff, implies_true, and_true]
    exact ⟨rfl, rfl⟩
  obtain ⟨-, hdistinct, -, hread, hreads⟩ := distinct_keys_of_encode (f := Field.ofType .dict) rfl
    (orderedKeys_captions "b") hvalid (encode_captions "b")
  have hwritten : ¬ Value.WrittenAlike (.text "a") (.message ⟨"b", none, some "d"⟩) := fun h =>
    absurd (Option.some.inj h.text?_eq) (by decide)
  have hreadAlike : ¬ (itemField (Field.ofType .dict).keyType).ReadAlike (.text "a")
      (.message ⟨"b", none, some "d"⟩) :=
    mt (Field.readAlike_iff_writtenAlike (by decide) (by decide) fun _ => rfl).1 hwritten
  refine ⟨orderedKeys_captions "b", hvalid, encode_captions "b", hdistinct.2 ?_, ?_, fun w hw => ?_⟩
  · simpa [captions] using hwritten
  · refine (hreads _).2 fun c hc => ?_
    simp only [captionsElement, List.mem_cons, List.not_mem_nil, or_false] at hc
    rcases hc with rfl | rfl
    · exact ⟨(.text "a", .text "one"), ⟨"a", rfl, rfl⟩, rfl⟩
    · exact ⟨(.text "b", .text "two"), ⟨"b", rfl, rfl⟩, rfl⟩
  · obtain ⟨members, rfl, hlength⟩ := hread _ _ _ hw
    exact ⟨members, rfl, hlength.2 (by simpa [captions] using hreadAlike)⟩

/-- A text and a message with the text as its identifier are two valid keys that are written alike: both
attributes are the same, and one of the two entries is lost without an error. -/
theorem not_distinct_keys_captions :
    let f := Field.ofType .dict
    Value.OrderedKeys (captions "a") ∧ f.validate (.dict (captions "a")) = .ok () ∧
      (∀ d ∈ captions "a", (itemField f.keyType).validate d.1 = .ok ()) ∧
      encode true f "value" (.dict (captions "a")) = .ok (captionsElement "a") ∧
      ¬ ((captionsElement "a").children.map (·.get? keyAttribute)).Nodup ∧
      decode ⟨fun _ => none, some "d"⟩ true f (captionsElement "a") =
        .ok (some (.dict [(.text "a", .text "two")])) := by
  refine ⟨orderedKeys_captions "a", rfl, ?_, encode_captions "a", ?_, rfl⟩
  · simp only [captions, List.forall_mem_cons, List.not_mem_nil, false_imp_iff, implies_true, and_true]
    exact ⟨rfl, rfl⟩
  · have hkeys : (captionsElement "a").children.map (·.get? keyAttribute) =
        [some "a", some "a"] := rfl
    rw [hkeys]
    decide

end ContentSchema.Document
