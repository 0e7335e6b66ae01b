import ContentSchema.Proofs.Document.Adorned
import ContentSchema.Proofs.Schema.Sync
import ContentSchema.Proofs.Schema.Hierarchy
import ContentSchema.Proofs.Text.Utf8

/-!
# Texts for users in models

A schema is written with an element for each field of its own, and for each other field that a fieldset
lists (`exists_mem_of_field`, `exists_field_of_mem`). What is read from these elements are fields with
the same names, so that under each name the field is found that was read for the field of that name,
even if several elements have the name (`reworded_of_readSchema`).

Result: titles and descriptions come back when a model is written and read again, in so far as messages
survive (`wording_of_parse`), with any handlers that leave them alone. Whether they do depends on the
message domain of the whole document. Where there is none, messages are lost (`message_lost`, which has
a case for each of the other conditions too).
-/
namespace ContentSchema

/-- Whether the fields that a schema finds, its own and inherited ones, bear the names under which they
are found. -/
def Schema.NamesFields (s : Schema) : Prop := ∀ name f, s.get? name = some f → f.name = name

/-- So do the fields of a schema if it and its ancestors store fields under their names. -/
theorem Schema.namesFields_of_hierarchy {s : Schema} (h : ∀ t, IsIn t s → t.StoresByName) :
    s.NamesFields := fun name f hf => by
  obtain ⟨t, ht, hf⟩ := List.exists_of_findSome?_eq_some hf
  exact h t (isIn_of_mem_resolutionOrder ht) name f hf

namespace Document

open Markup (DocumentError Element PartialDocument WellNamed Writable isPlainName lineAt tokensFrom
  withoutMark writeElement)

/-- Whether documents carry the texts for users: the codecs of types do, and handlers leave them
alone. -/
structure Context.CarriesWording (c : Context) : Prop where
  /-- The codecs carry texts. -/
  registry : c.registry.CarriesWording
  /-- Handlers leave texts alone. -/
  handlers : HandlersLeaveWording c

theorem Context.CarriesWording.writesPlainly {c : Context} (hc : Context.CarriesWording c) :
    Context.WritesPlainly c :=
  ⟨hc.registry.namesPlainly, hc.handlers.adorn⟩

/-! ## Elements of fields -/

/-- Markup of further namespaces does not change what an element says of a field. -/
theorem HoldsField.adorned {registry : Registry} {f : Field} {codec : FieldCodec}
    (hc : codec.CarriesWording) {label : Option String} {e e' : Element}
    (he : HoldsField registry f codec label e) (h : Adorns e e') :
    HoldsField registry f codec label e' where
  named := (h.attributes "name" (by decide)).trans he.named
  typed := (h.attributes "type" (by decide)).trans he.typed
  inside c hmem hmodel := he.inside c ((h.children c hmodel).1 hmem) hmodel
  written name spec hspec hwrites := by
    obtain ⟨w, hok, hinside⟩ := he.written name spec hspec hwrites
    refine ⟨w, hok, fun c hw => ?_⟩
    rw [hw] at hok
    exact (h.children c (model_attributeElement hc hspec hok).1).2 (hinside c hw)

/-- What the element is that was written for a field of a schema. -/
structure IsElementOf (c : Context) (f : Field) (d : Element) : Prop where
  /-- It is a `field` element of the model. -/
  model : d.isModelElement = true ∧ d.localName = "field"
  /-- Names are plain. -/
  wellNamed : WellNamed d
  /-- It holds the field. -/
  holds : ∃ codec, c.registry.get? f.typeIdentifier = some codec ∧
    HoldsField c.registry f codec (some f.name) d

section Written

variable {c : Context} (hc : Context.CarriesWording c) {s : Schema}

include hc

theorem isElementOf_of_fieldElement {f : Field} {d : Element} (h : fieldElement c s f = .ok d) :
    IsElementOf c f d := by
  obtain ⟨hnamed, hmodel, codec, e, hcodec, hwrite, hadorns⟩ := exists_writeField hc.writesPlainly h
  exact ⟨hmodel, hnamed, codec, hcodec,
    (isWritten_of_writeField hwrite).holdsField.adorned (hc.registry _ _ hcodec) hadorns⟩

section Schema

variable {name : String} {e : Element} (h : schemaElement c name s = .ok e)

include h

/-- The elements of fields inside are those of fields that the schema finds. -/
theorem exists_field_of_mem {d : Element} (hd : d ∈ fieldElements e) :
    ∃ name f, s.get? name = some f ∧ fieldElement c s f = .ok d := by
  obtain ⟨fields, sets, hfields, hsets, hadorns⟩ := exists_adorned hc.writesPlainly h
  obtain ⟨p, hp, hd⟩ := List.mem_flatMap.1 hd
  obtain ⟨hmodel, hways⟩ := mem_fieldsAt.1 hd
  rcases List.mem_append.1 ((hadorns.children p hmodel).1 hp) with hp | hp
  · rcases List.mem_append.1 hp with hp | hp
    · obtain ⟨i, -, rfl⟩ := List.mem_map.1 hp
      have hlocal : (invariantElement i).localName = "invariant" :=
        (model_of_plain rfl (show isPlainName "invariant" = true by decide)).2
      rw [hlocal] at hways
      exact hways.elim (fun h => absurd h.1 (by decide)) fun h => absurd h.1 (by decide)
    · obtain ⟨f, hmem, hf⟩ := exists_of_forall₂_right hfields hp
      have hlocal := (isElementOf_of_fieldElement hc hf).model.2
      rcases hways with ⟨-, rfl⟩ | ⟨hset, -⟩
      · obtain ⟨⟨key, _⟩, hentry, rfl⟩ := List.mem_map.1 (mem_ungroupedFields.1 hmem).1
        exact ⟨key, _, Schema.get?_own ((NameMap.mem_entries_iff _).1 hentry), hf⟩
      · exact absurd (hlocal.symm.trans hset) (by decide)
  · obtain ⟨set, -, hset⟩ := exists_of_forall₂_right hsets hp
    obtain ⟨-, -, hlocal, hmembers⟩ := exists_members hc.writesPlainly hset
    rcases hways with ⟨hfield, -⟩ | ⟨-, hd⟩
    · exact absurd (hlocal.symm.trans hfield) (by decide)
    · obtain ⟨name, -, hf⟩ := exists_of_forall₂_right hmembers (List.mem_of_mem_filter hd)
      exact ⟨name, hf⟩

/-- Each field of the schema's own has an element inside. -/
theorem exists_mem_of_field (hn : s.NamesFields) {key : String} {f : Field}
    (hf : s.fields.get? key = some f) : ∃ d ∈ fieldElements e, fieldElement c s f = .ok d := by
  obtain ⟨fields, sets, hfields, hsets, hadorns⟩ := exists_adorned hc.writesPlainly h
  have hfound := Schema.get?_own hf
  obtain rfl := hn key f hfound
  by_cases hlisted : ∃ set ∈ s.fieldsets, f.name ∈ set.fields
  · obtain ⟨set, hset, hmember⟩ := hlisted
    obtain ⟨p, hp, hset⟩ := exists_of_forall₂_right hsets.flip hset
    obtain ⟨-, hmodel, hlocal, hmembers⟩ := exists_members hc.writesPlainly hset
    obtain ⟨d, hd, g, hg, hwritten⟩ := exists_of_forall₂_right hmembers.flip hmember
    cases hg.symm.trans hfound
    obtain ⟨hmodel', hlocal'⟩ := (isElementOf_of_fieldElement hc hwritten).model
    refine ⟨d, List.mem_flatMap.2 ⟨p, (hadorns.children p hmodel).2 ?_, ?_⟩, hwritten⟩
    · exact List.mem_append_right _ hp
    · exact mem_fieldsAt.2 ⟨hmodel, .inr ⟨hlocal, List.mem_filter.2 ⟨hd, by simp [hmodel', hlocal']⟩⟩⟩
  · have hmem : f ∈ ungroupedFields s := mem_ungroupedFields.2
      ⟨List.mem_map.2 ⟨(f.name, f), (NameMap.mem_entries_iff _).2 hf, rfl⟩,
        fun set hset hmember => hlisted ⟨set, hset, hmember⟩⟩
    obtain ⟨d, hd, hwritten⟩ := exists_of_forall₂_right hfields.flip hmem
    obtain ⟨hmodel, hlocal⟩ := (isElementOf_of_fieldElement hc hwritten).model
    refine ⟨d, List.mem_flatMap.2 ⟨d, (hadorns.children d hmodel).2 ?_, ?_⟩, hwritten⟩
    · exact List.mem_append_left _ (List.mem_append_right _ hd)
    · exact mem_fieldsAt.2 ⟨hmodel, .inl ⟨hlocal, rfl⟩⟩

end Schema

end Written

/-! ## Elements that are read -/

/-- The elements of fields that are read are those that were written. -/
theorem Restored.fieldElements {first : Option String} {e e' : Element} (h : Restored first e e') :
    List.Forall₂ (Restored first) (fieldElements e) (fieldElements e') := by
  refine List.rel_flatMap h.children fun c c' hc => ?_
  unfold fieldsAt
  rw [hc.model, hc.localName]
  split
  · exact .nil
  · split
    · exact .cons hc .nil
    · exact List.rel_filter (fun d d' hd => by dsimp only; rw [hd.model, hd.localName]) hc.children
    · exact .nil

theorem Reworded.of_sameWording {registry : Registry} {domain : Option String} {f g k : Field}
    (h : Reworded registry domain f g) (hgk : SameWording g k) : Reworded registry domain f k := by
  obtain ⟨wording, key, value⟩ := h
  refine .intro (fun w => ?_) (fun hd => ?_) fun hd => ?_
  · rw [hgk.wording w]
    exact wording w
  · rw [hgk.keyType]
    exact key hd
  · rw [hgk.valueType]
    exact value hd

section Read

variable {c : Context} (hc : Context.CarriesWording c)

include hc

/-- A field that was read from the element of a field has its texts, and bears its name. -/
theorem reworded_of_namedField {first : Option String} {s : Scope} (hs : s.registry = c.registry)
    (hd : s.domain = first.filter (!·.isEmpty)) {orders : NameMap Nat} {least : Nat} {f g : Field}
    {d d' : Element} {name : String} (h : IsElementOf c f d) (hrestored : Restored first d d')
    (hread : NamedField s orders least d' name g) :
    f.name = name ∧ Reworded c.registry s.domain f g := by
  obtain ⟨-, -, codec, hcodec, hholds⟩ := h
  obtain ⟨hnamed, type, codec', m, n, k, -, htype, hcodec', hyields, rfl⟩ := hread
  rw [hrestored.get? (by decide), hholds.named] at hnamed
  rw [hrestored.get? (by decide), hholds.typed] at htype
  cases htype
  rw [hs, hcodec] at hcodec'
  cases hcodec'
  refine ⟨Option.some.inj hnamed, ?_⟩
  exact (reworded_of_readField hc.registry hcodec hholds hrestored hs hd hyields).of_sameWording
    ⟨fun w => by cases w <;> rfl, rfl, rfl⟩

/-- What is read for the element of a schema has the texts of the schema's own fields. -/
theorem reworded_of_readSchema {sch : Schema} (hn : sch.NamesFields) {label : String} {e e' : Element}
    (he : schemaElement c label sch = .ok e) {first : Option String} (h : Restored first e e')
    {s : Scope} (hs : s.registry = c.registry) (hd : s.domain = first.filter (!·.isEmpty))
    {policy : Policy} {root : Element} {entry : String × Schema} {m n : Nat}
    (hread : (readSchema c s policy root e').Yields m n entry) :
    entry.1 = label ∧ ∀ name f, sch.fields.get? name = some f →
      ∃ g, entry.2.fields.get? name = some g ∧ Reworded c.registry s.domain f g := by
  obtain ⟨hname, bases, parts, -, hparts, hhandled⟩ := exists_parts_of_yields hread
  rw [h.get? (by decide), hc.writesPlainly.get?_name he] at hname
  refine ⟨hname, fun name f hf => ?_⟩
  have hbears (key : String) (g : Field) (hg : parts.fields.get? key = some g) : g.name = key := by
    obtain ⟨d', -, hnamed, type, codec, i, j, k, -, -, -, hyields, rfl⟩ := hparts.field rfl hg
    rw [show ({ k with order := _ } : Field).name = k.name from rfl, name_of_readField hyields, hnamed]
    rfl
  obtain ⟨g, hg, hfg⟩ : ∃ g, parts.fields.get? name = some g ∧ Reworded c.registry s.domain f g := by
    have hfound := Schema.get?_own hf
    obtain ⟨d, hmem, hwritten⟩ := exists_mem_of_field hc he hn hf
    obtain ⟨d', hmem', hrestored⟩ := exists_of_forall₂_right h.fieldElements.flip hmem
    obtain ⟨key, g, hkey, hg⟩ := hparts.exists_field hmem'
    obtain ⟨-, -, codec, -, hholds⟩ := isElementOf_of_fieldElement hc hwritten
    rw [hrestored.get? (by decide), hholds.named, hn name f hfound] at hkey
    cases hkey
    -- another element may have the same name; it was written for the same field
    obtain ⟨last', hlast', hnamed⟩ := hparts.field rfl hg
    obtain ⟨last, hlast, hrestored⟩ := exists_of_forall₂_right h.fieldElements hlast'
    obtain ⟨key, f', hf', hwritten⟩ := exists_field_of_mem hc he hlast
    obtain ⟨hname, hworded⟩ := reworded_of_namedField hc hs hd
      (isElementOf_of_fieldElement hc hwritten) hrestored hnamed
    obtain rfl := (hn key f' hf').symm.trans hname
    cases hf'.symm.trans hfound
    exact ⟨g, hg, hworded⟩
  have hget := get?_toSchema parts policy entry.1 root bases hbears name
  rw [hg, Option.map_some] at hget
  obtain ⟨k, hk, hsame⟩ := hhandled.keepsWording hc.handlers name _ hget
  refine ⟨k, hk, (hfg.of_sameWording ?_).of_sameWording hsame⟩
  exact ⟨fun w => by cases w <;> rfl, rfl, rfl⟩

end Read

/-! ## Models -/

/-- When a model is written and read again, every field of a schema's own is found under its name, and
has its texts for users, as far as the message domain of the document goes. -/
theorem wording_of_parse {c : Context} (hc : Context.CarriesWording c) {m m' : Model}
    (hm : ∀ entry ∈ m.entries, entry.2.NamesFields) {pretty : Bool} {text : String}
    (hwrite : c.write pretty m = .ok text) {file : Option String} {policyName : String} {first n : Nat}
    (hparse : c.parse file policyName text first = (.ok m', n)) :
    ∃ es, m.entries.mapM (fun s => schemaElement c s.1 s.2) = .ok es ∧
      List.Forall₂ (fun s s' => s'.1 = s.1 ∧ ∀ name f, s.2.fields.get? name = some f →
        ∃ g, s'.2.fields.get? name = some g ∧ Reworded c.registry (documentDomain es) f g)
        m.entries m'.entries := by
  obtain ⟨policy, root, es, -, -, hes, hentries⟩ := hc.writesPlainly.exists_reread hwrite hparse
  have hmembers := (List.forall₂_and_left _ _).2
    ⟨fun entry (he : entry ∈ m.entries) => he, hentries⟩
  exact ⟨es, hes, hmembers.imp fun entry entry' ⟨hmem, e, e', i, j, hentry, he, hschema⟩ =>
    reworded_of_readSchema hc (hm entry hmem) hentry he rfl rfl hschema⟩

/-! ## Examples -/

/-- A model with one schema of one field. -/
def oneFieldModel (name : String) (f : Field) : Model :=
  let fields := (NameMap.empty).insert name f
  ⟨[("s", { name := "s", module := "ironmodel.generated", bases := [Schema.root], fields })],
    List.nodup_singleton "s"⟩

/-- A field for whole numbers, with its texts for users. -/
def wordedNumber (title description : Value) : Field :=
  { Field.ofType .int with name := "f", title, description }

/-- What a model is when it is written and read again. -/
def reread? (c : Context) (m : Model) : Option Model := do
  (c.parse none "" (← (c.write false m).toOption) 1).1.toOption

theorem exists_of_reread? {c : Context} {m m' : Model} (h : reread? c m = some m') :
    ∃ text n, c.write false m = .ok text ∧ c.parse none "" text 1 = (.ok m', n) := by
  obtain ⟨text, htext, hm'⟩ := Option.bind_eq_some_iff.1 h
  obtain ⟨n, hparse⟩ := exists_of_fst_toOption hm'
  exact ⟨text, n, of_toOption htext, hparse⟩

/-- A text for users, which is plain or a message. -/
def plainOrMessage? : Value → Option (String ⊕ Message)
  | .text t => some (.inl t)
  | .message m => some (.inr m)
  | _ => none

/-- The fields of a model's schemas: the name under which one is found, its title and its description. -/
def wordings (m : Model) : List (String × Option (String ⊕ Message) × Option (String ⊕ Message)) :=
  m.entries.flatMap fun s => s.2.fields.entries.map fun f =>
    (f.1, plainOrMessage? f.2.title, plainOrMessage? f.2.description)

/-- Whether the model of one field is one of the field `f` when it is written and read again, with a
title and a description. -/
def RereadAs (c : Context) (name : String) (f : Field) (title description : String ⊕ Message) : Prop :=
  (reread? c (oneFieldModel name f)).map wordings = some [("f", some title, some description)]

/-- The characters that a model is written with. -/
def writtenChars (c : Context) (m : Model) : Except Fault (List Char) := do
  let root ← modelElement c m.entries
  (writeElement false [] 0 root).mapError .markup

theorem write_eq_writtenChars (c : Context) (m : Model) :
    c.write false m = (writtenChars c m).map String.ofList := by
  unfold Context.write writtenChars
  cases modelElement c m.entries with
  | error fault => rfl
  | ok root =>
    change ((writeElement false [] 0 root).map String.ofList).mapError Fault.markup =
      ((writeElement false [] 0 root).mapError Fault.markup).map String.ofList
    cases writeElement false [] 0 root <;> rfl

/-- The root element of a document of the given characters. -/
def rootOfChars (cs : List Char) : Except DocumentError Element := do
  let bytes := cs.flatMap String.utf8EncodeChar
  let tokens := tokensFrom 0 (withoutMark cs)
  let d ← tokens.tokens.foldlM (PartialDocument.add bytes) {}
  match tokens.failure, d.root with
  | some (cause, stop), _ => .error (.malformed (lineAt bytes stop) cause)
  | none, some root => .ok root
  | none, none => .error .noRoot

/-- The model of a document of the given characters. -/
def readChars (c : Context) (policyName : String) (cs : List Char) : Reading Model := do
  let policy ← c.policy policyName
  let root ← Reading.ofExcept ((rootOfChars cs).mapError .markup)
  readRoot c policy root

theorem readModel_ofList (c : Context) (policyName : String) (cs : List Char) :
    readModel c policyName (String.ofList cs) = readChars c policyName cs := by
  have hroot : Element.read (String.ofList cs) = rootOfChars cs := by
    rw [Element.read, Text.toList_data_toUTF8, String.toList_ofList]
    rfl
  rw [readModel, hroot, readChars]

/-- What a model is when it is written and read again, without the text of the document: characters
that are put into a text are slow to get back by evaluation. -/
def rereadChars? (c : Context) (m : Model) : Option Model := do
  ((readChars c "" (← (writtenChars c m).toOption)).start { nextNumber := 1 }).1.toOption

theorem reread?_eq_rereadChars? (c : Context) (m : Model) : reread? c m = rereadChars? c m := by
  rw [reread?, write_eq_writtenChars, rereadChars?]
  cases writtenChars c m with
  | error fault => rfl
  | ok cs =>
    change (c.parse none "" (String.ofList cs) 1).1.toOption =
      ((readChars c "" cs).start { nextNumber := 1 }).1.toOption
    rw [Context.parse, readModel_ofList]
    cases (readChars c "" cs).start { nextNumber := 1 } with
    | mk result progress => cases result <;> rfl

instance (c : Context) (name : String) (f : Field) (title description : String ⊕ Message) :
    Decidable (RereadAs c name f title description) :=
  decidable_of_iff
    ((rereadChars? c (oneFieldModel name f)).map wordings =
      some [("f", some title, some description)])
    (by rw [RereadAs, reread?_eq_rereadChars?])

/-- A message, in a domain or in none. -/
def greeting (domain : Option String) : Message := ⟨"greeting", some "Hello", domain⟩

/-- A context with the handler of primary fields. -/
def primaryContext : Context := { fieldHandlers := [PrimaryField.handler] }

theorem carriesWording_primaryContext : Context.CarriesWording primaryContext :=
  ⟨Registry.carriesWording_standard,
    leavesWording_primaryField rfl fun _ h => List.mem_singleton.1 h⟩

theorem namesFields_oneFieldModel (f : Field) :
    ∀ entry ∈ (oneFieldModel f.name f).entries, entry.2.NamesFields := by
  intro entry hentry
  cases List.mem_singleton.1 hentry
  refine Schema.namesFields_of_hierarchy fun t ht name g hg => ?_
  rcases ht with rfl | ht
  · cases List.mem_singleton.1 ((NameMap.mem_entries_iff _).2 hg)
    rfl
  · obtain ⟨b, hb, ht⟩ := Schema.isAncestor_iff.1 ht
    cases List.mem_singleton.1 hb
    rcases ht with rfl | ht
    · cases hg
    · obtain ⟨_, hb, -⟩ := Schema.isAncestor_iff.1 ht
      cases hb

/-- A primary field with a message. -/
def greetingField : Field :=
  (wordedNumber (.message (greeting (some "d"))) (.text "")).mark Schema.primaryMarker

/-- A message with a domain is written and read again. -/
theorem wording_of_parse_greeting :
    Context.CarriesWording primaryContext ∧
      (∀ entry ∈ (oneFieldModel "f" greetingField).entries, entry.2.NamesFields) ∧
      ∃ text m n es, primaryContext.write false (oneFieldModel "f" greetingField) = .ok text ∧
        primaryContext.parse none "" text 1 = (.ok m, n) ∧
        (oneFieldModel "f" greetingField).entries.mapM
          (fun s => schemaElement primaryContext s.1 s.2) = .ok es ∧
        List.Forall₂ (fun s s' => s'.1 = s.1 ∧ ∀ name f, s.2.fields.get? name = some f →
          ∃ g, s'.2.fields.get? name = some g ∧
            Reworded primaryContext.registry (documentDomain es) f g)
          (oneFieldModel "f" greetingField).entries m.entries := by
  have hread : RereadAs primaryContext "f" greetingField (.inr (greeting (some "d"))) (.inl "") := by
    decide +kernel
  obtain ⟨m, hm, -⟩ := Option.map_eq_some_iff.1 hread
  obtain ⟨text, n, hwrite, hparse⟩ := exists_of_reread? hm
  have hnames := namesFields_oneFieldModel greetingField
  obtain ⟨es, hes, hall⟩ := wording_of_parse carriesWording_primaryContext hnames hwrite hparse
  exact ⟨carriesWording_primaryContext, hnames, text, m, n, es, hwrite, hparse, hes, hall⟩

/-- A handler that takes texts away. -/
def emptyingHandler : FieldHandler where
  read _ _ s := .ok s
  write _ _ e := .ok { e with children := [] }

/-- The standard types, but numbers are written without titles. -/
def untitledNumbers : Registry :=
  Registry.standard.insert FieldType.int.identifier
    ((FieldCodec.plain .int).withFilter "title" .write)

/-- A message that is shown as nothing. -/
def emptyNote : Message := ⟨"note", some "", none⟩

/-- A message with an empty id. -/
def unnamedNote : Message := ⟨"", some "Hello", some "d"⟩

theorem rereadAs_messages :
    RereadAs {} "f" (wordedNumber (.message (greeting none)) (.text "")) (.inl "Hello") (.inl "") ∧
      RereadAs {} "f" (wordedNumber (.message unnamedNote) (.message emptyNote))
        (.inr ⟨"Hello", none, some "d"⟩) (.inr ⟨"note", none, some "d"⟩) := by
  decide +kernel

/-- What is lost. Without a message domain in the document a message becomes a text. With one, a
message with an empty id gets its text as the id, and one that is shown as nothing is shown as its id.
Handlers and codecs may take texts away, and a field that is stored under a name which it does not bear
is read back under its own. -/
theorem message_lost :
    RereadAs {} "f" (wordedNumber (.message (greeting none)) (.text "")) (.inl "Hello") (.inl "") ∧
      (RereadAs {} "f" (wordedNumber (.message unnamedNote) (.message emptyNote))
          (.inr ⟨"Hello", none, some "d"⟩) (.inr ⟨"note", none, some "d"⟩) ∧
        "Hello" ≠ unnamedNote.id ∧ (⟨"note", none, some "d"⟩ : Message).text ≠ emptyNote.text) ∧
      RereadAs { fieldHandlers := [emptyingHandler] } "f" (wordedNumber (.text "A") (.text ""))
        (.inl "") (.inl "") ∧
      RereadAs { registry := untitledNumbers } "f" (wordedNumber (.text "A") (.text ""))
        (.inl "") (.inl "") ∧
      RereadAs {} "e" (wordedNumber (.text "A") (.text "")) (.inl "A") (.inl "") := by
  obtain ⟨hdomain, hempty⟩ := rereadAs_messages
  refine ⟨hdomain, ⟨hempty, by decide, by decide⟩, ?handler, ?codec, ?name⟩
  all_goals decide +kernel

end Document
end ContentSchema
