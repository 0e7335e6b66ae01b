import ContentSchema.Proofs.Document.Handlers
import ContentSchema.Proofs.Markup.Prefix

/-!
# Announced namespaces

Each handler announces a prefix for the namespace of its markup (`announcements`). The root of a
document declares one namespace for each prefix, the one that is announced last, and the prefix of the
attributes of messages is not given away (`get?_announcedPrefixes`). So handlers can take prefixes from
one another, and a namespace is declared just if it keeps one (`exists_prefix_iff`).

Result: a document is written whatever markup is in namespaces that are declared, and none is written
with an attribute in another one (`prefixes_of_announced`). A handler whose prefix was taken can so keep
all models from being written (`not_declared_of_taken`).
-/
namespace ContentSchema.Document

open Markup (Declarations DocumentError Element NameIn i18nNamespace i18nPrefix modelNamespace
  namespaceOf? qualified writeElement writtenName xmlNamespace)

/-! ## Prefixes that are kept -/

/-- What handlers announce, each a prefix and a namespace, in the order of their turns. -/
def announcements (c : Context) : List (String × String) :=
  (c.schemaHandlers.map (fun h => (h.xmlPrefix, h.uri)) ++
    c.fieldHandlers.map fun h => (h.xmlPrefix, h.uri)).filterMap fun a =>
      match a with
      | (some xmlPrefix, some uri) => some (xmlPrefix, uri)
      | _ => none

/-- Whether a namespace keeps a prefix: a handler announces it with one that is not the prefix of the
attributes of messages, and no later handler announces this prefix for another namespace. -/
def KeepsPrefix (c : Context) (uri : String) : Prop :=
  ∃ before p after, announcements c = before ++ (p, uri) :: after ∧ p ≠ i18nPrefix ∧
    ∀ a ∈ after, a.1 = p → a.2 = uri

variable {c : Context} {uri : String}

/-- A prefix stands for the namespace that is announced last with it. -/
theorem get?_announcedPrefixes (c : Context) (p : String) :
    (announcedPrefixes c).get? p =
      if p = i18nPrefix then none else ((announcements c).reverse.find? (·.1 == p)).map (·.2) := by
  unfold announcedPrefixes announcements
  dsimp only
  generalize c.schemaHandlers.map (fun h => (h.xmlPrefix, h.uri)) ++
    c.fieldHandlers.map (fun h => (h.xmlPrefix, h.uri)) = announced
  induction announced using List.reverseRecOn with
  | nil =>
    have hempty : (∅ : NameMap String).get? p = none := NameMap.get?_empty p
    simp [hempty]
  | append_singleton announced a ih =>
    rw [List.foldl_append, List.foldl_cons, List.foldl_nil, List.filterMap_append,
      List.reverse_append]
    obtain ⟨q, v⟩ := a
    cases q with
    | none => simpa using ih
    | some q =>
      cases v with
      | none => simpa using ih
      | some v =>
        by_cases hq : q = i18nPrefix
        · by_cases hp : p = i18nPrefix
          · simpa [hq, hp] using ih
          · simpa [hq, hp, Ne.symm hp] using ih
        · by_cases hp : q = p
          · simp [hp ▸ hq, hp, NameMap.get?_insert]
          · simpa [hq, hp, NameMap.get?_insert] using ih

theorem keepsPrefix_iff : KeepsPrefix c uri ↔ ∃ p, (announcedPrefixes c).get? p = some uri := by
  constructor
  · intro h
    obtain ⟨before, p, after, heq, hp, hlast⟩ := h
    refine ⟨p, ?_⟩
    rw [get?_announcedPrefixes, if_neg hp, heq]
    simp only [List.reverse_append, List.reverse_cons, List.append_assoc, List.find?_append,
      List.find?_singleton]
    cases hlater : after.reverse.find? (·.1 == p) with
    | none => simp
    | some a =>
      have hmem : a ∈ after := List.mem_reverse.1 (List.mem_of_find?_eq_some hlater)
      have hkey : a.1 = p := by simpa using List.find?_some hlater
      simp [hlast a hmem hkey]
  · intro h
    obtain ⟨p, hp⟩ := h
    rw [get?_announcedPrefixes] at hp
    split at hp
    · cases hp
    · rename_i hne
      obtain ⟨a, hfind, ha⟩ := Option.map_eq_some_iff.1 hp
      obtain ⟨hkey, after, before, heq, hafter⟩ := List.find?_eq_some_iff_append.1 hfind
      obtain rfl : a = (p, uri) := Prod.ext (by simpa using hkey) ha
      refine ⟨before.reverse, p, after.reverse, ?_, hne, fun b hb hbp => ?_⟩
      · rw [← List.reverse_reverse (announcements c), heq]
        simp
      · have hother := hafter b (List.mem_reverse.1 hb)
        simp [hbp] at hother

/-- The root declares the namespaces that keep a prefix, and that of the attributes of messages. -/
theorem exists_prefix_iff :
    (∃ p, (some p, uri) ∈ rootNamespaces c) ↔ uri = i18nNamespace ∨ KeepsPrefix c uri := by
  have hmem (p : String) : (some p, uri) ∈ rootNamespaces c ↔
      (p = i18nPrefix ∧ uri = i18nNamespace) ∨ (announcedPrefixes c).get? p = some uri := by
    rw [← NameMap.mem_entries_iff]
    simp [rootNamespaces]
  simp only [hmem, exists_or, exists_eq_left, keepsPrefix_iff]

/-! ## Names in documents -/

section Names

variable {outer ds : Declarations} {root e : Element} {isElement : Bool} {name rest : String}

/-- What is declared around an element and by it is declared at every name in it. -/
theorem mem_of_nameIn (hn : NameIn outer e ds isElement name) {d : Option String × String}
    (hd : d ∈ outer.inside e.namespaces) : d ∈ ds := by
  induction hn with
  | tag => exact hd
  | key _ => exact hd
  | child _ _ ih => exact ih (Declarations.mem_inside.2 (.inr hd))

/-- A tree that is refused has a name that cannot be written. -/
theorem exists_name_of_write_error {pretty : Bool} {error : DocumentError}
    (h : root.write pretty = .error error) :
    ∃ ds isElement name, NameIn [] root ds isElement name ∧
      writtenName ds isElement name = .error error := by
  rw [Element.write] at h
  cases hwritten : writeElement pretty [] 0 root with
  | ok written =>
    rw [hwritten] at h
    cases h
  | error other =>
    rw [hwritten] at h
    obtain rfl := Except.error.inj h
    exact Markup.exists_name_of_error hwritten

/-- A tree is never refused for a namespace that its root declares. -/
theorem write_ne_noPrefix {p : String} (h : (some p, uri) ∈ root.namespaces) (pretty : Bool) :
    root.write pretty ≠ .error (.noPrefix uri) := by
  intro herror
  obtain ⟨ds, isElement, name, hn, hname⟩ := exists_name_of_write_error herror
  obtain ⟨uri', rest, -, hdeclares, heq⟩ := Markup.not_declares_of_writtenName hname
  cases heq
  exact hdeclares (.inr (.inr ⟨p, mem_of_nameIn hn (Declarations.mem_inside.2 (.inl h))⟩))

/-- A tree is refused if it has an attribute in a namespace that is not declared around it. -/
theorem exists_noPrefix_of_write (hn : NameIn [] root ds false name)
    (hname : namespaceOf? name = some uri) (hxml : uri ≠ xmlNamespace)
    (hds : ∀ p, (some p, uri) ∉ ds) (pretty : Bool) :
    ∃ uri', root.write pretty = .error (.noPrefix uri') := by
  cases hwrite : root.write pretty with
  | error error =>
    obtain ⟨ds', isElement', name', -, hname'⟩ := exists_name_of_write_error hwrite
    obtain ⟨uri', rest, -, -, rfl⟩ := Markup.not_declares_of_writtenName hname'
    exact ⟨uri', rfl⟩
  | ok text =>
    exfalso
    rw [Element.write] at hwrite
    cases hwritten : writeElement pretty [] 0 root with
    | error error =>
      rw [hwritten] at hwrite
      cases hwrite
    | ok written =>
      obtain ⟨key, hkey⟩ := Markup.exists_key_of_writeElement hn hwritten
      obtain ⟨⟨uri', rest⟩, hsplit, rfl⟩ := Option.map_eq_some_iff.1 hname
      have hundeclared : ¬ ds.Declares false uri' := by
        intro h
        cases h with
        | inl h => exact hxml h
        | inr h =>
          cases h with
          | inl h => cases h.1
          | inr h =>
            obtain ⟨p, hp⟩ := h
            exact hds p hp
      obtain ⟨p, hchooses, -⟩ := (Markup.key_of_writtenName hkey).2 uri' rest hsplit
      exact hundeclared (Declarations.declares_iff.2 ⟨p, hchooses⟩)

end Names

/-! ## Documents -/

theorem namespaces_hoistDomain (root : Element) :
    (hoistDomain root).namespaces = root.namespaces := by
  unfold hoistDomain
  dsimp only
  split <;> rfl

theorem namespaces_of_modelElement {schemas : List (String × Schema)} {root : Element}
    (h : modelElement c schemas = .ok root) : root.namespaces = rootNamespaces c := by
  rw [modelElement_eq_announced] at h
  obtain ⟨es, -, h⟩ := exists_of_bind h
  cases h
  exact namespaces_hoistDomain _

theorem write_eq_of_modelElement {m : Model} {root : Element}
    (h : modelElement c m.entries = .ok root) (pretty : Bool) :
    c.write pretty m = (root.write pretty).mapError .markup := by
  rw [Context.write, h]
  rfl

/-- The root of a document declares each prefix once, that of the attributes of messages for their
namespace. An announced namespace is declared just if it keeps a prefix or is that of these
attributes. No model is refused for a namespace that is declared; a model is refused if an attribute in
one that is not stands where only the root declares namespaces. -/
theorem prefixes_of_announced {m : Model} {root : Element}
    (h : modelElement c m.entries = .ok root) :
    (root.namespaces.map (·.1)).Nodup ∧ (some i18nPrefix, i18nNamespace) ∈ root.namespaces ∧
      ∀ p uri, (p, uri) ∈ announcements c →
        ((∃ q, (some q, uri) ∈ root.namespaces) ↔ uri = i18nNamespace ∨ KeepsPrefix c uri) ∧
        (uri = i18nNamespace ∨ KeepsPrefix c uri →
          ∀ pretty, c.write pretty m ≠ .error (.markup (.noPrefix uri))) ∧
        (¬ (uri = i18nNamespace ∨ KeepsPrefix c uri) → uri ≠ xmlNamespace →
          ∀ name, namespaceOf? name = some uri →
            NameIn [] root (Declarations.inside [] root.namespaces) false name →
            ∀ pretty, ∃ uri', c.write pretty m = .error (.markup (.noPrefix uri'))) := by
  have hroot := namespaces_of_modelElement h
  have hwrite := write_eq_of_modelElement h
  refine ⟨?_, ?_, fun p uri _ => ⟨?_, ?_, ?_⟩⟩
  · rw [hroot]
    exact nodup_rootNamespaces c
  · rw [hroot]
    exact .head _
  · rw [hroot]
    exact exists_prefix_iff
  · intro hkept pretty herror
    obtain ⟨q, hq⟩ := exists_prefix_iff.2 hkept
    rw [hwrite] at herror
    cases hdocument : root.write pretty with
    | ok text =>
      rw [hdocument] at herror
      cases herror
    | error error =>
      rw [hdocument] at herror
      cases herror
      exact write_ne_noPrefix (hroot ▸ hq) pretty hdocument
  · intro htaken hxml name hname hn pretty
    have hundeclared : ∀ q, (some q, uri) ∉ Declarations.inside [] root.namespaces := by
      intro q hq
      have hmem := (Declarations.mem_inside.1 hq).resolve_right List.not_mem_nil
      exact htaken (exists_prefix_iff.1 ⟨q, hroot ▸ hmem⟩)
    obtain ⟨uri', herror⟩ := exists_noPrefix_of_write hn hname hxml hundeclared pretty
    exact ⟨uri', by rw [hwrite, herror]; rfl⟩

/-- A handler that marks each schema with an attribute in its namespace. -/
def marks (xmlPrefix uri : String) : SchemaHandler where
  uri := some uri
  xmlPrefix := some xmlPrefix
  read _ s := .ok s
  write _ e := .ok (e.set (qualified "note" uri) "1")

/-- A model with one empty schema. -/
def leaflet : Model := ⟨[("leaflet", { name := "leaflet", module := "tests" })], by decide⟩

/-- The document of the model: what handlers make of the element of the schema, in a root with the
prefixes that they announce. -/
theorem modelElement_leaflet {e : Element}
    (h : c.schemaHandlers.foldlM (fun e h => h.write { name := "leaflet", module := "tests" } e)
      { tag := "schema", attributes := [("name", "leaflet")] } = .ok e) :
    modelElement c leaflet.entries =
      .ok (hoistDomain { tag := "model", namespaces := rootNamespaces c, children := [e] }) := by
  have hfields : ungroupedFields { name := "leaflet", module := "tests" } = [] := by
    have hempty : (∅ : NameMap Field).values = [] := rfl
    simp [ungroupedFields, Schema.fieldsInOrder, Field.sortByOrder, hempty]
  have hschema : schemaElement c "leaflet" { name := "leaflet", module := "tests" } = .ok e := by
    unfold schemaElement
    rw [hfields]
    exact h
  rw [modelElement_eq_announced, leaflet]
  simp only [List.mapM_cons, List.mapM_nil, hschema]
  rfl

/-- The root of the document, with declarations and with marks in some namespaces. -/
def leafletRoot (declared : Declarations) (marked : List String) : Element where
  tag := "model"
  namespaces := declared
  children :=
    [{ tag := "schema"
       attributes := ("name", "leaflet") :: marked.map fun uri => (qualified "note" uri, "1") }]

theorem prefixes_of_announced_marked :
    let c : Context := { schemaHandlers := [marks "n" "u"], fieldHandlers := [PrimaryField.handler] }
    ∃ root, modelElement c leaflet.entries = .ok root ∧ ("n", "u") ∈ announcements c ∧
      (∃ q, (some q, "u") ∈ root.namespaces) ∧
      c.write false leaflet ≠ .error (.markup (.noPrefix "u")) := by
  intro c
  have hroot := modelElement_leaflet (c := c) rfl
  have hmem : ("n", "u") ∈ announcements c := .head _
  have hkeeps : KeepsPrefix c "u" := ⟨[], "n", _, rfl, by decide, by decide⟩
  obtain ⟨-, -, hnamespaces⟩ := prefixes_of_announced hroot
  obtain ⟨hiff, hwrite, -⟩ := hnamespaces "n" "u" hmem
  exact ⟨_, hroot, hmem, hiff.2 (.inr hkeeps), hwrite (.inr hkeeps) false⟩

/-- The document of the model is refused if a mark is in a namespace that the root does not declare. -/
theorem exists_noPrefix_of_marked {declared : Declarations} {marked : List String}
    (h : modelElement c leaflet.entries = .ok (leafletRoot declared marked)) (hmem : uri ∈ marked)
    (hname : namespaceOf? (qualified "note" uri) = some uri) (hxml : uri ≠ xmlNamespace)
    (hdeclared : ∀ p, (some p, uri) ∉ declared) :
    ∃ uri', c.write false leaflet = .error (.markup (.noPrefix uri')) := by
  have hattribute : (qualified "note" uri, "1") ∈ ("name", "leaflet") ::
      marked.map fun uri => (qualified "note" uri, "1") :=
    List.mem_cons_of_mem _ (List.mem_map.2 ⟨uri, hmem, rfl⟩)
  have hn : NameIn [] (leafletRoot declared marked) (Declarations.inside (.inside [] declared) []) false
      (qualified "note" uri) := .child (.head _) (.key (a := (_, "1")) hattribute)
  have hds : ∀ p, (some p, uri) ∉ Declarations.inside (.inside [] declared) [] := by
    intro p hp
    simp only [Declarations.mem_inside, List.not_mem_nil, or_false, false_or] at hp
    exact hdeclared p hp
  obtain ⟨uri', herror⟩ := exists_noPrefix_of_write hn hname hxml hds false
  exact ⟨uri', by rw [write_eq_of_modelElement h, herror]; rfl⟩

/-- Two handlers with one prefix: the first loses it, and its mark keeps the model from being written.
A handler that announces the prefix of the attributes of messages does not get it either. -/
theorem not_declared_of_taken :
    let taken : Context := { schemaHandlers := [marks "n" "u", marks "n" "v"] }
    let reserved : Context := { schemaHandlers := [marks "i18n" "u"] }
    ∀ c ∈ [taken, reserved], ∃ root, modelElement c leaflet.entries = .ok root ∧
      (∃ p, (p, "u") ∈ announcements c) ∧ (¬ ∃ q, (some q, "u") ∈ root.namespaces) ∧
      ∃ uri, c.write false leaflet = .error (.markup (.noPrefix uri)) := by
  intro taken reserved c hc
  have hname : namespaceOf? (qualified "note" "u") = some "u" := by decide
  have hxml : "u" ≠ xmlNamespace := by decide
  have hcases : c = taken ∨ c = reserved := by simpa using hc
  cases hcases with
  | inl h =>
    subst h
    have hroot : modelElement taken leaflet.entries =
        .ok (leafletRoot [(some i18nPrefix, i18nNamespace), (some "n", "v"), (none, modelNamespace)]
          ["u", "v"]) := (modelElement_leaflet (c := taken) rfl).trans rfl
    have hdeclared : ∀ p, (some p, "u") ∉
        [(some i18nPrefix, i18nNamespace), (some "n", "v"), (none, modelNamespace)] := by
      simp [i18nNamespace]
    exact ⟨_, hroot, ⟨"n", .head _⟩, fun h => h.elim hdeclared,
      exists_noPrefix_of_marked hroot (.head _) hname hxml hdeclared⟩
  | inr h =>
    subst h
    have hroot : modelElement reserved leaflet.entries =
        .ok (leafletRoot [(some i18nPrefix, i18nNamespace), (none, modelNamespace)] ["u"]) :=
      (modelElement_leaflet (c := reserved) rfl).trans rfl
    have hdeclared : ∀ p, (some p, "u") ∉
        [(some i18nPrefix, i18nNamespace), (none, modelNamespace)] := by
      simp [i18nNamespace]
    exact ⟨_, hroot, ⟨"i18n", .head _⟩, fun h => h.elim hdeclared,
      exists_noPrefix_of_marked hroot (.head _) hname hxml hdeclared⟩

end ContentSchema.Document
