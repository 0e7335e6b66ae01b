import ContentSchema.Proofs.Document.SchemaReader
import ContentSchema.Proofs.Schema.Override

/-!
# Overriding fields of bases

A field that overrides one of a base takes over a place. It is that of the last base in the document
that knows the name, whatever the resolution order says (`order_of_override`). Where the bases agree on
the place this is the place of the field that would be inherited, and removing such fields moves no
name. Where they do not agree it need not be (`order_of_override_moved`).
-/
namespace ContentSchema.Document

open Markup (Element)

/-- Whether a second schema has the bases, the key and the places of a first one. -/
structure KeepsPlaces (a b : Schema) : Prop where
  /-- The bases are the same. -/
  bases : b.bases = a.bases
  /-- The key is the same. -/
  key : b.key = a.key
  /-- The fields have the same names and places. -/
  places (name : String) : (b.fields.get? name).map (·.order) = (a.fields.get? name).map (·.order)

/-- Handlers that move no field. -/
structure HandlersKeepPlaces (c : Context) : Prop where
  /-- The handlers of fields. -/
  field : ∀ h ∈ c.fieldHandlers, ∀ e name a b, h.read e name a = .ok b → KeepsPlaces a b
  /-- The handlers of schemas. -/
  schema : ∀ h ∈ c.schemaHandlers, ∀ e a b, h.read e a = .ok b → KeepsPlaces a b

theorem Handled.keepsPlaces {c : Context} (hc : HandlersKeepPlaces c) {a b : Schema}
    (h : Handled c a b) : KeepsPlaces a b := by
  induction h with
  | refl => exact ⟨rfl, rfl, fun _ => rfl⟩
  | @tail b d _ hstep ih =>
    have hnext : KeepsPlaces b d := by
      rcases hstep with ⟨handler, hhandler, e, name, hread⟩ | ⟨handler, hhandler, e, hread⟩
      · exact hc.field handler hhandler e name _ _ hread
      · exact hc.schema handler hhandler e _ _ hread
    exact ⟨hnext.bases.trans ih.bases, hnext.key.trans ih.key,
      fun name => (hnext.places name).trans (ih.places name)⟩

/-- Whether the bases in a document agree on the places of the fields that are overridden, and know
all of them that `others` know. -/
structure AgreeOnPlaces (bases others : List Schema) (fields : NameMap Field) : Prop where
  /-- Two bases that know a name have one place for it. -/
  places {name : String} {b b' : Schema} {g g' : Field} (own : fields.get? name ≠ none)
    (hb : b ∈ bases) (hb' : b' ∈ bases) (hg : b.get? name = some g) (hg' : b'.get? name = some g') :
    g.order = g'.order
  /-- What another one knows some base has the place of. -/
  others {name : String} {b : Schema} {g : Field} (own : fields.get? name ≠ none) (hb : b ∈ others)
    (hg : b.get? name = some g) : ∃ b' ∈ bases, ∃ g', b'.get? name = some g' ∧ g'.order = g.order

/-- A field of a schema that was read has the place of the last base that knows its name. -/
theorem order_of_last {c : Context} (hc : HandlersKeepPlaces c) {s : Scope} {orders : NameMap Nat}
    (hr : s.registry = Registry.standard) {policy : Policy} {root : Element} {name : String}
    {bases : List Schema} {parts : SchemaParts} {schema : Schema}
    {first : Nat} {es : List Element} (hparts : PartsRead s orders first {} es parts)
    (hhandled : Handled c (parts.toSchema policy name root bases) schema) {key : String} {f : Field}
    (hf : schema.fields.get? key = some f) {order : Nat} (ho : orders.get? key = some order) :
    f.order = order := by
  have hnames (key : String) (f : Field) (hf : parts.fields.get? key = some f) : f.name = key := by
    obtain ⟨_, -, hread⟩ := hparts.field rfl hf
    exact hread.name_eq hr
  have hplace := (hhandled.keepsPlaces hc).places key
  rw [hf, get?_toSchema parts policy name root bases hnames, Option.map_some] at hplace
  cases hown : parts.fields.get? key with
  | none =>
    rw [hown] at hplace
    cases hplace
  | some f' =>
    rw [hown] at hplace
    obtain ⟨_, -, hread⟩ := hparts.field rfl hown
    obtain ⟨m, -, horder⟩ := hread.order_eq hr
    rw [Option.some.inj hplace, ownedBy, horder, ho]
    rfl

/-- A field that overrides others has the place of that of the last base in the document that knows
the name. If the bases agree on the place, this is the place of the field that would be inherited, and
no name moves when overriding fields are removed. -/
theorem order_of_override {c : Context} (hc : HandlersKeepPlaces c) {s : Scope}
    (hr : s.registry = Registry.standard) {policy : Policy} {root e : Element} {p q : Progress}
    {name : String} {schema : Schema}
    (h : (readSchema c s policy root e).start p = (.ok (name, schema), q)) :
    ∃ bases,
      List.Forall₂ (fun identifier b => s.resolve identifier = some (.schema b))
        (Text.words ((e.get? "based-on").getD "")) bases ∧
      schema.bases = bases ++ policy.bases name root ++ [Schema.root] ∧
      (∀ key f g, schema.fields.get? key = some f →
        bases.reverse.findSome? (·.get? key) = some g → f.order = g.order) ∧
      (schema.Coherent → AgreeOnPlaces bases (policy.bases name root) schema.fields →
        (∀ key f, schema.fields.get? key = some f → (∃ b ∈ schema.bases, b.get? key ≠ none) →
          ∃ g, schema.withoutFields.get? key = some g ∧ f.order = g.order) ∧
        ∀ keys : List String, (∀ key ∈ keys, ∃ b ∈ schema.bases, b.get? key ≠ none) →
          (schema.eraseFields keys).namesInOrder = schema.namesInOrder) := by
  obtain ⟨-, bases, parts, hresolved, hparts, hhandled⟩ :=
    exists_parts_of_yields (Reading.yields_of_start h)
  have hbases : schema.bases = bases ++ policy.bases name root ++ [Schema.root] := by
    rw [(hhandled.keepsPlaces hc).bases, toSchema_eq]
  have hlast (key : String) (f g : Field) (hf : schema.fields.get? key = some f)
      (hg : bases.reverse.findSome? (·.get? key) = some g) : f.order = g.order :=
    order_of_last hc hr hparts hhandled hf (by rw [get?_inheritedOrders, hg]; rfl)
  refine ⟨bases, hresolved, hbases, hlast, fun hcoherent hagree => ?_⟩
  have hinherited (key : String) (f : Field) (hf : schema.fields.get? key = some f)
      (hknown : ∃ b ∈ schema.bases, b.get? key ≠ none) :
      ∃ g, schema.withoutFields.get? key = some g ∧ f.order = g.order := by
    obtain ⟨g, hg, b, hb, hbg⟩ := Schema.exists_inherited hcoherent hknown
    have hown : schema.fields.get? key ≠ none := by
      rw [hf]
      exact Option.some_ne_none f
    -- a base in the document has the place of the inherited field
    obtain ⟨b', hb', g', hg', horder⟩ : ∃ b' ∈ bases, ∃ g', b'.get? key = some g' ∧
        g'.order = g.order := by
      rw [hbases, List.mem_append, List.mem_append, List.mem_singleton] at hb
      rcases hb with (hb | hb) | rfl
      · exact ⟨b, hb, g, hbg, rfl⟩
      · exact hagree.others hown hb hbg
      · rw [get?_root] at hbg
        cases hbg
    refine ⟨g, hg, ?_⟩
    cases hfound : bases.reverse.findSome? (·.get? key) with
    | none =>
      rw [List.findSome?_eq_none_iff.1 hfound b' (List.mem_reverse.2 hb')] at hg'
      cases hg'
    | some l =>
      obtain ⟨b'', hb'', hl⟩ := List.exists_of_findSome?_eq_some hfound
      rw [hlast key f l hf hfound, ← horder]
      exact hagree.places hown (List.mem_reverse.1 hb'') hb' hl hg'
  refine ⟨hinherited, fun keys hkeys => Schema.namesInOrder_eraseFields hcoherent hkeys ?_⟩
  intro key hkey f g hf hg
  obtain ⟨g', hg', horder⟩ := hinherited key f hf (hkeys key hkey)
  rw [hg] at hg'
  cases hg'
  exact horder

/-! ## Bases that do not agree -/

/-- A base with integers in the given places. -/
def placesSchema (name : String) (places : List (String × Nat)) : Schema :=
  { name, module := "a"
    fields := NameMap.ofList
      (places.map fun p => (p.1, { Field.ofType .int with name := p.1, order := p.2 })) }

/-- A context with two bases, which have different places for one name. -/
def placesContext : Context :=
  { resolve := fun identifier =>
      if identifier = "a.A" then some (.schema (placesSchema "A" [("x", 1), ("y", 2)]))
      else if identifier = "a.B" then some (.schema (placesSchema "B" [("x", 3)]))
      else none }

/-- A schema with a field that overrides those of its bases. -/
def overridingElement (bases : String) : Element :=
  { tag := "schema"
    attributes := [("name", "s"), ("based-on", bases)]
    children := [{ tag := "field", attributes := [("name", "x"), ("type", FieldType.int.identifier)] }] }

/-- What is read of the overriding schema. -/
def overridingSchema (bases : String) : Except Fault (String × Schema) × Progress :=
  (readSchema placesContext (placesContext.scope none) Policy.default { tag := "model" }
    (overridingElement bases)).start {}

/-- The places of the fields that a schema has and inherits. -/
def placesOf (s : Schema) : List (String × Nat) :=
  s.allFields.entries.map fun e => (e.1, e.2.order)

theorem handlersKeepPlaces_places : HandlersKeepPlaces placesContext := ⟨nofun, nofun⟩

/-- With one base the field is in the place of the one that it overrides. -/
theorem order_of_override_one_base :
    ∃ schema q, overridingSchema "a.A" = (.ok ("s", schema), q) ∧
      (∃ f g, schema.fields.get? "x" = some f ∧ schema.withoutFields.get? "x" = some g ∧
        f.order = g.order) ∧
      (schema.eraseFields ["x"]).namesInOrder = schema.namesInOrder := by
  have hread : (overridingSchema "a.A").1.toOption.map (fun p =>
      (p.1, p.2.key, (p.2.fields.get? "x").isSome)) =
      some ("s", ("s", "ironmodel.generated"), true) := by decide +kernel
  obtain ⟨⟨name, schema⟩, q, h, hfacts⟩ := exists_of_fst_toOption_map hread
  simp only [Prod.mk.injEq] at hfacts
  obtain ⟨rfl, hkey, hsome⟩ := hfacts
  obtain ⟨f, hf⟩ := Option.isSome_iff_exists.1 hsome
  obtain ⟨bases, hresolved, hbases, -, hagreeing⟩ :=
    order_of_override handlersKeepPlaces_places rfl h
  obtain ⟨b, hb, rfl⟩ : ∃ b, placesContext.resolve "a.A" = some (.schema b) ∧ bases = [b] := by
    have hwords : Text.words (((overridingElement "a.A").get? "based-on").getD "") = ["a.A"] := by
      decide
    rw [hwords] at hresolved
    cases hresolved with
    | cons hb hnil =>
      cases hnil
      exact ⟨_, hb, rfl⟩
  cases hb
  have hancestor {d t : Schema} (hd : d ∈ schema.bases) (ht : t ∈ d.resolutionOrder) :
      t = placesSchema "A" [("x", 1), ("y", 2)] ∨ t = Schema.root := by
    rw [hbases] at hd
    rcases List.mem_append.1 hd with hd | hd <;> cases List.mem_singleton.1 hd <;>
      rw [Schema.resolutionOrder_of_no_bases rfl, List.mem_singleton] at ht
    · exact .inl ht
    · exact .inr ht
  have hcoherent : schema.Coherent := by
    refine ⟨fun d hd t ht => ?_, fun d hd t ht d' hd' u hu hkeys => ?_⟩
    · rw [hkey]
      rcases hancestor hd ht with rfl | rfl <;> decide
    · rcases hancestor hd ht with rfl | rfl <;> rcases hancestor hd' hu with rfl | rfl <;>
        first | rfl | exact absurd hkeys (by decide)
  have hagree : AgreeOnPlaces [placesSchema "A" [("x", 1), ("y", 2)]] [] schema.fields := by
    refine ⟨fun _ hb hb' hg hg' => ?_, fun _ hb => nomatch hb⟩
    cases List.mem_singleton.1 hb
    cases List.mem_singleton.1 hb'
    rw [hg] at hg'
    rw [Option.some.inj hg']
  obtain ⟨hplaces, hnames⟩ := hagreeing hcoherent hagree
  have hknown : ∃ b ∈ schema.bases, b.get? "x" ≠ none := by
    refine ⟨placesSchema "A" [("x", 1), ("y", 2)], ?_, ?_⟩
    · rw [hbases]
      exact .head _
    · rw [Schema.get?, Schema.resolutionOrder_of_no_bases rfl]
      exact Option.some_ne_none _
  obtain ⟨g, hg, horder⟩ := hplaces "x" f hf hknown
  refine ⟨schema, q, h, ⟨f, g, hf, hg, horder⟩, hnames ["x"] fun key hkey => ?_⟩
  rw [List.mem_singleton.1 hkey]
  exact hknown

/-- The field is in the place that the last base has for it, and not in that of the field that the
first base hands down. So it has moved behind a field that it stood before. -/
theorem order_of_override_moved :
    ∃ schema q, overridingSchema "a.A a.B" = (.ok ("s", schema), q) ∧
      (schema.fields.get? "x").map (·.order) = some 3 ∧
      (schema.withoutFields.get? "x").map (·.order) = some 1 ∧
      schema.namesInOrder = ["y", "x"] ∧ (schema.eraseFields ["x"]).namesInOrder = ["x", "y"] := by
  have hread : (overridingSchema "a.A a.B").1.toOption.map (fun p =>
      (p.1, [(p.2.fields.get? "x").map (·.order), (p.2.withoutFields.get? "x").map (·.order)],
        [placesOf p.2, placesOf (p.2.eraseFields ["x"])])) =
      some ("s", [some 3, some 1], [[("x", 3), ("y", 2)], [("x", 1), ("y", 2)]]) := by
    decide +kernel
  have hmoved : [("x", 3), ("y", 2)].mergeSort (fun a b : String × Nat => a.2 ≤ b.2) =
      [("y", 2), ("x", 3)] := by simp [List.mergeSort]
  have hkept : [("x", 1), ("y", 2)].mergeSort (fun a b : String × Nat => a.2 ≤ b.2) =
      [("x", 1), ("y", 2)] := by simp [List.mergeSort]
  obtain ⟨⟨name, schema⟩, q, h, hfacts⟩ := exists_of_fst_toOption_map hread
  simp only [Prod.mk.injEq, List.cons.injEq, and_true] at hfacts
  obtain ⟨rfl, ⟨hown, hinherited⟩, hplaces, hwithout⟩ := hfacts
  refine ⟨schema, q, h, hown, hinherited, ?_, ?_⟩
  · rw [Schema.namesInOrder_eq, show schema.allFields.entries.map _ = _ from hplaces, hmoved]
    rfl
  · rw [Schema.namesInOrder_eq, show (schema.eraseFields ["x"]).allFields.entries.map _ = _ from
      hwithout, hkept]
    rfl

end ContentSchema.Document
