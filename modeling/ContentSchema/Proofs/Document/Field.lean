import ContentSchema.Proofs.Document.Attributes

/-!
# Fields read back

A field is expressible when it and its nested fields are (`ExpressibleAttributes`). Such a field has
an element, and whatever has the content of that element reads back as `Field.reread` of the field
(`exists_fieldElement`).

Results: what reads back is the field that was written just if no bound equals the missing value of
its field, at any level (`readField_writeField`).
-/
namespace ContentSchema.Document

open ContentSchema.Field (overlay pick)
open FieldCodec (standard)
open Markup (Element)

variable {resolve : Resolver} {domains : Set String}

/-! ## Elements one by one -/

theorem readField_eq (s : Scope) (codec : FieldCodec) (e : Element) :
    readField s codec e = (do
      let n ← Reading.takeNumber
      let f ← readAttributes s codec (newField codec ((e.get? "name").getD "") n) e.children
      let f ← ownTypeAttributes.foldlM (readOwnType s codec e.children) f
      Reading.ofModel f.finish) := by
  obtain ⟨tag, attributes, children, text, line, namespaces⟩ := e
  rw [readField]

theorem readAttributes_cons_described {s : Scope} {codec : FieldCodec} {f : Field} {e : Element}
    {spec : AttributeSpec} (h : attributeOf? codec e = some spec)
    (hk : spec.kind.isOwnType = false) (es : List Element) :
    readAttributes s codec f (e :: es) =
      (do let f ← Reading.within e.line (readDescription s f spec e)
          readAttributes s codec f es) := by
  rw [readAttributes, h]
  simp only [hk, Bool.false_eq_true, if_false]
  rfl

theorem readAttributes_cons_own {s : Scope} {codec : FieldCodec} {f : Field} {e : Element}
    {spec : AttributeSpec} (h : attributeOf? codec e = some spec)
    (hk : spec.kind.isOwnType = true) (es : List Element) :
    readAttributes s codec f (e :: es) = readAttributes s codec f es := by
  rw [readAttributes, h]
  simp only [hk, if_true]

theorem SameElements.append_left {domain : Option String} {as bs es : List Element}
    (h : SameElements domain (as ++ bs) es) :
    ∃ as' bs', es = as' ++ bs' ∧ SameElements domain as as' ∧ SameElements domain bs bs' := by
  induction as generalizing es with
  | nil => exact ⟨[], es, rfl, .nil, h⟩
  | cons a as ih =>
    cases h with
    | cons model localName attributes content rest =>
      obtain ⟨as', bs', rfl, has, hbs⟩ := ih rest
      exact ⟨_ :: as', bs', rfl, .cons model localName attributes content has, hbs⟩

/-- The names of attributes that are written are names of the model. -/
theorem isModelElement_of_tag {e : Element} {name : String} (h : e.tag = name)
    (hn : name ∈ Field.writtenNames ∨ name ∈ termNames) :
    e.isModelElement = true ∧ e.localName = name := by
  have hnames : ∀ n ∈ Field.writtenNames ++ termNames,
      (Markup.namespaceOf? n).all (· == Markup.modelNamespace) = true ∧
        Markup.localName n = n := by decide
  subst h
  exact hnames _ (List.mem_append.2 hn)

theorem attributeOf?_of_same {t : FieldType} {e e' : Element} {spec : AttributeSpec}
    (htag : e.tag = spec.name) (hn : spec.name ∈ Field.writtenNames ∨ spec.name ∈ termNames)
    (hget : (standard t).attributes.get? spec.name = some spec)
    (hreads : (standard t).reads spec.name = true)
    (model : e'.isModelElement = e.isModelElement) (localName : e'.localName = e.localName) :
    attributeOf? (standard t) e' = some spec := by
  obtain ⟨hmodel, hlocal⟩ := isModelElement_of_tag htag hn
  rw [attributeOf?, model, localName, hmodel, hlocal, hreads, hget]
  rfl

/-! ## Attributes with their defaults -/

/-- The attributes that describe a field. -/
def describedNames : List String :=
  ["title", "description", "required", "readonly", "min_length", "max_length", "min_dots",
    "max_dots", "key_type", "value_type", "schema", "validate_invariants"]

/-- A field before its attributes are read, but for the terms of a choice. -/
def blank (f : Field) : Field := { Field.ofType f.type with vocabulary := f.vocabulary }

/-- An attribute with its default need not be read. -/
theorem overlay_of_default {f h : Field} {name : String} (hn : name ∈ Field.writtenNames)
    (hf : f.attribute? name = (Field.ofType f.type).attribute? name)
    (hh : h = Field.ofType f.type ∨ h = blank f) : overlay [name] f.reread h = h := by
  simp only [Field.writtenNames, List.mem_cons, List.not_mem_nil, or_false] at hn
  rcases hn with rfl | rfl | rfl | rfl | rfl | rfl | rfl | rfl | rfl | rfl | rfl | rfl | rfl | rfl |
    rfl | rfl <;> rcases hh with rfl | rfl <;>
    simp_all [Field.attribute?, Field.ofType, overlay, pick, Field.reread_eq, Field.asRead,
      Field.forget, Field.strip, Field.boundAsRead, blank]

theorem mem_writtenNames {spec : AttributeSpec} (h : spec ∈ writtenSpecs) :
    spec.name ∈ Field.writtenNames := by
  have hnames : ∀ spec ∈ writtenSpecs, spec.name ∈ Field.writtenNames := by decide
  exact hnames spec h

theorem isOwnType_iff {spec : AttributeSpec} (h : spec ∈ writtenSpecs) :
    spec.kind.isOwnType = true ↔ spec.name ∈ ownTypeAttributes := by
  have hkinds : ∀ spec ∈ writtenSpecs,
      (spec.kind.isOwnType = true ↔ spec.name ∈ ownTypeAttributes) := by decide
  exact hkinds spec h

/-- The attributes among `specs` that describe a field. -/
def describing (specs : List AttributeSpec) : List String :=
  (specs.filter fun spec => !spec.kind.isOwnType).map (·.name)

/-! ## Describing a field -/

section Reread

variable {f : Field} {specs : List AttributeSpec}
  {written : List (Option Element)}

/-- The elements of attributes describe a field, one after the other. -/
theorem readAttributes_written {s : Scope} (hs : s.resolve = resolve)
    (hr : s.registry = Registry.standard)
    (hw : List.Forall₂ (Written resolve domains f) specs written)
    (hspecs : ∀ spec ∈ specs, spec ∈ writtenSpecs ∧
      (standard f.type).attributes.get? spec.name = some spec)
    {es' rest : List Element} (same : SameElements s.domain (written.filterMap id) es')
    {done : List String} {g : Field} {m : Nat}
    (hg : g.bare = overlay done f.reread (Field.ofType f.type)) :
    ∃ n h, m ≤ n ∧ h.name = g.name ∧ h.order = g.order ∧
      h.bare = overlay (describing specs ++ done) f.reread (Field.ofType f.type) ∧
      ∀ {k : Nat} {result : Field},
        (readAttributes s (standard f.type) h rest).Succeeds n k result →
          (readAttributes s (standard f.type) g (es' ++ rest)).Succeeds m k result := by
  induction hw generalizing g m done es' with
  | nil =>
    cases same
    exact ⟨m, g, m.le_refl, rfl, rfl, hg, fun h => h⟩
  | @cons spec w specs ws hspec hws ih =>
    obtain ⟨hmem, hget⟩ := hspecs spec (.head _)
    have ih := @ih fun spec hspec => hspecs spec (.tail _ hspec)
    have hnames := mem_writtenNames hmem
    have hreads := FieldCodec.reads_written (t := f.type) hmem
    cases hspec with
    | absent hdefault =>
      obtain ⟨n, h, hmn, hname, horder, hbare, hrest⟩ := ih same hg
      refine ⟨n, h, hmn, hname, horder, ?_, hrest⟩
      rw [hbare]
      unfold describing
      by_cases hk : spec.kind.isOwnType = true
      · rw [List.filter_cons_of_neg (by simp [hk])]
      · rw [List.filter_cons_of_pos (by simp [hk]), List.map_cons, List.cons_append,
          Field.overlay_cons_of_same (overlay_of_default hnames hdefault (.inl rfl))]
    | @described e hk hdescribes =>
      cases same with
      | @cons _ e' _ es' model localName attributes content same =>
        have hattr := attributeOf?_of_same hdescribes.tag (.inl hnames) hget hreads model localName
        obtain ⟨n₁, h₁, hmn₁, hread, hsets⟩ := hdescribes.read (h := g) m hs hr
          (attributes "type" (by decide)) (attributes "name" (by decide)) content
        have hg₁ : h₁.bare = overlay (spec.name :: done) f.reread (Field.ofType f.type) := by
          rw [hsets.bare, hg, Field.overlay_cons spec.name done]
        obtain ⟨n, h, hmn, hname, horder, hbare, hrest⟩ := ih same hg₁
        refine ⟨n, h, Nat.le_trans hmn₁ hmn, hname.trans hsets.name, horder.trans hsets.order, ?_, ?_⟩
        · rw [hbare]
          refine Field.overlay_congr (fun a => ?_) _ _
          simp only [describing, List.filter_cons_of_pos (p := fun spec : AttributeSpec =>
            !spec.kind.isOwnType) (show (!spec.kind.isOwnType) = true by simp [hk]), List.map_cons,
            List.mem_append, List.mem_cons]
          tauto
        · intro k result hresult
          rw [List.cons_append, readAttributes_cons_described hattr hk]
          exact (hread.within e'.line).bind (hrest hresult)
    | @held e hk hholds =>
      cases same with
      | @cons _ e' _ es' model localName attributes content same =>
        have hattr := attributeOf?_of_same hholds.tag (.inl hnames) hget hreads model localName
        obtain ⟨n, h, hmn, hname, horder, hbare, hrest⟩ := ih same hg
        refine ⟨n, h, hmn, hname, horder, ?_, ?_⟩
        · rw [hbare]
          unfold describing
          rw [List.filter_cons_of_neg (by simp [hk])]
        · intro k result hresult
          rw [List.cons_append, readAttributes_cons_own hattr hk]
          exact hrest hresult

/-! ## Values of the field itself -/

/-- The elements among others that hold values of the field itself. -/
def ownElements (codec : FieldCodec) (es : List Element) : List Element :=
  es.filter fun e => (attributeOf? codec e).any (·.kind.isOwnType)

/-- The first element that holds a value of the field for an attribute is the one that was written,
and if there is none the attribute has its default. -/
theorem find_ownElement {domain : Option String} (hw : List.Forall₂ (Written resolve domains f) specs written)
    (hspecs : ∀ spec ∈ specs, spec ∈ writtenSpecs ∧
      (standard f.type).attributes.get? spec.name = some spec)
    {es' : List Element} (same : SameElements domain (written.filterMap id) es') {name : String}
    (hn : name ∈ ownTypeAttributes) :
    (∃ spec ∈ specs, ∃ e e', spec.name = name ∧
      (ownElements (standard f.type) es').find? (·.localName == name) = some e' ∧
        Holds resolve domains f spec e ∧ SameContent domain e e') ∨
      ((ownElements (standard f.type) es').find? (·.localName == name) = none ∧
        ∀ spec ∈ specs, spec.name = name →
          f.attribute? name = (Field.ofType f.type).attribute? name) := by
  induction hw generalizing es' with
  | nil =>
    cases same
    exact .inr ⟨rfl, fun _ h => nomatch h⟩
  | @cons spec w specs ws hspec hws ih =>
    obtain ⟨hmem, hget⟩ := hspecs spec (.head _)
    have ih := @ih fun spec hspec => hspecs spec (.tail _ hspec)
    have hnames := mem_writtenNames hmem
    have hreads := FieldCodec.reads_written (t := f.type) hmem
    cases hspec with
    | absent hdefault =>
      refine (ih same).imp (fun ⟨a, ha, h⟩ => ⟨a, .tail _ ha, h⟩) fun ⟨hnone, h⟩ => ⟨hnone, ?_⟩
      intro a ha haname
      rcases List.mem_cons.1 ha with rfl | ha
      · rw [← haname]
        exact hdefault
      · exact h a ha haname
    | @described e hk hdescribes =>
      cases same with
      | @cons _ e' _ es' model localName attributes content same =>
        have hattr := attributeOf?_of_same hdescribes.tag (.inl hnames) hget hreads model localName
        have hown : ownElements (standard f.type) (e' :: es') = ownElements (standard f.type) es' :=
          List.filter_cons_of_neg (by simp [hattr, hk])
        rw [hown]
        refine (ih same).imp (fun ⟨a, ha, h⟩ => ⟨a, .tail _ ha, h⟩) fun ⟨hnone, h⟩ => ⟨hnone, ?_⟩
        intro a ha haname
        rcases List.mem_cons.1 ha with rfl | ha
        · rw [← haname, ← isOwnType_iff hmem, hk] at hn
          cases hn
        · exact h a ha haname
    | @held e hk hholds =>
      cases same with
      | @cons _ e' _ es' model localName attributes content same =>
        have hattr := attributeOf?_of_same hholds.tag (.inl hnames) hget hreads model localName
        have hown : ownElements (standard f.type) (e' :: es') =
            e' :: ownElements (standard f.type) es' :=
          List.filter_cons_of_pos (by simp [hattr, hk])
        have hlocal : e'.localName = spec.name := by
          rw [localName, (isModelElement_of_tag hholds.tag (.inl hnames)).2]
        rw [hown]
        by_cases heq : spec.name = name
        · refine .inl ⟨spec, .head _, e, e', heq, ?_, hholds, content⟩
          rw [List.find?_cons_of_pos (by simp [hlocal, heq])]
        · rw [List.find?_cons_of_neg (by simp [hlocal, heq])]
          refine (ih same).imp (fun ⟨a, ha, h⟩ => ⟨a, .tail _ ha, h⟩) fun ⟨hnone, h⟩ => ⟨hnone, ?_⟩
          intro a ha haname
          rcases List.mem_cons.1 ha with rfl | ha
          · exact absurd haname heq
          · exact h a ha haname

theorem readOwnType_of_none {s : Scope} {codec : FieldCodec} {es : List Element} {g : Field}
    {name : String} (h : (ownElements codec es).find? (·.localName == name) = none) :
    readOwnType s codec es g name = pure g := by
  unfold ownElements at h
  simp only [readOwnType, h]

theorem readOwnType_of_some {s : Scope} {codec : FieldCodec} {es : List Element} {g : Field}
    {name : String} {e : Element}
    (h : (ownElements codec es).find? (·.localName == name) = some e) :
    readOwnType s codec es g name =
      Reading.within e.line (do
        let v ← decode s.toSurroundings
          ((codec.attributes.get? name).any (·.kind == .ownType)) g e
        Reading.ofModel (g.assign name v)) := by
  unfold ownElements at h
  simp only [readOwnType, h]

/-- Reading a value of the field itself sets its attribute, if the field is described. -/
theorem readOwnType_written {s : Scope} (hs : s.resolve = resolve)
    (hw : List.Forall₂ (Written resolve domains f) specs written)
    (hspecs : ∀ spec ∈ specs, spec ∈ writtenSpecs ∧
      (standard f.type).attributes.get? spec.name = some spec)
    (hdefault : ∀ name ∈ Field.writtenNames, (∀ spec ∈ specs, spec.name ≠ name) →
      f.attribute? name = (Field.ofType f.type).attribute? name)
    {es' rest : List Element} (same : SameElements s.domain (written.filterMap id) es')
    (hrest : ownElements (standard f.type) rest = []) {name : String}
    (hn : name ∈ ownTypeAttributes) {done : List String} {g : Field}
    (hg : g.bare = overlay done f.reread (blank f))
    (hd : ∀ spec : AttributeSpec, spec.name = name → Described f spec g) (m : Nat) :
    ∃ g', (readOwnType s (standard f.type) (es' ++ rest) g name).Succeeds m m g' ∧
      g'.name = g.name ∧ g'.order = g.order ∧
      g'.bare = overlay (name :: done) f.reread (blank f) := by
  have hown : ownElements (standard f.type) (es' ++ rest) = ownElements (standard f.type) es' := by
    unfold ownElements at hrest ⊢
    rw [List.filter_append, hrest, List.append_nil]
  have hnames : name ∈ Field.writtenNames := by
    have hsub : ∀ name ∈ ownTypeAttributes, name ∈ Field.writtenNames := by decide
    exact hsub name hn
  rcases find_ownElement hw hspecs same hn with
    ⟨spec, hspec, e, e', hname, hfind, hholds, content⟩ | ⟨hnone, habsent⟩
  · obtain ⟨v, g', hdecode, hassign, hsets⟩ := hholds.read hs (hd spec hname) content
    rw [hname] at hassign hsets
    have hget := (hspecs spec hspec).2
    rw [hname] at hget
    refine ⟨g', ?_, hsets.name, hsets.order, by rw [hsets.bare, hg, Field.overlay_cons name done]⟩
    rw [readOwnType_of_some (by rw [hown, hfind]), hget]
    exact ((Reading.succeeds_liftM hdecode m).bind
      (Reading.succeeds_ofModel hassign m)).within e'.line
  · rw [readOwnType_of_none (by rw [hown, hnone])]
    refine ⟨g, Reading.succeeds_pure g m, rfl, rfl, ?_⟩
    have hattr : f.attribute? name = (Field.ofType f.type).attribute? name := by
      by_cases hex : ∃ spec ∈ specs, spec.name = name
      · obtain ⟨spec, hspec, hname⟩ := hex
        exact habsent spec hspec hname
      · exact hdefault name hnames fun spec hspec hname => hex ⟨spec, hspec, hname⟩
    rw [Field.overlay_cons_of_same (overlay_of_default hnames hattr (.inr rfl)), hg]

end Reread

theorem overlay_described {f : Field} (hf : f.typeName = none) (own : List String) :
    overlay (own ++ describedNames) f.reread (blank f) =
      { f.reread with
        min := pick own "min" f.reread.min none
        max := pick own "max" f.reread.max none
        default := pick own "default" f.reread.default none
        missingValue := pick own "missing_value" f.reread.missingValue none } := by
  rw [Field.reread_eq]
  simp [overlay, pick, describedNames, Field.asRead, Field.forget, Field.strip, blank,
    Field.ofType, hf]

theorem min_bare (g : Field) : g.bare.min = g.min ∧ g.bare.max = g.max ∧
    g.bare.missingValue = g.missingValue := by
  rw [Field.bare_eq]
  exact ⟨rfl, rfl, rfl⟩

/-- A field with the attributes that describe `f`, and perhaps with bounds and a default, reads the
values of `f`. -/
theorem described_of_bare {f g : Field} (hf : f.typeName = none) {own : List String}
    (hg : g.bare = overlay (own ++ describedNames) f.reread (blank f))
    (hmissing : "missing_value" ∉ own) {spec : AttributeSpec}
    (hmin : spec.name = "min" → "min" ∉ own ∧ "max" ∉ own)
    (hmax : spec.name = "max" → "max" ∉ own) : Described f spec g := by
  rw [overlay_described hf] at hg
  obtain ⟨min_eq, max_eq, missing_eq⟩ := min_bare g
  rw [hg] at min_eq max_eq missing_eq
  have pick_none {name : String} {a : Option Value} (h : name ∉ own) : pick own name a none = none :=
    if_neg h
  have pick_cases {name : String} {a b : Option Value} (h : a = none ∨ a = b) :
      pick own name a none = none ∨ pick own name a none = b := by
    unfold pick
    split
    · exact h
    · exact .inl rfl
  have reread_min : f.reread.min = f.boundAsRead f.min := by rw [Field.reread_eq]; rfl
  have reread_max : f.reread.max = f.boundAsRead f.max := by rw [Field.reread_eq]; rfl
  refine ⟨Field.looser_of_bare (pick_cases ?_) (pick_cases ?_) hg, ?_, fun h => ⟨?_, ?_⟩, fun h => ?_⟩
  · rw [reread_min]
    exact f.boundAsRead_cases f.min
  · rw [reread_max]
    exact f.boundAsRead_cases f.max
  · rw [← missing_eq]
    exact pick_none hmissing
  · rw [← min_eq]
    exact pick_none (hmin h).1
  · rw [← max_eq]
    exact pick_none (hmin h).2
  · rw [← max_eq]
    exact pick_none (hmax h)

/-! ## The terms of a choice -/

theorem get?_termsSpec (source : TermSource) :
    (standard .choice).attributes.get? (termsSpec source).name = some (termsSpec source) := by
  have hmem : termsSpec source ∈ FieldType.choice.attributes := by
    cases source <;> simp [termsSpec, FieldType.attributes]
  have hnodup : ((FieldType.choice.attributes.map fun spec => (spec.name, spec)).map (·.1)).Nodup := by
    decide
  exact NameMap.get?_ofList_of_mem hnodup (List.mem_map.2 ⟨_, hmem, rfl⟩)

theorem vocabulary_eq_none {f : Field} (h : ExpressibleAttributes resolve domains f)
    (ht : f.type ≠ .choice) : f.vocabulary = none := by
  have undeclared {name : String} (hn : name ∈ termNames) :
      f.attribute? name = (Field.ofType f.type).attribute? name := by
    refine h.undeclared name ?_
    cases hg : (standard f.type).attributes.get? name with
    | none => rfl
    | some spec =>
      obtain ⟨rfl, hs | hs | ⟨hs, -⟩⟩ := FieldCodec.mem_declared hg
      · have hdisjoint : ∀ n ∈ Field.writtenNames, n ∉ termNames := by decide
        exact absurd hn (hdisjoint _ (mem_writtenNames hs))
      · have hdisjoint : ∀ n ∈ hiddenNames, n ∉ termNames := by decide
        exact absurd hn (hdisjoint _ hs)
      · exact absurd hs ht
  have hname := undeclared (show "vocabulary" ∈ termNames by decide)
  have hvalues := undeclared (show "values" ∈ termNames by decide)
  have hsource := undeclared (show "source" ∈ termNames by decide)
  cases hv : f.vocabulary with
  | none => rfl
  | some source =>
    cases source <;> simp_all [Field.attribute?, Field.ofType]

/-- The terms of a choice are read once it is described. -/
theorem exists_terms {f : Field} (h : ExpressibleAttributes resolve domains f) :
    ∃ terms, (if f.type = .choice then (writeTerms f).map ([·]) else .ok []) = .ok terms ∧
      AllRegular domains terms ∧
      ∀ {s : Scope} {es' : List Element} {g : Field} {done : List String} (m : Nat),
        SameElements s.domain terms es' →
          g.bare = overlay done f.reread (Field.ofType f.type) →
            ownElements (standard f.type) es' = [] ∧
              ∃ g', (readAttributes s (standard f.type) g es').Succeeds m m g' ∧ g'.name = g.name ∧
                g'.order = g.order ∧ g'.bare = overlay done f.reread (blank f) := by
  by_cases ht : f.type = .choice
  · obtain ⟨source, hv, hsource⟩ := h.terms ht
    obtain ⟨e, he, htag, hregular, hread⟩ := hsource.exists_element hv
    have hname : (termsSpec source).name = "vocabulary" ∨ (termsSpec source).name = "values" := by
      cases source <;> simp [termsSpec]
    have hn : (termsSpec source).name ∈ termNames := by
      rcases hname with hname | hname <;> rw [hname] <;> decide
    have hk : (termsSpec source).kind.isOwnType = false := by cases source <;> rfl
    have hreads : (standard f.type).reads (termsSpec source).name = true := by
      rcases hname with hname | hname <;> rw [hname] <;>
        exact FieldCodec.reads_of_ne (by decide) (by decide) (by decide)
    refine ⟨[e], by rw [if_pos ht, he]; rfl, ?_, ?_⟩
    · refine allRegular_cons ?_ hregular allRegular_nil
      rw [htag]
      rcases hname with hname | hname <;> rw [hname] <;> decide
    · intro s es' g done m same hg
      cases same with
      | @cons _ e' _ es' model localName attributes content same =>
        cases same
        have hattr := attributeOf?_of_same htag (.inr hn) (by rw [ht]; exact get?_termsSpec source)
          hreads model localName
        have hnone : g.vocabulary = none := by
          have hbare : g.bare.vocabulary = none := by rw [hg]; rfl
          rw [Field.bare_eq] at hbare
          exact hbare
        refine ⟨List.filter_eq_nil_iff.2 ?_, { g with vocabulary := some source }, ?_, rfl, rfl, ?_⟩
        · simp [hattr, hk]
        · rw [readAttributes_cons_described hattr hk]
          refine ((?_ : (readDescription s g (termsSpec source) e').Succeeds m m
            { g with vocabulary := some source }).within e'.line).bind ?_
          · have hkind : (termsSpec source).kind ≠ .nestedField := by cases source <;> simp [termsSpec]
            rw [readDescription, if_neg hkind]
            exact hread m hnone content
          · rw [readAttributes]
            exact Reading.succeeds_pure _ m
        · have hbare : ({ g with vocabulary := some source } : Field).bare =
              { g.bare with vocabulary := some source } := by
            rw [Field.bare_eq, Field.bare_eq g]
            rfl
          rw [hbare, hg, blank, hv]
          rfl
  · refine ⟨[], by rw [if_neg ht], allRegular_nil, ?_⟩
    intro s es' g done m same hg
    cases same
    refine ⟨rfl, g, by rw [readAttributes]; exact Reading.succeeds_pure g m, rfl, rfl, ?_⟩
    rw [hg, blank, vocabulary_eq_none h ht]
    rfl

/-! ## Whole fields -/

/-- Whether an element stands for a field under a name: whatever has the same content reads back as
the field. -/
structure StandsFor (resolve : Resolver) (domains : Set String) (f : Field) (label : Option String)
    (e : Element) : Prop where
  /-- The element has the name. -/
  name : e.get? "name" = label
  /-- The element has the type. -/
  type : e.get? "type" = some f.type.identifier
  /-- The element can be written and read. -/
  regular : Regular domains e
  /-- What has the same content is read as the field. -/
  read {s : Scope} {e' : Element} (m : Nat) (hs : s.resolve = resolve)
    (hr : s.registry = Registry.standard) (hname : e'.get? "name" = e.get? "name")
    (same : SameContent s.domain e e') :
    ∃ n g, m < n ∧ (readField s (standard f.type) e').Succeeds m n g ∧
      g.name = label.getD "" ∧ g.order = m ∧ g.bare = f.reread

theorem writeField_eq (registry : Registry) (f : Field) (codec : FieldCodec) (name : Option String)
    (tag : String) :
    writeField registry f codec name tag = (do
      let written ← (codec.attributes.values.filter fun spec => codec.writes spec.name).mapM
        (writeAttribute f
          (f.keyType.map fun g => writeNested registry "key_type" g fun c =>
            writeField registry g c none "key_type")
          (f.valueType.map fun g => writeNested registry "value_type" g fun c =>
            writeField registry g c none "value_type"))
      let terms ← (if codec.type = .choice then (writeTerms f).map ([·]) else .ok [] :
        Except Fault (List Element))
      return { tag
               attributes := (match name with
                 | some n => [("name", n)]
                 | none => []) ++ [("type", f.typeIdentifier)]
               children := written.filterMap id ++ terms }) := by
  cases f with
  | mk fname type typeName title description required readonly default missingValue defaultFactory
      order interface markers min max minLength maxLength minDots maxDots unique keyType valueType
      schema validateInvariants vocabulary =>
    by_cases ht : codec.type = .choice <;> cases keyType <;> cases valueType <;>
      simp only [writeField, ht, if_true, if_false, Option.map_none, Option.map_some] <;> rfl

/-- A nested field is written as it should be, if its own element stands for it. -/
theorem written_nested {f : Field} {name : String} {nested : Option Field}
    (hn : name = "key_type" ∧ nested = f.keyType ∨ name = "value_type" ∧ nested = f.valueType)
    {key item : Option (Except Fault Element)}
    (hwrite : (if name == "key_type" then key else item) =
      nested.map fun g => writeNested Registry.standard name g fun c =>
        writeField Registry.standard g c none name)
    (h : ∀ k, nested = some k → k.typeName = none ∧
      ∃ e, writeField Registry.standard k (standard k.type) none name = .ok e ∧ e.tag = name ∧
        StandsFor resolve domains k none e) :
    ∃ w, writeAttribute f key item ⟨name, .nestedField, none⟩ = .ok w ∧
      Written resolve domains f ⟨name, .nestedField, none⟩ w := by
  have hattr : f.attribute? name = some (.field nested) := by
    rcases hn with ⟨rfl, rfl⟩ | ⟨rfl, rfl⟩ <;> rfl
  cases nested with
  | none =>
    refine ⟨none, by simp only [writeAttribute, hattr], .absent ?_⟩
    rw [hattr]
    rcases hn with ⟨rfl, -⟩ | ⟨rfl, -⟩ <;> rfl
  | some k =>
    obtain ⟨htype, e, he, htag, hstands⟩ := h k rfl
    refine ⟨some e, ?_, .described rfl ⟨htag, hstands.regular, ?_⟩⟩
    · simp only [writeAttribute, hattr, hwrite, Option.map_some, writeNested, Field.typeIdentifier,
        htype, Option.getD_none, Registry.get?_standard, he, bind, Except.bind, pure, Except.pure]
    · intro s g e' m hs hr type name_eq same
      obtain ⟨n, k', hmn, hread, -, -, hbare⟩ := hstands.read m hs hr name_eq same
      have hcodec : nestedCodec s ⟨name, .nestedField, none⟩ e' = .ok (standard k.type) := by
        rw [nestedCodec, type, hstands.type]
        simp only [hr, Registry.get?_standard]
      have hdescription {g' : Field} (hset : g.setNested name (some k') = .ok g') :
          (readDescription s g ⟨name, .nestedField, none⟩ e').Succeeds m n g' := by
        rw [readDescription, if_pos rfl]
        exact (Reading.succeeds_liftM hcodec m).bind
          (hread.bind (Reading.succeeds_ofModel hset n))
      have hreread : f.reread.keyType = f.keyType.map Field.reread ∧
          f.reread.valueType = f.valueType.map Field.reread := by
        rw [Field.reread_eq]
        exact ⟨rfl, rfl⟩
      rcases hn with ⟨rfl, hk⟩ | ⟨rfl, hk⟩
      · refine ⟨n, { g with keyType := some k' }, Nat.le_of_lt hmn, hdescription rfl, ?_, rfl, rfl⟩
        rw [Field.bare_eq, Field.bare_eq g]
        simp [overlay, pick, Field.strip, hreread.1, ← hk, hbare]
      · refine ⟨n, { g with valueType := some k' }, Nat.le_of_lt hmn, hdescription rfl, ?_, rfl, rfl⟩
        rw [Field.bare_eq, Field.bare_eq g]
        simp [overlay, pick, Field.strip, hreread.2, ← hk, hbare]

/-- What a field's element lacks has its default. -/
theorem attribute_of_unwritten {f : Field}
    (h : ExpressibleAttributes resolve domains f) {name : String} (hn : name ∈ Field.writtenNames)
    (hno : ∀ spec ∈ (standard f.type).attributes.values.filter fun spec =>
      (standard f.type).writes spec.name, spec.name ≠ name) :
    f.attribute? name = (Field.ofType f.type).attribute? name := by
  cases hg : (standard f.type).attributes.get? name with
  | none => exact h.undeclared name hg
  | some spec =>
    obtain ⟨rfl, -⟩ := FieldCodec.mem_declared hg
    have hwrites : (standard f.type).writes spec.name = false := by
      refine Bool.eq_false_iff.2 fun hw => hno spec ?_ rfl
      exact List.mem_filter.2 ⟨List.mem_map.2 ⟨_, (NameMap.mem_entries_iff _).2 hg, rfl⟩, hw⟩
    have inexpressible {validate : Bool} {v : Value} (ht : f.type = .object)
        (hv : Expressible resolve domains validate f v) : False := by
      cases hv with
      | scalar hp => cases hp <;> simp_all [FieldType.isTextual]
      | message hm => simp [ht, admitsMessages] at hm
      | list hl | tuple hl | set hl | dict hl => simp [ht] at hl
    rcases FieldCodec.of_writes_eq_false hwrites with hh | ⟨ht, hname | hname⟩ | ⟨-, hh⟩
    · have hdisjoint : ∀ n ∈ Field.writtenNames, n ∉ hiddenNames := by decide
      exact absurd hh (hdisjoint _ hn)
    · rw [hname]
      cases hd : f.default with
      | none => simp [Field.attribute?, Field.ofType, hd]
      | some v => exact (inexpressible ht (h.default v hd).1).elim
    · rw [hname]
      cases hd : f.missingValue with
      | none => simp [Field.attribute?, Field.ofType, hd]
      | some v => exact (inexpressible ht (h.missingValue v hd)).elim
    · have hdisjoint : ∀ n ∈ Field.writtenNames, n ∉ termNames := by decide
      exact absurd hh (hdisjoint _ hn)

theorem allRegular_written {f : Field} {specs : List AttributeSpec}
    {written : List (Option Element)} (hw : List.Forall₂ (Written resolve domains f) specs written)
    (hspecs : ∀ spec ∈ specs, spec ∈ writtenSpecs) :
    AllRegular domains (written.filterMap id) := by
  have hplain : ∀ spec ∈ writtenSpecs, Markup.isPlainName spec.name = true := by decide
  induction hw with
  | nil => exact allRegular_nil
  | @cons spec w specs written hspec _ ih =>
    have htag := hplain spec (hspecs spec (.head _))
    have ih := ih fun spec hspec => hspecs spec (.tail _ hspec)
    cases hspec with
    | absent => exact ih
    | described _ h => exact allRegular_cons (by rw [h.tag, htag]) h.regular ih
    | held _ h => exact allRegular_cons (by rw [h.tag, htag]) h.regular ih

theorem bare_newField (t : FieldType) (name : String) (order : Nat) :
    (newField (standard t) name order).bare = Field.ofType t := by
  rw [Field.bare_eq]
  simp [newField, FieldCodec.identifier_standard, FieldCodec.type_standard, Field.strip,
    Field.ofType]

theorem overlay_describing {f : Field} {specs : List AttributeSpec} (hspecs : ∀ spec ∈ specs, spec ∈ writtenSpecs)
    (hdefault : ∀ name ∈ Field.writtenNames, (∀ spec ∈ specs, spec.name ≠ name) →
      f.attribute? name = (Field.ofType f.type).attribute? name) :
    overlay (describing specs) f.reread (blank f) = overlay describedNames f.reread (blank f) := by
  have hdescribed : ∀ spec ∈ writtenSpecs, spec.kind.isOwnType = false →
      spec.name ∈ describedNames := by decide
  have hwritten : ∀ n ∈ describedNames, n ∈ Field.writtenNames ∧ n ∉ ownTypeAttributes := by decide
  refine (Field.overlay_of_same (fun n hn => ?_) fun n hn hno => ?_).symm
  · obtain ⟨spec, hspec, rfl⟩ := List.mem_map.1 hn
    obtain ⟨hspec, hk⟩ := List.mem_filter.1 hspec
    exact hdescribed spec (hspecs spec hspec) (by simpa using hk)
  · obtain ⟨hn, hown⟩ := hwritten n hn
    refine overlay_of_default hn (hdefault n hn fun spec hspec hname => hno ?_) (.inr rfl)
    refine List.mem_map.2 ⟨spec, List.mem_filter.2 ⟨hspec, ?_⟩, hname⟩
    cases hk : spec.kind.isOwnType with
    | false => rfl
    | true =>
      rw [isOwnType_iff (hspecs spec hspec), hname] at hk
      exact absurd hk hown

/-- What a field reads that is described and has all values of its own is complete. -/
theorem finish_of_bare {f g : Field} (h : ExpressibleAttributes resolve domains f)
    (hg : g.bare = f.reread) : g.finish = .ok g := by
  have htype : g.type = f.type := by
    have := congrArg Field.type hg
    rwa [Field.bare_eq, Field.reread_eq] at this
  have hvocabulary : g.vocabulary = f.vocabulary := by
    have := congrArg Field.vocabulary hg
    rwa [Field.bare_eq, Field.reread_eq] at this
  rw [Field.finish, htype, hvocabulary, if_neg]
  rintro ⟨ht, hnone⟩
  obtain ⟨source, hsource, -⟩ := h.terms ht
  rw [hsource] at hnone
  cases hnone

/-- Reading the values of the field itself completes a field that is described. -/
theorem readOwnTypes_written {f : Field}
    (h : ExpressibleAttributes resolve domains f) {specs : List AttributeSpec}
    {written : List (Option Element)} {s : Scope} (hs : s.resolve = resolve)
    (hw : List.Forall₂ (Written resolve domains f) specs written)
    (hspecs : ∀ spec ∈ specs, spec ∈ writtenSpecs ∧
      (standard f.type).attributes.get? spec.name = some spec)
    (hdefault : ∀ name ∈ Field.writtenNames, (∀ spec ∈ specs, spec.name ≠ name) →
      f.attribute? name = (Field.ofType f.type).attribute? name)
    {es' rest : List Element} (same : SameElements s.domain (written.filterMap id) es')
    (hrest : ownElements (standard f.type) rest = []) {g : Field}
    (hg : g.bare = overlay describedNames f.reread (blank f)) (m : Nat) :
    ∃ g', (ownTypeAttributes.foldlM (readOwnType s (standard f.type) (es' ++ rest)) g).Succeeds
        m m g' ∧ g'.name = g.name ∧ g'.order = g.order ∧ g'.bare = f.reread := by
  have step (name : String) (own : List String) (hn : name ∈ ownTypeAttributes) {k : Field}
      (hk : k.bare = overlay (own ++ describedNames) f.reread (blank f))
      (hmissing : "missing_value" ∉ own) (hmin : name = "min" → "min" ∉ own ∧ "max" ∉ own)
      (hmax : name = "max" → "max" ∉ own) :=
    readOwnType_written hs hw hspecs hdefault same hrest hn hk (fun spec hspec =>
      described_of_bare h.typeName hk hmissing (fun h => hmin (hspec ▸ h))
        fun h => hmax (hspec ▸ h)) m
  obtain ⟨g₁, hread₁, hname₁, horder₁, hbare₁⟩ := step "min" [] (by decide) hg
    (by decide) (by decide) (by decide)
  obtain ⟨g₂, hread₂, hname₂, horder₂, hbare₂⟩ := step "max" ["min"] (by decide)
    hbare₁ (by decide) (by decide) (by decide)
  obtain ⟨g₃, hread₃, hname₃, horder₃, hbare₃⟩ := step "default" ["max", "min"] (by decide)
    hbare₂ (by decide) (by decide) (by decide)
  obtain ⟨g₄, hread₄, hname₄, horder₄, hbare₄⟩ := step "missing_value"
    ["default", "max", "min"] (by decide) hbare₃ (by decide) (by decide) (by decide)
  refine ⟨g₄, ?_, by rw [hname₄, hname₃, hname₂, hname₁],
    by rw [horder₄, horder₃, horder₂, horder₁], ?_⟩
  · simp only [ownTypeAttributes, List.foldlM_cons, List.foldlM_nil]
    exact hread₁.bind (hread₂.bind (hread₃.bind (hread₄.bind (Reading.succeeds_pure g₄ m))))
  · rw [hbare₄]
    refine (overlay_described h.typeName ["missing_value", "default", "max", "min"]).trans ?_
    cases f.reread
    simp [pick]

/-- The attributes of an expressible field are written as they should be, if its nested fields
are. -/
theorem exists_written {f : Field} (h : ExpressibleAttributes resolve domains f)
    (hnested : ∀ name nested, (name = "key_type" ∧ nested = f.keyType ∨
      name = "value_type" ∧ nested = f.valueType) → ∀ k, nested = some k → k.typeName = none ∧
        ∃ e, writeField Registry.standard k (standard k.type) none name = .ok e ∧ e.tag = name ∧
          StandsFor resolve domains k none e) {spec : AttributeSpec} (hs : spec ∈ writtenSpecs) :
    ∃ w, writeAttribute f
        (f.keyType.map fun g => writeNested Registry.standard "key_type" g fun c =>
          writeField Registry.standard g c none "key_type")
        (f.valueType.map fun g => writeNested Registry.standard "value_type" g fun c =>
          writeField Registry.standard g c none "value_type") spec = .ok w ∧
      Written resolve domains f spec w := by
  by_cases hk : spec.kind = .nestedField
  · rcases FieldCodec.eq_of_nestedField hs hk with rfl | rfl
    · exact written_nested (.inl ⟨rfl, rfl⟩) rfl (hnested _ _ (.inl ⟨rfl, rfl⟩))
    · exact written_nested (.inr ⟨rfl, rfl⟩) rfl (hnested _ _ (.inr ⟨rfl, rfl⟩))
  · exact h.written_value hs hk _ _

/-- An expressible field has an element that stands for it. -/
theorem exists_fieldElement {f : Field}
    (h : f.Everywhere (ExpressibleAttributes resolve domains)) (label : Option String) (tag : String) :
    ∃ e, writeField Registry.standard f (standard f.type) label tag = .ok e ∧ e.tag = tag ∧
      StandsFor resolve domains f label e := by
  induction h generalizing label tag with
  | @intro f here key value ihkey ihvalue =>
    have hnested : ∀ name nested, (name = "key_type" ∧ nested = f.keyType ∨
        name = "value_type" ∧ nested = f.valueType) → ∀ k, nested = some k → k.typeName = none ∧
          ∃ e, writeField Registry.standard k (standard k.type) none name = .ok e ∧ e.tag = name ∧
            StandsFor resolve domains k none e := by
      rintro name nested (⟨-, rfl⟩ | ⟨-, rfl⟩) k hk
      · exact ⟨(key k hk).here.typeName, ihkey k hk none name⟩
      · exact ⟨(value k hk).here.typeName, ihvalue k hk none name⟩
    have hspecs : ∀ spec ∈ (standard f.type).attributes.values.filter fun spec =>
        (standard f.type).writes spec.name, spec ∈ writtenSpecs ∧
          (standard f.type).attributes.get? spec.name = some spec := fun spec hspec => by
      obtain ⟨hmem, hw⟩ := List.mem_filter.1 hspec
      exact (FieldCodec.mem_written hmem hw).symm
    have hdefault := fun name (hn : name ∈ Field.writtenNames) => attribute_of_unwritten here hn
    have hwrite := writeField_eq Registry.standard f (standard f.type) label tag
    generalize (standard f.type).attributes.values.filter (fun spec =>
      (standard f.type).writes spec.name) = specs at hspecs hdefault hwrite
    obtain ⟨ws, hws⟩ := exists_forall₂ fun spec hspec =>
      exists_written here hnested (hspecs spec hspec).1
    have hw : List.Forall₂ (Written resolve domains f) specs ws := hws.imp fun _ _ h => h.2
    obtain ⟨terms, hterms, htermsRegular, htermsRead⟩ := exists_terms here
    rw [mapM_of_forall₂ (hws.imp fun _ _ h => h.1), FieldCodec.type_standard, hterms] at hwrite
    refine ⟨_, hwrite, rfl, ?_, ?_, ?_, ?_⟩
    · cases label <;> rfl
    · cases label <;> simp [Element.get?, Field.typeIdentifier, here.typeName]
    · have hwritten := allRegular_written hw fun spec hspec => (hspecs spec hspec).1
      have hchildren : AllRegular domains (ws.filterMap id ++ terms) := fun c hc =>
        (List.mem_append.1 hc).elim (hwritten c) (htermsRegular c)
      exact regular_unmarked (by cases label <;> simp) (by cases label <;> simp) hchildren
    · intro s e' m hs hr hname same
      obtain ⟨-, -, -, hchildren⟩ := same
      obtain ⟨es', rest, hes, hsame, hrest⟩ := hchildren.append_left
      have hstart : (newField (standard f.type) (label.getD "") m).bare =
          overlay [] f.reread (Field.ofType f.type) := by
        rw [bare_newField, Field.overlay_nil]
      obtain ⟨n, g₁, hmn, hname₁, horder₁, hbare₁, hread₁⟩ :=
        readAttributes_written hs hr hw hspecs hsame hstart
      obtain ⟨hown, g₂, hread₂, hname₂, horder₂, hbare₂⟩ := htermsRead n hrest hbare₁
      rw [List.append_nil, overlay_describing (fun spec hspec => (hspecs spec hspec).1)
        hdefault] at hbare₂
      obtain ⟨g₃, hread₃, hname₃, horder₃, hbare₃⟩ :=
        readOwnTypes_written here hs hw hspecs hdefault hsame hown hbare₂ n
      have hlabel : e'.get? "name" = label := by
        rw [hname]
        cases label <;> rfl
      refine ⟨n, g₃, hmn, ?_, by rw [hname₃, hname₂, hname₁]; rfl,
        by rw [horder₃, horder₂, horder₁]; rfl, hbare₃⟩
      rw [readField_eq, hes, hlabel]
      exact (Reading.succeeds_takeNumber m).bind ((hread₁ hread₂).bind
        (hread₃.bind (Reading.succeeds_ofModel (finish_of_bare here hbare₃) n)))

/-! ## Ranges -/

/-- A field with bounds and a missing value, and with its defaults otherwise. -/
def rangeField (t : FieldType) (min max missing : Option Value) : Field :=
  { Field.ofType t with min, max, missingValue := missing }

/-- Whether bounds and a missing value have elements, and the greatest value is not below the
least. -/
structure ExpressibleRange (t : FieldType) (resolve : Resolver) (min max missing : Option Value) :
    Prop where
  /-- The values are of the type. -/
  values (v : Value) : min = some v ∨ max = some v ∨ missing = some v →
    (Field.ofType t).PlainScalar resolve v
  /-- The greatest value is not below the least. -/
  bounds (a b : Value) : min = some a → max = some b → b.compareBound? a ≠ some .lt

/-- Such a field is expressible; its name, its place and the schema around it do not count. -/
theorem ExpressibleRange.field {t : FieldType} {min max missing : Option Value}
    (h : ExpressibleRange t resolve min max missing) (ht : t.isOrderable = true)
    (domains : Set String) (name : String) (order : Nat) (interface : Option String) :
    Field.Everywhere (ExpressibleAttributes resolve domains)
      { rangeField t min max missing with name, order, interface } := by
  have hvalue (v : Value) (hv : min = some v ∨ max = some v ∨ missing = some v) :
      Field.PlainScalar resolve { rangeField t min max missing with name, order, interface } v :=
    .congr (f := Field.ofType t) rfl rfl (h.values v hv)
  refine .intro ⟨rfl, fun written hn => ?_, trivial, rfl, trivial, fun b hb => hvalue b (.inl hb),
    fun b hb => hvalue b (.inr (.inl hb)), h.bounds, nofun, fun v hv => .scalar ?_, nofun,
    fun hchoice => ?_⟩ nofun nofun
  · have hdeclared : ∀ declared ∈ ["order", "min", "max", "missing_value"],
        (standard t).attributes.get? declared ≠ none := by
      cases t <;> first | exact absurd ht (by decide) | decide
    have hset (declared : String) (hd : declared ∈ ["order", "min", "max", "missing_value"]) :
        written ≠ declared := by
      rintro rfl
      exact hdeclared _ hd hn
    unfold Field.attribute?
    split <;> first
      | rfl
      | exact absurd rfl (hset _ (by decide))
  · exact hvalue v (.inr (.inr hv))
  · rw [show t = .choice from hchoice] at ht
    cases ht

/-! ## The round trip -/

/-- An expressible field has an element, which reads back as the field without the bounds that equal
a missing value. So it reads back as the field that was written just if there is no such bound. -/
theorem readField_writeField (s : Scope) {f : Field} (hr : s.registry = Registry.standard)
    (hdomain : s.domain.isSome = true) (h : f.Everywhere (ExpressibleAttributes s.resolve Set.univ))
    (label : Option String) (tag : String) (m : Nat) :
    ∃ e n g, writeField s.registry f (standard f.type) label tag = .ok e ∧ m < n ∧
      (readField s (standard f.type) e).Succeeds m n g ∧ g.name = label.getD "" ∧ g.order = m ∧
      g.bare = f.reread ∧ (g.kept = f.kept ↔ f.Everywhere Field.BoundsDiffer) := by
  obtain ⟨e, he, -, hstands⟩ := exists_fieldElement h label tag
  obtain ⟨domain, hd⟩ := Option.isSome_iff_exists.1 hdomain
  obtain ⟨n, g, hmn, hread, hname, horder, hbare⟩ :=
    hstands.read m rfl hr rfl (hd ▸ hstands.regular.sameContent domain)
  refine ⟨e, n, g, by rw [hr, he], hmn, hread, hname, horder, hbare, ?_⟩
  rw [← Field.kept_bare, hbare, Field.kept_reread]
  exact f.reread_eq_kept_iff

/-- Integers from a least one on, with a missing value. -/
def integersFrom (least missing : Int64) : Field :=
  { Field.ofType .int with min := some (.int least), missingValue := some (.int missing) }

theorem expressible_ownIntegersFrom (resolve : Resolver) (domains : Set String)
    (least missing : Int64) (name : String) (interface : Option String) :
    Field.Everywhere (ExpressibleAttributes resolve domains)
      { integersFrom least missing with name, interface } := by
  have hrange : ExpressibleRange .int resolve (some (.int least)) none (some (.int missing)) := by
    refine ⟨fun v hv => ?_, nofun⟩
    rcases hv with hv | hv | hv <;> cases hv <;> exact .int rfl
  exact hrange.field rfl domains name 0 interface

theorem expressible_integersFrom (resolve : Resolver) (least missing : Int64) :
    (integersFrom least missing).Everywhere (ExpressibleAttributes resolve Set.univ) :=
  expressible_ownIntegersFrom resolve Set.univ least missing "" none

/-- A list of positive integers. -/
def positiveNumbers : Field :=
  { Field.ofType .list with
    title := .text "Numbers"
    default := some (.list [.int 1, .int 2])
    valueType := some (integersFrom 1 0) }

theorem readField_writeField_positiveNumbers :
    ∃ e n g, writeField Registry.standard positiveNumbers (standard .list) (some "numbers") "field" =
        .ok e ∧ 1 < n ∧
      (readField ⟨⟨fun _ => none, some "site"⟩, Registry.standard⟩ (standard .list) e).Succeeds
        1 n g ∧ g.name = "numbers" ∧ g.kept = positiveNumbers.kept := by
  have hdefault : (standard .list).attributes.get? "default" ≠ none := by decide
  have hitem : (standard .list).attributes.get? "value_type" ≠ none := by decide
  have htitle : (standard .list).attributes.get? "title" ≠ none := by decide
  have hexpressible : positiveNumbers.Everywhere (ExpressibleAttributes (fun _ => none) Set.univ) := by
    refine .intro ⟨rfl, fun name hn => ?_, trivial, rfl, trivial, nofun, nofun, nofun, ?_, nofun,
      nofun, nofun⟩ nofun ?_
    · change (standard .list).attributes.get? name = none at hn
      unfold Field.attribute?
      split <;> first
        | rfl
        | exact absurd hn hdefault
        | exact absurd hn hitem
        | exact absurd hn htitle
    · rintro v ⟨⟩
      refine ⟨.list rfl ?_ fun _ => ?_, rfl⟩
      all_goals
        simp only [List.forall_mem_cons, List.not_mem_nil, false_imp_iff, implies_true, and_true]
      · exact ⟨.scalar (.int rfl), .scalar (.int rfl)⟩
      · exact ⟨rfl, rfl⟩
    · rintro k ⟨⟩
      exact expressible_integersFrom _ 1 0
  have hbounds : positiveNumbers.Everywhere Field.BoundsDiffer := by
    refine .intro ⟨nofun, nofun⟩ nofun ?_
    rintro k ⟨⟩
    refine .intro ⟨?_, nofun⟩ nofun nofun
    rintro b ⟨⟩
    rfl
  obtain ⟨e, n, g, hwrite, hn, hread, hname, -, -, hkept⟩ :=
    readField_writeField ⟨⟨fun _ => none, some "site"⟩, Registry.standard⟩ rfl rfl hexpressible
      (some "numbers") "field" 1
  exact ⟨e, n, g, hwrite, hn, hread, hname, hkept.2 hbounds⟩

/-- A least value that equals the missing value is lost. -/
theorem readField_writeField_min_missingValue :
    (integersFrom 5 5).Everywhere (ExpressibleAttributes (fun _ => none) Set.univ) ∧
      ∃ e n g, writeField Registry.standard (integersFrom 5 5) (standard .int) none "field" = .ok e ∧
        (readField ⟨⟨fun _ => none, some "site"⟩, Registry.standard⟩ (standard .int) e).Succeeds
          1 n g ∧ g.min = none ∧ (integersFrom 5 5).min = some (.int 5) := by
  have hexpressible := expressible_integersFrom (fun _ => none) 5 5
  obtain ⟨e, he, -, hstands⟩ := exists_fieldElement hexpressible none "field"
  obtain ⟨n, g, -, hread, -, -, hbare⟩ :=
    hstands.read (s := ⟨⟨fun _ => none, some "site"⟩, Registry.standard⟩) 1 rfl rfl rfl
      (hstands.regular.sameContent "site")
  refine ⟨hexpressible, e, n, g, he, hread, ?_, rfl⟩
  rw [← (min_bare g).1, hbare, Field.reread_eq]
  rfl

end ContentSchema.Document
