import ContentSchema.Proofs.Document.Field
import Mathlib.Logic.Relation

/-!
# What is read of a field

Whatever the element of a field holds, reading takes it up in steps of few kinds. `DescribedBy` says
what one element makes of the field that it describes, and `ValueRead` which values of the field
itself there can be. `ReadFrom` puts the steps together.

Results: a field that was read was read in these steps (`readFrom_of_yields`), and each field nested
in it was read by itself, from an element inside (`everywhere_of_yields`).
-/
namespace ContentSchema.Document

open FieldCodec (standard)
open Markup (Element)

/-- The field `h` as the field `r` describes it: all but name and place, what belongs to the schema
around it, and the values of its own type. -/
def describedAs (h r : Field) : Field :=
  { h with
    title := r.title
    description := r.description
    required := r.required
    readonly := r.readonly
    defaultFactory := r.defaultFactory
    minLength := r.minLength
    maxLength := r.maxLength
    minDots := r.minDots
    maxDots := r.maxDots
    keyType := r.keyType
    valueType := r.valueType
    schema := r.schema
    validateInvariants := r.validateInvariants
    vocabulary := r.vocabulary }

/-! ## One description -/

/-- The attributes with a text, a truth value or a number that describe fields. -/
def simpleSpecs : List AttributeSpec :=
  [⟨"description", .text, some (.text "")⟩, ⟨"max_dots", .int, none⟩, ⟨"max_length", .int, none⟩,
    ⟨"min_dots", .int, some (.int 0)⟩, ⟨"min_length", .int, some (.int 0)⟩,
    ⟨"readonly", .bool, some (.bool false)⟩, ⟨"required", .bool, some (.bool true)⟩,
    ⟨"title", .textLine, some (.text "")⟩, ⟨"validate_invariants", .bool, some (.bool true)⟩]

/-- The terms that an element gives a choice. -/
inductive GivesTerms (s : Scope) (e : Element) : TermSource → Prop
  /-- The name of a vocabulary. -/
  | named {v : Option Value} {name : String}
    (read : decode s.toSurroundings true (Field.ofType .textLine) e = .ok v)
    (expected : Field.expectName "vocabulary" v = .ok (some name)) : GivesTerms s e (.named name)
  /-- Terms one by one. -/
  | inline {v : Vocabulary} {m n : Nat} (read : (readVocabulary s e).Yields m n v) :
    GivesTerms s e (.inline v)
  /-- What a dotted name stands for. -/
  | resolved {terms : TermSource} (localName : e.localName = "source")
    (found : resolveTerms s.resolve (dottedName e) = .ok terms) : GivesTerms s e terms

/-- What an element makes of the field `g` that it describes. -/
inductive DescribedBy (s : Scope) (t : FieldType) (e : Element) (g : Field) : Field → Prop
  /-- It holds a text, a truth value or a number. -/
  | simple {spec : AttributeSpec} {v : Option Value} {g' : Field} (mem : spec ∈ simpleSpecs)
    (declared : (standard t).attributes.get? spec.name = some spec)
    (read : decode s.toSurroundings true (attributeField spec.kind) e = .ok v)
    (assigned : g.assign spec.name v = .ok g') : DescribedBy s t e g g'
  /-- It names the schema of objects. -/
  | schema {schema : Schema} (declared : (standard t).attributes.get? "schema" ≠ none)
    (found : s.resolve (dottedName e) = some (.schema schema)) :
    DescribedBy s t e g { g with schema := some (dottedName e) }
  /-- It names a default factory. -/
  | factory {factory : DefaultFactory} :
    DescribedBy s t e g { g with defaultFactory := some factory }
  /-- It holds the field of the keys. -/
  | key {u : FieldType} {k : Field} {m n : Nat}
    (declared : (standard t).attributes.get? "key_type" ≠ none)
    (read : (readField s (standard u) e).Yields m n k) :
    DescribedBy s t e g { g with keyType := some k }
  /-- It holds the field of the items or values. -/
  | item {u : FieldType} {k : Field} {m n : Nat}
    (declared : (standard t).attributes.get? "value_type" ≠ none)
    (read : (readField s (standard u) e).Yields m n k) :
    DescribedBy s t e g { g with valueType := some k }
  /-- It gives the terms of a choice. -/
  | terms {source : TermSource} {g' : Field} (choice : t = .choice)
    (given : GivesTerms s e source) (set : g.setVocabulary source = .ok g') :
    DescribedBy s t e g g'
  /-- It has no name of a vocabulary. -/
  | unnamed (choice : t = .choice) : DescribedBy s t e g g

theorem eq_of_expectText {name : String} {v w : Value} (h : Field.expectText name (some v) = .ok w) :
    w = v := by
  cases v <;> cases h <;> rfl

theorem setVocabulary_ok {g g' : Field} {source : TermSource} (h : g.setVocabulary source = .ok g') :
    g' = { g with vocabulary := some source } := by
  unfold Field.setVocabulary at h
  split at h
  · split at h
    · exact (Except.ok.inj h).symm
    · cases h
  · exact (Except.ok.inj h).symm

/-- Texts, truth values and numbers leave the rest of a description alone. -/
theorem assign_simple {g g' : Field} {spec : AttributeSpec} {v : Option Value}
    (hs : spec ∈ simpleSpecs) (h : g.assign spec.name v = .ok g') :
    g' = { describedAs g g' with
      defaultFactory := g.defaultFactory
      keyType := g.keyType
      valueType := g.valueType
      schema := g.schema
      vocabulary := g.vocabulary } := by
  simp only [simpleSpecs, List.mem_cons, List.not_mem_nil, or_false] at hs
  rcases hs with rfl | rfl | rfl | rfl | rfl | rfl | rfl | rfl | rfl
  all_goals
    obtain ⟨w, -, hw⟩ := exists_of_bind h
    cases hw
    rfl

/-- A description changes nothing but the description. -/
theorem DescribedBy.eq {s : Scope} {t : FieldType} {e : Element} {g g' : Field}
    (h : DescribedBy s t e g g') : g' = describedAs g g' := by
  cases h with
  | simple mem _ _ assigned =>
    rw [assign_simple mem assigned]
    rfl
  | terms _ _ set =>
    rw [setVocabulary_ok set]
    rfl
  | unnamed =>
    cases g
    rfl
  | schema | factory | key | item => rfl

theorem resolveName_ok {resolve : Resolver} {identifier : String} {symbol : Symbol}
    (h : Field.resolveName resolve identifier = .ok symbol) : resolve identifier = some symbol := by
  unfold Field.resolveName at h
  split at h
  · rename_i found
    rw [found, Except.ok.inj h]
  · cases h

section Description

variable {s : Scope} {t : FieldType} {e : Element} {g g' : Field} {spec : AttributeSpec} {m n : Nat}

/-- The codec of a nested field is that of a standard type. -/
theorem nestedCodec_ok {codec : FieldCodec} (hr : s.registry = Registry.standard)
    (h : nestedCodec s spec e = .ok codec) :
    ∃ u : FieldType, e.get? "type" = some u.identifier ∧ codec = standard u := by
  unfold nestedCodec at h
  split at h
  · cases h
  · rename_i type htype
    split at h
    · rename_i found
      rw [hr, Except.ok.inj h] at found
      obtain ⟨u, rfl, rfl⟩ := Registry.of_get?_standard found
      exact ⟨u, htype, rfl⟩
    · cases h

/-- The element of a nested field holds it. -/
theorem describedBy_of_nested (hr : s.registry = Registry.standard) (hs : spec ∈ writtenSpecs)
    (declared : (standard t).attributes.get? spec.name = some spec) (hk : spec.kind = .nestedField)
    (h : (readDescription s g spec e).Yields m n g') : DescribedBy s t e g g' := by
  unfold readDescription at h
  rw [if_pos hk] at h
  obtain ⟨k, codec, hfirst, h⟩ := h.bind
  obtain ⟨rfl, hcodec⟩ := Reading.yields_liftM hfirst
  obtain ⟨u, -, rfl⟩ := nestedCodec_ok hr hcodec
  obtain ⟨l, nested, hnested, h⟩ := h.bind
  obtain ⟨-, hset⟩ := Reading.yields_ofModel h
  have hdeclared : (standard t).attributes.get? spec.name ≠ none := by
    rw [declared]
    exact Option.some_ne_none spec
  rcases FieldCodec.eq_of_nestedField hs hk with rfl | rfl
  · cases hset
    exact .key hdeclared hnested
  · cases hset
    exact .item hdeclared hnested

/-- The element of an attribute with a text, a truth value or a number holds it. -/
theorem describedBy_of_simple (hs : spec ∈ simpleSpecs)
    (declared : (standard t).attributes.get? spec.name = some spec)
    (h : (readDescription s g spec e).Yields m n g') : DescribedBy s t e g g' := by
  have hread : readDescription s g spec e = (do
      let v ← decode s.toSurroundings true (attributeField spec.kind) e
      Reading.ofModel (g.assign spec.name v)) := by
    simp only [simpleSpecs, List.mem_cons, List.not_mem_nil, or_false] at hs
    rcases hs with rfl | rfl | rfl | rfl | rfl | rfl | rfl | rfl | rfl <;> rfl
  rw [hread] at h
  obtain ⟨k, v, hfirst, h⟩ := h.bind
  obtain ⟨rfl, hdecode⟩ := Reading.yields_liftM hfirst
  obtain ⟨-, hassign⟩ := Reading.yields_ofModel h
  exact .simple hs declared hdecode hassign

/-- The element of the schema of objects names it. -/
theorem describedBy_of_schema
    (declared : (standard t).attributes.get? "schema" = some ⟨"schema", .schemaRef, none⟩)
    (h : (readDescription s g ⟨"schema", .schemaRef, none⟩ e).Yields m n g') :
    DescribedBy s t e g g' := by
  have hdeclared : (standard t).attributes.get? "schema" ≠ none := by
    rw [declared]
    exact Option.some_ne_none _
  obtain ⟨k, symbol, hfirst, h⟩ := h.bind
  obtain ⟨rfl, hsymbol⟩ := Reading.yields_liftM hfirst
  cases symbol with
  | schema schema =>
    obtain ⟨-, hassign⟩ := Reading.yields_ofModel h
    cases hassign
    exact .schema hdeclared (resolveName_ok hsymbol)
  | _ => exact absurd h Reading.not_yields_throw

/-- The element of a default factory names it. -/
theorem describedBy_of_factory {default : Option Value}
    (h : (readDescription s g ⟨"defaultFactory", .defaultFactory, default⟩ e).Yields m n g') :
    DescribedBy s t e g g' := by
  obtain ⟨k, symbol, hfirst, h⟩ := h.bind
  cases symbol with
  | defaultFactory factory =>
    obtain ⟨-, rfl⟩ := Reading.yields_pure h
    exact .factory
  | _ => exact absurd h Reading.not_yields_throw

/-- The elements of the terms of a choice give them. -/
theorem describedBy_of_terms (hs : spec ∈ [⟨"vocabulary", .textLine, none⟩,
      ⟨"values", .values, none⟩, ⟨"source", .source, none⟩]) (hname : spec.name = e.localName)
    (h : (readDescription s g spec e).Yields m n g') : DescribedBy s .choice e g g' := by
  simp only [List.mem_cons, List.not_mem_nil, or_false] at hs
  rcases hs with rfl | rfl | rfl
  · obtain ⟨k, v, hfirst, h⟩ := Reading.Yields.bind (x := decode s.toSurroundings true _ e) h
    obtain ⟨rfl, hdecode⟩ := Reading.yields_liftM hfirst
    obtain ⟨-, hassign⟩ := Reading.yields_ofModel h
    obtain ⟨name, hname, hset⟩ := exists_of_bind hassign
    cases name with
    | none =>
      cases hset
      exact .unnamed rfl
    | some name => exact .terms rfl (.named hdecode hname) hset
  · obtain ⟨k, v, hfirst, h⟩ := h.bind
    obtain ⟨-, hset⟩ := Reading.yields_ofModel h
    exact .terms rfl (.inline hfirst) hset
  · obtain ⟨k, terms, hfirst, h⟩ := h.bind
    obtain ⟨rfl, hfound⟩ := Reading.yields_liftM hfirst
    obtain ⟨-, hset⟩ := Reading.yields_ofModel h
    exact .terms rfl (.resolved hname.symm hfound) hset

/-- What reads an attribute that comes first describes the field. -/
theorem describedBy_of_yields (hr : s.registry = Registry.standard)
    (hattribute : attributeOf? (standard t) e = some spec) (hk : spec.kind.isOwnType = false)
    (h : (readDescription s g spec e).Yields m n g') :
    e.isModelElement = true ∧ DescribedBy s t e g g' := by
  unfold attributeOf? at hattribute
  split at hattribute
  · rename_i hreads
    obtain ⟨hmodel, hreads⟩ := Bool.and_eq_true_iff.1 hreads
    refine ⟨hmodel, ?_⟩
    obtain ⟨hname, hwritten | rfl | ⟨rfl, hterms⟩⟩ := FieldCodec.mem_read hattribute hreads
    · rw [← hname] at hattribute
      by_cases hsimple : spec ∈ simpleSpecs
      · exact describedBy_of_simple hsimple hattribute h
      · by_cases hnested : spec.kind = .nestedField
        · exact describedBy_of_nested hr hwritten hattribute hnested h
        · obtain rfl : spec = ⟨"schema", .schemaRef, none⟩ := by
            revert hsimple hnested hk
            simp only [writtenSpecs, List.mem_cons, List.not_mem_nil, or_false] at hwritten
            rcases hwritten with rfl | rfl | rfl | rfl | rfl | rfl | rfl | rfl | rfl | rfl | rfl |
              rfl | rfl | rfl | rfl | rfl <;> simp [simpleSpecs, AttributeKind.isOwnType]
          exact describedBy_of_schema hattribute h
    · exact describedBy_of_factory h
    · exact describedBy_of_terms hterms hname h
  · cases hattribute

end Description

/-! ## All descriptions -/

/-- What elements make of a field one after the other. -/
def DescribedFrom (s : Scope) (t : FieldType) (es : List Element) : Field → Field → Prop :=
  Relation.ReflTransGen fun g g' => ∃ e ∈ es, e.isModelElement = true ∧ DescribedBy s t e g g'

theorem DescribedFrom.mono {s : Scope} {t : FieldType} {es es' : List Element} {g g' : Field}
    (hsub : es ⊆ es') (h : DescribedFrom s t es g g') : DescribedFrom s t es' g g' :=
  Relation.ReflTransGen.mono (fun _ _ ⟨e, he, hd⟩ => ⟨e, hsub he, hd⟩) g g' h

/-- Descriptions change nothing but the description. -/
theorem DescribedFrom.eq {s : Scope} {t : FieldType} {es : List Element} {g g' : Field}
    (h : DescribedFrom s t es g g') : g' = describedAs g g' := by
  induction h with
  | refl =>
    cases g
    rfl
  | tail _ hstep ih =>
    obtain ⟨e, -, -, hd⟩ := hstep
    rw [hd.eq, ih]
    rfl

/-- What comes first is read from elements one after the other. -/
theorem describedFrom_of_yields {s : Scope} {t : FieldType} {es : List Element} {g g' : Field}
    {m n : Nat} (hr : s.registry = Registry.standard)
    (h : (readAttributes s (standard t) g es).Yields m n g') : DescribedFrom s t es g g' := by
  induction es generalizing g m with
  | nil =>
    rw [readAttributes] at h
    obtain ⟨-, rfl⟩ := Reading.yields_pure h
    exact Relation.ReflTransGen.refl
  | cons e es ih =>
    have hskip (h : (readAttributes s (standard t) g es).Yields m n g') :
        DescribedFrom s t (e :: es) g g' := (ih h).mono (List.subset_cons_self e es)
    cases hspec : attributeOf? (standard t) e with
    | none =>
      rw [readAttributes, hspec] at h
      exact hskip h
    | some spec =>
      cases hk : spec.kind.isOwnType with
      | true =>
        rw [readAttributes_cons_own hspec hk] at h
        exact hskip h
      | false =>
        rw [readAttributes_cons_described hspec hk] at h
        obtain ⟨k, f, hfirst, hmore⟩ := h.bind
        have hd := describedBy_of_yields hr hspec hk hfirst.of_within
        exact Relation.ReflTransGen.head ⟨e, .head _, hd⟩
          ((ih hmore).mono (List.subset_cons_self e es))

/-! ## Values of the field itself -/

/-- What the elements inside a field's element give for an attribute with a value of the field `g`
itself. Only missing values need not be valid. -/
inductive ValueRead (s : Scope) (t : FieldType) (es : List Element) (g : Field) (name : String) :
    Option Value → Prop
  /-- No element holds a value. -/
  | absent : ValueRead s t es g name none
  /-- An element holds it. -/
  | read {e : Element} {v : Option Value} (mem : e ∈ es)
    (declared : (standard t).attributes.get? name ≠ none)
    (read : decode s.toSurroundings (name != "missing_value") g e = .ok v) :
    ValueRead s t es g name v

section Values

variable {s : Scope} {t : FieldType} {es : List Element} {g g' : Field} {m n : Nat}

/-- Bounds and defaults have to be valid. -/
theorem ownType_of_declared {name : String} {spec : AttributeSpec} (hn : name ∈ ownTypeAttributes)
    (h : (standard t).attributes.get? name = some spec) :
    (spec.kind == .ownType) = (name != "missing_value") := by
  have hreads : (standard t).reads name = true := by
    refine FieldCodec.reads_of_ne ?_ ?_ ?_ <;> rintro rfl <;> revert hn <;> decide
  obtain ⟨rfl, hwritten | rfl | ⟨rfl, hterms⟩⟩ := FieldCodec.mem_read h hreads
  · have hkinds : ∀ spec ∈ writtenSpecs, spec.name ∈ ownTypeAttributes →
        (spec.kind == .ownType) = (spec.name != "missing_value") := by decide
    exact hkinds spec hwritten hn
  · revert hn
    decide
  · simp only [List.mem_cons, List.not_mem_nil, or_false] at hterms
    rcases hterms with rfl | rfl | rfl <;> revert hn <;> decide

/-- Reading a value of the field itself sets its attribute to it. An attribute without an element
stays unset. -/
theorem exists_valueRead {name : String} (hn : name ∈ ownTypeAttributes)
    (hunset : g.assign name none = .ok g)
    (h : (readOwnType s (standard t) es g name).Yields m n g') :
    ∃ v, ValueRead s t es g name v ∧ g.assign name v = .ok g' := by
  cases hfind : (ownElements (standard t) es).find? (·.localName == name) with
  | none =>
    rw [readOwnType_of_none hfind] at h
    obtain ⟨-, rfl⟩ := Reading.yields_pure h
    exact ⟨none, .absent, hunset⟩
  | some e =>
    rw [readOwnType_of_some hfind] at h
    obtain ⟨k, v, hfirst, h⟩ := h.of_within.bind
    obtain ⟨-, hdecode⟩ := Reading.yields_liftM hfirst
    obtain ⟨-, hassign⟩ := Reading.yields_ofModel h
    obtain ⟨hmem, hown⟩ := List.mem_filter.1 (List.mem_of_find?_eq_some hfind)
    have hlocal : e.localName = name := by simpa using List.find?_some hfind
    cases hspec : (standard t).attributes.get? name with
    | none =>
      rw [attributeOf?, hlocal, hspec] at hown
      simp at hown
    | some spec =>
      rw [hspec, Option.any_some, ownType_of_declared hn hspec] at hdecode
      exact ⟨v, .read hmem (by rw [hspec]; exact Option.some_ne_none spec) hdecode, hassign⟩

end Values

/-! ## Whole fields -/

/-- A field with values of its own. -/
def valued (g : Field) (least greatest default missing : Option Value) : Field :=
  { g with min := least, max := greatest, default := default, missingValue := missing }

/-- Whether a field is what reading the element of a field of type `t` gives, with the number `m`. -/
structure ReadFrom (s : Scope) (t : FieldType) (e : Element) (m : Nat) (g : Field) : Prop where
  /-- It is described by the elements inside. -/
  described : DescribedFrom s t e.children (newField (standard t) ((e.get? "name").getD "") m)
    (valued g none none none none)
  /-- The least value is one of the described field. -/
  min : ValueRead s t e.children (valued g none none none none) "min" g.min
  /-- The greatest value is not below the least. -/
  max : ValueRead s t e.children (valued g g.min none none none) "max" g.max
  /-- The default is within the bounds. -/
  default : ValueRead s t e.children (valued g g.min g.max none none) "default" g.default
  /-- The missing value is read with all the others. -/
  missingValue : ValueRead s t e.children (valued g g.min g.max g.default none) "missing_value"
    g.missingValue
  /-- A choice has terms. -/
  complete : g.type = .choice → g.vocabulary ≠ none

theorem finish_ok {g g' : Field} (h : g.finish = .ok g') :
    g' = g ∧ (g.type = .choice → g.vocabulary ≠ none) := by
  unfold Field.finish at h
  split at h
  · cases h
  · rename_i hterms
    refine ⟨(Except.ok.inj h).symm, fun ht hv => hterms ⟨ht, ?_⟩⟩
    rw [hv]
    rfl

/-- A field takes its number, is described, and takes the values of its own type. -/
theorem exists_described_of_readField {s : Scope} {codec : FieldCodec} {e : Element} {g : Field}
    {m n : Nat} (h : (readField s codec e).Yields m n g) :
    ∃ k f, (readAttributes s codec (newField codec ((e.get? "name").getD "") m) e.children).Yields
        (m + 1) k f ∧
      (ownTypeAttributes.foldlM (readOwnType s codec e.children) f).Yields k n g ∧
      (g.type = .choice → g.vocabulary ≠ none) := by
  rw [readField_eq] at h
  obtain ⟨_, order, hnumber, h⟩ := h.bind
  obtain ⟨rfl, rfl⟩ := Reading.yields_takeNumber hnumber
  obtain ⟨k, f, hdescribe, h⟩ := h.bind
  obtain ⟨_, g', hvalues, h⟩ := h.bind
  obtain ⟨rfl, hfinish⟩ := Reading.yields_ofModel h
  obtain ⟨rfl, hcomplete⟩ := finish_ok hfinish
  exact ⟨k, f, hdescribe, hvalues, hcomplete⟩

/-- A field that was read was described first, and took its own values after that. -/
theorem readFrom_of_yields {s : Scope} {t : FieldType} {e : Element} {g : Field} {m n : Nat}
    (hr : s.registry = Registry.standard) (h : (readField s (standard t) e).Yields m n g) :
    ReadFrom s t e m g := by
  obtain ⟨_, f, hdescribe, hvalues, hcomplete⟩ := exists_described_of_readField h
  have hdescribed := describedFrom_of_yields hr hdescribe
  have hunset : f = valued f none none none none := by
    rw [hdescribed.eq]
    rfl
  simp only [ownTypeAttributes, List.foldlM_cons, List.foldlM_nil, bind_pure] at hvalues
  rw [hunset] at hdescribed hvalues
  clear hunset
  obtain ⟨_, f₁, hmin, hmore⟩ := hvalues.bind
  obtain ⟨_, f₂, hmax, hmore⟩ := hmore.bind
  obtain ⟨_, f₃, hdefault, hmissing⟩ := hmore.bind
  obtain ⟨least, hleast, hset⟩ := exists_valueRead (by decide) rfl hmin
  obtain rfl : valued f least none none none = f₁ := Except.ok.inj hset
  obtain ⟨greatest, hgreatest, hset⟩ := exists_valueRead (by decide) rfl hmax
  obtain rfl : valued f least greatest none none = f₂ := Except.ok.inj hset
  obtain ⟨default, hvalue, hset⟩ := exists_valueRead (by decide) rfl hdefault
  obtain rfl : valued f least greatest default none = f₃ := Except.ok.inj hset
  obtain ⟨missing, hnone, hset⟩ := exists_valueRead (by decide) rfl hmissing
  obtain rfl : valued f least greatest default missing = g := Except.ok.inj hset
  exact ⟨hdescribed, hleast, hgreatest, hvalue, hnone, hcomplete⟩

/-! ## What is read of every field -/

section ReadFrom

variable {s : Scope} {t : FieldType} {e : Element} {g : Field} {m : Nat}

/-- What no element inside a field's element changes. -/
theorem ReadFrom.fixed (h : ReadFrom s t e m g) :
    g.name = (e.get? "name").getD "" ∧ g.type = t ∧ g.typeName = none ∧ g.unique = false ∧
      g.order = m := by
  have heq := h.described.eq
  have htype : g.type = (standard t).type := congrArg Field.type heq
  have htypeName : g.typeName = (newField (standard t) ((e.get? "name").getD "") m).typeName :=
    (congrArg Field.typeName heq :)
  refine ⟨congrArg Field.name heq, htype.trans (FieldCodec.type_standard t), ?_,
    congrArg Field.unique heq, congrArg Field.order heq⟩
  rw [htypeName, newField, FieldCodec.identifier_standard, FieldCodec.type_standard]
  simp

/-- Nested fields are read from elements inside. -/
theorem DescribedFrom.nested {es : List Element} {f : Field} (h : DescribedFrom s t es f g)
    (hkey : f.keyType = none) (hvalue : f.valueType = none) {k : Field}
    (hk : g.keyType = some k ∨ g.valueType = some k) :
    ∃ e ∈ es, ∃ u m n, (readField s (standard u) e).Yields m n k := by
  induction h generalizing k with
  | refl =>
    rw [hkey, hvalue] at hk
    rcases hk with hk | hk <;> cases hk
  | tail _ hstep ih =>
    obtain ⟨e, he, -, hd⟩ := hstep
    cases hd with
    | @key u k' m n _ hread =>
      rcases hk with hk | hk
      · cases hk
        exact ⟨e, he, u, m, n, hread⟩
      · exact ih (.inr hk)
    | @item u k' m n _ hread =>
      rcases hk with hk | hk
      · exact ih (.inl hk)
      · cases hk
        exact ⟨e, he, u, m, n, hread⟩
    | schema | factory | unnamed => exact ih hk
    | terms _ _ set =>
      rw [setVocabulary_ok set] at hk
      exact ih hk
    | simple mem _ _ assigned =>
      rw [assign_simple mem assigned] at hk
      exact ih hk

theorem ReadFrom.nested (h : ReadFrom s t e m g) {k : Field}
    (hk : g.keyType = some k ∨ g.valueType = some k) :
    ∃ c ∈ e.children, ∃ u m n, (readField s (standard u) c).Yields m n k :=
  h.described.nested rfl rfl hk

end ReadFrom

/-- Each field nested in one that was read was read by itself, from an element inside. -/
theorem everywhere_of_yields {s : Scope} {t : FieldType} {e : Element} {g : Field} {m n : Nat}
    (hr : s.registry = Registry.standard) (h : (readField s (standard t) e).Yields m n g) :
    g.Everywhere fun k => ∃ u c i, e.Inside c ∧ ReadFrom s u c i k := by
  have hread := readFrom_of_yields hr h
  -- the induction is on the element, whose children are smaller
  have hnested (k : Field) (hk : g.keyType = some k ∨ g.valueType = some k) :
      k.Everywhere fun k => ∃ u c i, e.Inside c ∧ ReadFrom s u c i k := by
    obtain ⟨c, hc, u, i, j, hyields⟩ := hread.nested hk
    have := Element.sizeOf_child_lt hc
    refine (everywhere_of_yields hr hyields).imp fun k ⟨u, d, i, hd, hk⟩ => ?_
    exact ⟨u, d, i, .trans (.child .self hc) hd, hk⟩
  exact .intro ⟨t, e, m, .self, hread⟩ (fun k hk => hnested k (.inl hk))
    fun k hk => hnested k (.inr hk)
termination_by sizeOf e

end ContentSchema.Document
