import ContentSchema.Proofs.Document.AcceptedField
import ContentSchema.Proofs.Document.Settled
import ContentSchema.Proofs.Document.Wording
import ContentSchema.Proofs.Value.Order

/-!
# Effects of elements on fields

What an element says of a standard field has an effect of one of few kinds on the field (`Effect`,
`Said.exists_effect`). It sets the attribute of its name to something that does not depend on the
field, or it gives the terms of a choice.

Result: the effects of elements with different names may be exchanged (`Effect.comm`). The elements
with terms share one place in the field, which takes other terms only if they are equal. They meet
there in either order if the terms of one equal no others, and only a `source` element can give terms
of which this is not so (`eq_of_beq_source`).
-/
namespace ContentSchema.Document

open ContentSchema.Field (overlay pick unplaced)
open FieldCodec (standard)
open Markup (Element)

/-! ## Equal terms -/

/-- A text or message equals itself only. -/
theorem eq_of_beq_displayed {v w : Value} (hv : v.displayText? ≠ none)
    (h : (v == w) = true ∨ (w == v) = true) : v = w := by
  have hcompare : Value.compare v w = .eq := by
    rcases h with h | h
    · exact beq_iff_eq.1 h
    · rw [Value.compare_swap, show Value.compare w v = .eq from beq_iff_eq.1 h]
      rfl
  have hkind : v.kind = w.kind :=
    kind_eq_of_beq (show (Value.compare v w == .eq) = true by rw [hcompare]; rfl)
  cases v with
  | text a =>
    cases w with
    | text b =>
      rw [Value.compare] at hcompare
      rw [Std.LawfulEqCmp.eq_of_compare hcompare]
    | _ => cases hkind
  | message a =>
    cases w with
    | message b =>
      rw [Value.compare, Message.compare] at hcompare
      obtain ⟨hid, hrest⟩ := Ordering.then_eq_eq.1 hcompare
      obtain ⟨hdefault, hdomain⟩ := Ordering.then_eq_eq.1 hrest
      obtain ⟨id, default, domain⟩ := a
      obtain ⟨id', default', domain'⟩ := b
      cases Std.LawfulEqCmp.eq_of_compare hid
      cases Std.LawfulEqCmp.eq_of_compare hdefault
      cases Std.LawfulEqCmp.eq_of_compare hdomain
      rfl
    | _ => cases hkind
  | _ => exact absurd rfl hv

/-- A term with a text for its value, and a text or message for its title, equals itself only. -/
theorem eq_of_beq_term {t u : Term} (hvalue : t.value.displayText? ≠ none)
    (htitle : ∀ title, t.title = some title → title.displayText? ≠ none)
    (h : (t == u) = true ∨ (u == t) = true) : t = u := by
  obtain ⟨hv, htoken, ht⟩ : ((t.value == u.value) = true ∨ (u.value == t.value) = true) ∧
      t.token = u.token ∧ ((t.title == u.title) = true ∨ (u.title == t.title) = true) := by
    rcases h with h | h
    · obtain ⟨h, ht⟩ := Bool.and_eq_true_iff.1 h
      obtain ⟨hv, htoken⟩ := Bool.and_eq_true_iff.1 h
      exact ⟨.inl hv, beq_iff_eq.1 htoken, .inl ht⟩
    · obtain ⟨h, ht⟩ := Bool.and_eq_true_iff.1 h
      obtain ⟨hv, htoken⟩ := Bool.and_eq_true_iff.1 h
      exact ⟨.inr hv, (beq_iff_eq.1 htoken).symm, .inr ht⟩
  obtain ⟨value, token, title⟩ := t
  obtain ⟨value', token', title'⟩ := u
  cases eq_of_beq_displayed hvalue hv
  cases htoken
  cases title with
  | none =>
    cases title' with
    | none => rfl
    | some w => rcases ht with ht | ht <;> cases ht
  | some v =>
    cases title' with
    | none => rcases ht with ht | ht <;> cases ht
    | some w => rw [eq_of_beq_displayed (htitle v rfl) ht]

/-- Lists of terms that equal themselves only do so too. -/
theorem eq_of_beq_terms {ts us : List Term}
    (hts : ∀ t ∈ ts, ∀ u, (t == u) = true ∨ (u == t) = true → t = u)
    (h : (ts == us) = true ∨ (us == ts) = true) : ts = us := by
  induction ts generalizing us with
  | nil =>
    cases us with
    | nil => rfl
    | cons u us => rcases h with h | h <;> cases h
  | cons t ts ih =>
    cases us with
    | nil => rcases h with h | h <;> cases h
    | cons u us =>
      have hparts : ((t == u) = true ∨ (u == t) = true) ∧ ((ts == us) = true ∨ (us == ts) = true) := by
        rcases h with h | h
        · exact (Bool.and_eq_true_iff.1 h).imp .inl .inl
        · exact (Bool.and_eq_true_iff.1 h).imp .inr .inr
      rw [hts t (.head _) u hparts.1, ih (fun t ht => hts t (.tail _ ht)) hparts.2]

/-- Terms that a document can express equal themselves only. -/
theorem eq_of_beq_source {a b : TermSource} (ha : PlainTerms a)
    (h : (a == b) = true ∨ (b == a) = true) : a = b := by
  cases a with
  | named name =>
    cases b with
    | named other =>
      have hname : (name == other) = true ∨ (other == name) = true := h
      rcases hname with hname | hname <;> rw [beq_iff_eq.1 hname]
    | _ => rcases h with h | h <;> cases h
  | inline v =>
    cases b with
    | inline w =>
      have hterms : v.terms = w.terms := by
        refine eq_of_beq_terms (fun t ht u => ?_) h
        obtain ⟨hvalue, -, htitle⟩ := ha t ht
        refine eq_of_beq_term (fun hnone => hvalue ?_) htitle
        cases hv : t.value with
        | text s => rw [hv] at hnone; cases hnone
        | _ => rfl
      obtain ⟨terms, distinct⟩ := v
      cases hterms
      rfl
    | _ => rcases h with h | h <;> cases h
  | source _ => exact ha.elim

/-! ## Effects -/

/-- What an element with a name does to the field that it describes. -/
inductive Effect : String → (Field → Option Field) → Prop
  /-- It stops reading. -/
  | fails (name : String) : Effect name fun _ => none
  /-- It does nothing. -/
  | keeps (name : String) : Effect name some
  /-- It sets the attribute of its name. -/
  | sets (name : String) (r : Field) : Effect name fun f => some (overlay [name] r f)
  /-- It gives a default factory. -/
  | factory (d : DefaultFactory) :
    Effect "defaultFactory" fun f => some { f with defaultFactory := some d }
  /-- It gives terms, which equal no others unless they come from a source. -/
  | terms {name : String} {source : TermSource} (h : PlainTerms source ∨ name = "source") :
    Effect name fun f => (f.setVocabulary source).toOption

theorem pick_comm {α : Type} {a b : String} (hne : a ≠ b) (name : String) (x y z : α) :
    pick [b] name y (pick [a] name x z) = pick [a] name x (pick [b] name y z) := by
  unfold pick
  by_cases ha : name = a
  · subst ha
    simp [hne]
  · simp [ha]

theorem overlay_comm {a b : String} (hne : a ≠ b) (q r f : Field) :
    overlay [b] r (overlay [a] q f) = overlay [a] q (overlay [b] r f) := by
  simp only [overlay, pick_comm hne]

/-- What leaves the terms of a field alone may be done before or after they are set. -/
theorem toOption_setVocabulary {u : Field → Field}
    (hu : ∀ f terms, u { f with vocabulary := terms } = { u f with vocabulary := terms }) (f : Field)
    (source : TermSource) :
    ((u f).setVocabulary source).toOption = (f.setVocabulary source).toOption.map u := by
  have hsame : u f = { u f with vocabulary := f.vocabulary } := by
    rw [← hu]
    cases f
    rfl
  have hvocabulary : (u f).vocabulary = f.vocabulary := by rw [hsame]
  unfold Field.setVocabulary
  rw [hvocabulary]
  split
  · split
    · exact congrArg some (hu f _).symm
    · rfl
  · exact congrArg some (hu f _).symm

theorem setVocabulary_twice {f : Field} {source other : TermSource} (h : PlainTerms source) :
    (f.setVocabulary source).toOption.bind (fun g => (g.setVocabulary other).toOption) =
      (f.setVocabulary other).toOption.bind fun g => (g.setVocabulary source).toOption := by
  by_cases heq : source = other
  · rw [heq]
  · -- Neither takes the place of the other, so the second one fails in both orders.
    have hne : (source == other) = false := Bool.eq_false_iff.2 fun h' =>
      heq (eq_of_beq_source h (.inl h'))
    have hne' : (other == source) = false := Bool.eq_false_iff.2 fun h' =>
      heq (eq_of_beq_source h (.inr h'))
    have hfails {a b : TermSource} (hab : (a == b) = false) :
        (f.setVocabulary a).toOption.bind (fun g => (g.setVocabulary b).toOption) = none := by
      cases hset : f.setVocabulary a with
      | error e => rfl
      | ok g =>
        rw [setVocabulary_ok hset]
        simp [Except.toOption, Field.setVocabulary, hab]
    rw [hfails hne, hfails hne']

/-- The effects of elements with different names may be exchanged. -/
theorem Effect.comm {a b : String} {act act' : Field → Option Field} (ha : Effect a act)
    (hb : Effect b act') (hne : a ≠ b) (f : Field) : (act f).bind act' = (act' f).bind act := by
  have hterms {u : Field → Field}
      (hu : ∀ f terms, u { f with vocabulary := terms } = { u f with vocabulary := terms })
      (source : TermSource) : ((u f).setVocabulary source).toOption =
        (f.setVocabulary source).toOption.bind fun g => some (u g) := by
    rw [toOption_setVocabulary hu, Option.map_eq_bind]
    rfl
  cases ha with
  | fails => exact (Option.bind_fun_none _).symm
  | keeps => exact (Option.bind_fun_some _).symm
  | sets _ r =>
    cases hb with
    | fails => rfl
    | keeps => rfl
    | sets _ q => exact congrArg some (overlay_comm hne r q f)
    | factory d => rfl
    | terms h => exact hterms (u := overlay [a] r) (fun _ _ => rfl) _
  | factory d =>
    cases hb with
    | fails => rfl
    | keeps => rfl
    | sets _ q => rfl
    | factory d' => exact absurd rfl hne
    | terms h =>
      exact hterms (u := fun g => { g with defaultFactory := some d }) (fun _ _ => rfl) _
  | terms h =>
    cases hb with
    | fails => exact Option.bind_fun_none _
    | keeps => exact Option.bind_fun_some _
    | sets _ q => exact (hterms (u := overlay [b] q) (fun _ _ => rfl) _).symm
    | factory d =>
      exact (hterms (u := fun g => { g with defaultFactory := some d }) (fun _ _ => rfl) _).symm
    | terms h' =>
      -- The names differ, so at most one of the elements takes its terms from a source.
      rcases h with h | rfl
      · exact setVocabulary_twice h
      · exact (setVocabulary_twice (h'.resolve_right hne.symm)).symm

/-- An effect leaves the place of the field alone. -/
theorem Effect.order {name : String} {act : Field → Option Field} (h : Effect name act) {f g : Field}
    (hact : act f = some g) : g.order = f.order := by
  cases h with
  | fails => cases hact
  | keeps | sets | factory =>
    cases hact
    rfl
  | terms =>
    rw [setVocabulary_ok (of_toOption hact)]

theorem unplaced_overlay (names : List String) (r f : Field) :
    (overlay names r f).unplaced = overlay names r.unplaced f.unplaced := by
  rw [Field.unplaced_eq, Field.unplaced_eq r, Field.unplaced_eq f]
  simp only [overlay, Field.map_pick]

/-- An effect is one on fields without places. -/
theorem Effect.exists_unplaced {name : String} {act : Field → Option Field} (h : Effect name act) :
    ∃ act', Effect name act' ∧ ∀ f, (act f).map unplaced = act' f.unplaced := by
  cases h with
  | fails => exact ⟨_, .fails name, fun f => rfl⟩
  | keeps => exact ⟨_, .keeps name, fun f => rfl⟩
  | sets _ r =>
    exact ⟨_, .sets name r.unplaced, fun f => congrArg some (unplaced_overlay [name] r f)⟩
  | factory d =>
    refine ⟨_, .factory d, fun f => congrArg some ?_⟩
    rw [Field.unplaced_eq, Field.unplaced_eq f]
  | terms h =>
    refine ⟨_, .terms h, fun f => (toOption_setVocabulary (fun g terms => ?_) f _).symm⟩
    rw [Field.unplaced_eq, Field.unplaced_eq g]

/-! ## What standard elements say -/

/-- What an element can say of a field for an attribute. -/
inductive Said (s : Scope) (spec : AttributeSpec) (e : Element) : Setting → Prop
  /-- The element holds a nested field. -/
  | nested (hk : spec.kind = .nestedField) (k : Field) : Said s spec e (.nested spec.name k)
  /-- The element holds a value. -/
  | value (hk : spec.kind ∉ [.nestedField, .defaultFactory, .values, .source])
    (v : Option Value) : Said s spec e (.value spec.name v)
  /-- The element names a default factory. -/
  | factory (hk : spec.kind = .defaultFactory) (d : DefaultFactory) : Said s spec e (.factory d)
  /-- The element holds terms one by one. -/
  | inline (hk : spec.kind = .values) {v : Vocabulary} {m n : Nat}
    (read : (readVocabulary s e).Yields m n v) : Said s spec e (.terms (.inline v))
  /-- The element names what gives the terms. -/
  | source (hk : spec.kind = .source) (source : TermSource) : Said s spec e (.terms source)

/-- The attributes that describe standard fields. -/
def describingSpecs : List AttributeSpec :=
  (writtenSpecs.filter fun spec => !spec.kind.isOwnType) ++
    [⟨"defaultFactory", .defaultFactory, none⟩, ⟨"vocabulary", .textLine, none⟩,
      ⟨"values", .values, none⟩, ⟨"source", .source, none⟩]

/-- The attributes that are set to values. -/
def valueNames : List String :=
  simpleSpecs.map (·.name) ++ ["schema"] ++ ownTypeAttributes

section Said

variable {s : Scope} {t : FieldType} {spec : AttributeSpec} {e : Element} {m n : Nat}

theorem said_of_yields {c : Setting} (h : (readSetting s spec e).Yields m n c) : Said s spec e c := by
  unfold readSetting at h
  split at h
  case h_1 hk =>
    obtain ⟨_, codec, -, h⟩ := h.bind
    obtain ⟨_, k, -, h⟩ := h.bind
    obtain ⟨-, rfl⟩ := Reading.yields_pure h
    exact .nested hk k
  case h_2 hk =>
    obtain ⟨_, symbol, -, h⟩ := h.bind
    cases symbol with
    | schema _ =>
      obtain ⟨-, rfl⟩ := Reading.yields_pure h
      exact .value (by rw [hk]; decide) _
    | _ => exact absurd h Reading.not_yields_throw
  case h_3 hk =>
    obtain ⟨_, symbol, -, h⟩ := h.bind
    cases symbol with
    | defaultFactory d =>
      obtain ⟨-, rfl⟩ := Reading.yields_pure h
      exact .factory hk d
    | _ => exact absurd h Reading.not_yields_throw
  case h_4 hk =>
    obtain ⟨_, v, hread, h⟩ := h.bind
    obtain ⟨-, rfl⟩ := Reading.yields_pure h
    exact .inline hk hread
  case h_5 hk =>
    obtain ⟨_, source, -, h⟩ := h.bind
    obtain ⟨-, rfl⟩ := Reading.yields_pure h
    exact .source hk source
  case h_6 hnested _ hfactory hvalues hsource =>
    obtain ⟨_, v, -, h⟩ := h.bind
    obtain ⟨-, rfl⟩ := Reading.yields_pure h
    refine .value ?_ v
    simp only [List.mem_cons, List.not_mem_nil, or_false]
    rintro (hk | hk | hk | hk)
    exacts [hnested hk, hfactory hk, hvalues hk, hsource hk]

/-- The elements that describe standard fields have the names of a fixed list. -/
theorem mem_describingSpecs (h : attributeOf? (standard t) e = some spec)
    (hk : spec.kind.isOwnType = false) : spec.name = e.localName ∧ spec ∈ describingSpecs := by
  obtain ⟨-, hreads, hget⟩ := attributeOf?_eq_some.1 h
  obtain ⟨hname, hspec⟩ := FieldCodec.mem_read hget hreads
  refine ⟨hname, List.mem_append.2 ?_⟩
  rcases hspec with hwritten | rfl | ⟨-, hterms⟩
  · exact .inl (List.mem_filter.2 ⟨hwritten, by rw [hk]; rfl⟩)
  · exact .inr (.head _)
  · exact .inr (.tail _ hterms)

/-- Setting an attribute to a value is the same whatever the field. -/
theorem assign_eq_overlay {name : String} (hn : name ∈ valueNames) (v : Option Value) (f : Field) :
    f.assign name v = ((default : Field).assign name v).map fun r => overlay [name] r f := by
  have hnames : valueNames = ["description", "max_dots", "max_length", "min_dots", "min_length",
      "readonly", "required", "title", "validate_invariants", "schema", "min", "max", "default",
      "missing_value"] := rfl
  simp only [hnames, List.mem_cons, List.not_mem_nil, or_false] at hn
  -- The kind of value decides whether setting fails, and the field has no say in it.
  rcases hn with rfl | rfl | rfl | rfl | rfl | rfl | rfl | rfl | rfl | rfl | rfl | rfl | rfl | rfl <;>
    simp only [Field.assign]
  · cases Field.expectText "description" v <;> rfl
  · cases Field.expectInt "max_dots" v <;> rfl
  · cases Field.expectInt "max_length" v <;> rfl
  · cases Field.expectInt "min_dots" v <;> rfl
  · cases Field.expectInt "min_length" v <;> rfl
  · cases Field.expectBool "readonly" false v <;> rfl
  · cases Field.expectBool "required" true v <;> rfl
  · cases Field.expectText "title" v <;> rfl
  · cases Field.expectBool "validate_invariants" true v <;> rfl
  · cases Field.expectName "schema" v <;> rfl
  all_goals rfl

theorem setNested_eq_overlay {name : String} (hn : name = "key_type" ∨ name = "value_type")
    (k : Option Field) (f : Field) :
    f.setNested name k = ((default : Field).setNested name k).map fun r => overlay [name] r f := by
  rcases hn with rfl | rfl <;> rfl

theorem exists_effect_of_overlay {c : Setting} {name : String} {x : Except ModelError Field}
    (h : ∀ f, c.apply f = x.map fun r => overlay [name] r f) :
    ∃ act, Effect name act ∧ ∀ f, (c.apply f).toOption = act f := by
  cases x with
  | error fault => exact ⟨_, .fails name, fun f => by rw [h f]; rfl⟩
  | ok r => exact ⟨_, .sets name r, fun f => by rw [h f]; rfl⟩

/-- What is said of a standard field has an effect. -/
theorem Said.exists_effect {c : Setting} (h : Said s spec e c) (hname : spec.name = e.localName)
    (hspec : spec ∈ describingSpecs) :
    ∃ act, Effect spec.name act ∧ ∀ f, (c.apply f).toOption = act f := by
  cases h with
  | nested hk k =>
    have hnames : ∀ spec ∈ describingSpecs, spec.kind = .nestedField →
        spec.name = "key_type" ∨ spec.name = "value_type" := by decide
    exact exists_effect_of_overlay (setNested_eq_overlay (hnames spec hspec hk) (some k))
  | value hk v =>
    have hnames : ∀ spec ∈ describingSpecs,
        spec.kind ∉ [.nestedField, .defaultFactory, .values, .source] →
          spec.name ∈ valueNames ∨ spec.name = "vocabulary" := by decide
    rcases hnames spec hspec hk with hname | hname
    · exact exists_effect_of_overlay (assign_eq_overlay hname v)
    · rw [hname]
      cases hexpect : Field.expectName "vocabulary" v with
      | error fault =>
        refine ⟨_, .fails _, fun f => ?_⟩
        simp only [Setting.apply, Field.assign, hexpect]
        rfl
      | ok given =>
        cases given with
        | none =>
          refine ⟨_, .keeps _, fun f => ?_⟩
          simp only [Setting.apply, Field.assign, hexpect]
          rfl
        | some n =>
          have hplain : PlainTerms (.named n) := trivial
          refine ⟨_, .terms (.inl hplain), fun f => ?_⟩
          simp only [Setting.apply, Field.assign, hexpect]
          rfl
  | factory hk d =>
    have hnames : ∀ spec ∈ describingSpecs, spec.kind = .defaultFactory →
        spec.name = "defaultFactory" := by decide
    rw [hnames spec hspec hk]
    exact ⟨_, .factory d, fun f => rfl⟩
  | inline hk read =>
    have hplain : PlainTerms _ ∨ spec.name = "source" :=
      (GivesTerms.inline read).plain.imp_right fun hsource => hname.trans hsource.1
    exact ⟨_, .terms hplain, fun f => rfl⟩
  | source hk source =>
    have hnames : ∀ spec ∈ describingSpecs, spec.kind = .source → spec.name = "source" := by decide
    exact ⟨_, .terms (.inr (hnames spec hspec hk)), fun f => rfl⟩

end Said

end ContentSchema.Document
