import ContentSchema.Document.FieldWriter
import ContentSchema.Proofs.Document.Content
import ContentSchema.Proofs.Document.Reading
import ContentSchema.Proofs.Lists
import ContentSchema.Proofs.Vocabulary.Basic

/-!
# Terms read back

The terms of a choice are written either as the name of their vocabulary or one by one, with keys if
any of them needs one. `ExpressibleTerms` says which can be written; what is written reads back as
the same terms (`ExpressibleTerms.exists_element`).
-/
namespace ContentSchema.Document

open Markup (Element)

variable {domains : Set String}

/-! ## Terms -/

/-- The text of a term with a text. -/
def plainTerm (t : Term) : String := t.value.plainText?.getD ""

/-- The titles that a term with a text can have: other texts, and messages. -/
def ExpressibleTitle (domains : Set String) (text : String) : Value → Prop
  | .text title => title ≠ text
  | .message m => ProperMessage domains m
  | _ => False

/-- The terms that an element can express: a text with its own token. -/
structure ExpressibleTerm (domains : Set String) (t : Term) : Prop where
  /-- The value is a text. -/
  value : t.value = .text (plainTerm t)
  /-- The token is that of the value. -/
  token : t.token = tokenFor t.value
  /-- The title tells more than the value. -/
  title : ∀ title, t.title = some title → ExpressibleTitle domains (plainTerm t) title

/-- The term that an item of a vocabulary stands for. -/
def readTerm (s : Scope) (keyed : Bool) (e : Element) : Except Fault Term :=
  if keyed then readKeyedTerm s e else .ok (Term.ofValue (.text (e.text.getD "")))

theorem termText_ok (f : Field) {t : Term} (h : ExpressibleTerm domains t) :
    termText f t = .ok (plainTerm t) := by
  have hv := h.value
  have ht := h.token
  unfold termText
  generalize plainTerm t = text at hv
  rw [hv] at ht ⊢
  simp only [bind, Except.bind, ht, BEq.rfl, if_true]
  rfl

theorem tokenFor_text (s : String) : tokenFor (.text s) = Token.escape s := rfl

theorem ExpressibleTerm.ofValue_eq {t : Term} (h : ExpressibleTerm domains t) :
    { Term.ofValue (.text (plainTerm t)) with title := t.title } = t := by
  have hv := h.value
  have htoken := h.token
  generalize plainTerm t = text at hv
  obtain ⟨value, token, title⟩ := t
  simp only at hv htoken
  subst hv htoken
  rfl

/-- A term without a key is its own text. -/
theorem title_eq_none_of_not_needsKey {t : Term} (h : ExpressibleTerm domains t)
    (hk : needsKey t (plainTerm t) = false) : t.title = none := by
  cases ht : t.title with
  | none => rfl
  | some title =>
    have htitle := h.title title ht
    simp only [needsKey, ht, Option.any_some, Bool.or_eq_false_iff, bne_eq_false_iff_eq] at hk
    cases title <;> simp_all [ExpressibleTitle, Value.plainText?]

/-- What stands between the tags of a term with a key. -/
def termContent (t : Term) : Value := t.title.getD (.text (plainTerm t))

theorem expressible_termContent {t : Term} (h : ExpressibleTerm domains t) (resolve : Resolver) :
    Expressible resolve domains false (Field.ofType .text) (termContent t) := by
  unfold termContent
  cases ht : t.title with
  | none => exact .scalar (.text rfl)
  | some title =>
    have htitle := h.title title ht
    cases title <;> simp only [ExpressibleTitle] at htitle
    · exact .scalar (.text rfl)
    · exact .message rfl htitle nofun

/-- A title that repeats the text of its term is none. -/
theorem filter_termContent {t : Term} (h : ExpressibleTerm domains t) :
    (some (termContent t)).filter (fun title => title.plainText? != some (plainTerm t)) =
      t.title := by
  unfold termContent
  cases ht : t.title with
  | none => simp [Option.filter, Value.plainText?]
  | some title =>
    have htitle := h.title title ht
    cases title <;> simp only [ExpressibleTitle] at htitle <;>
      simp [Option.filter, Value.plainText?, htitle]

/-- An expressible term has an element, which reads back as the term. -/
theorem ExpressibleTerm.exists_element {t : Term} (h : ExpressibleTerm domains t) {keyed : Bool}
    (hk : keyed = false → needsKey t (plainTerm t) = false) :
    ∃ e, writeTerm keyed t (plainTerm t) = .ok e ∧ e.tag = itemTag ∧
      (e.get? keyAttribute).isSome = keyed ∧ Regular domains e ∧
      ∀ {s : Scope} {e' : Element}, e'.get? keyAttribute = e.get? keyAttribute →
        SameContent s.domain e e' → readTerm s keyed e' = .ok t := by
  cases keyed with
  | false =>
    refine ⟨{ tag := itemTag, text := some (plainTerm t) }, rfl, rfl, rfl,
      regular_unmarked (by simp) (by simp) allRegular_nil, fun {s e'} _ hsame => ?_⟩
    obtain ⟨-, -, htext, -⟩ := hsame
    have htitle := title_eq_none_of_not_needsKey h (hk rfl)
    have heq := h.ofValue_eq
    rw [title_eq_none_of_not_needsKey h (hk rfl)] at heq
    rw [readTerm, htext rfl]
    exact congrArg Except.ok heq
  | true =>
    obtain ⟨e, he, htag, hrep⟩ :=
      (expressible_termContent h fun _ => none).exists_element (fun hv => nomatch hv) itemTag
    refine ⟨e.set keyAttribute t.token, ?_, htag, ?_, hrep.regular.set_key _,
      fun {s e'} hkey hsame => ?_⟩
    · simp only [writeTerm, if_true, bind, Except.bind, pure, Except.pure]
      rw [show t.title.getD (.text (plainTerm t)) = termContent t by rfl, he]
    · rw [Element.get?_set, if_pos rfl]
      rfl
    · obtain ⟨e', he', -, hrep⟩ :=
        (expressible_termContent h s.resolve).exists_element (fun hv => nomatch hv) itemTag
      cases he.symm.trans he'
      have hunescape : Token.unescape? t.token = some (plainTerm t) := by
        rw [h.token, h.value, tokenFor_text, Token.unescape?_escape]
      rw [Element.get?_set, if_pos rfl] at hkey
      simp only [readTerm, readKeyedTerm, if_true, hkey, hunescape, Option.getD_some,
        hrep.decode rfl (.refl _) hsame.of_set_key, bind, Except.bind, pure, Except.pure]
      rw [filter_termContent h, h.ofValue_eq]

/-! ## The element of the terms -/

theorem modelChildren_of_items {e : Element} (h : ∀ c ∈ e.children, isItem c = true) :
    e.modelChildren itemTag = e.children :=
  List.filter_eq_self.2 h

/-- The elements of terms read back as the terms. -/
theorem exists_termElements {terms : List Term} (h : ∀ t ∈ terms, ExpressibleTerm domains t)
    {keyed : Bool} (hk : keyed = false → ∀ t ∈ terms, needsKey t (plainTerm t) = false) :
    ∃ es, (terms.map fun t => (t, plainTerm t)).mapM (fun t => writeTerm keyed t.1 t.2) = .ok es ∧
      AllRegular domains es ∧ ∀ {s : Scope} {es' : List Element}, SameElements s.domain es es' →
        (∀ e ∈ es', isItem e = true ∧ (e.get? keyAttribute).isSome = keyed) ∧
          List.Forall₂ (fun e t => readTerm s keyed e = .ok t) es' terms := by
  induction terms with
  | nil =>
    refine ⟨[], rfl, allRegular_nil, fun hsame => ?_⟩
    cases hsame
    exact ⟨fun _ he => (nomatch he), .nil⟩
  | cons t ts ih =>
    obtain ⟨es, hes, hregular, hread⟩ := ih (fun u hu => h u (.tail _ hu))
      fun hf u hu => hk hf u (.tail _ hu)
    obtain ⟨e, he, htag, hkey, hregular₁, hread₁⟩ :=
      (h t (.head _)).exists_element fun hf => hk hf t (.head _)
    refine ⟨e :: es, ?_, ?_, fun {s es'} hsame => ?_⟩
    · rw [List.map_cons, List.mapM_cons, he, hes]
      rfl
    · exact allRegular_cons (by rw [htag]; decide) hregular₁ hregular
    · cases hsame with
      | @cons _ e' _ es' model localName attributes content rest =>
        obtain ⟨hitems, hterms⟩ := hread rest
        have hget := attributes keyAttribute keyAttribute_ne_domain
        have hitem' : isItem e' = true := by
          rw [← isItem_of_tag htag, isItem, isItem, model, localName]
        refine ⟨fun c hc => ?_, .cons (hread₁ hget content) hterms⟩
        rcases List.mem_cons.1 hc with rfl | hc
        · exact ⟨hitem', by rw [hget, hkey]⟩
        · exact hitems c hc

theorem any_key_of_items {es : List Element} {keyed : Bool}
    (h : ∀ e ∈ es, (e.get? keyAttribute).isSome = keyed) (hne : keyed = true → es ≠ []) :
    (es.any fun e => (e.get? keyAttribute).isSome) = keyed := by
  cases keyed with
  | false => exact List.any_eq_false.2 fun e he => by simp [h e he]
  | true =>
    obtain ⟨e, es, rfl⟩ := List.exists_cons_of_ne_nil (hne rfl)
    exact List.any_eq_true.2 ⟨e, .head _, h e (.head _)⟩

/-- The vocabulary of expressible terms has an element, which reads back as the vocabulary. -/
theorem exists_vocabularyElement (f : Field) {v : Vocabulary}
    (h : ∀ t ∈ v.terms, ExpressibleTerm domains t) :
    ∃ e, writeVocabulary f v = .ok e ∧ e.tag = "values" ∧
      Regular domains e ∧ ∀ {s : Scope} {e' : Element} (m : Nat), SameContent s.domain e e' →
        Reading.Succeeds (readVocabulary s e') m m v := by
  have hk : (v.terms.any fun t => needsKey t (plainTerm t)) = false →
      ∀ t ∈ v.terms, needsKey t (plainTerm t) = false := fun hf t ht => by
    simpa using List.any_eq_false.1 hf t ht
  obtain ⟨es, hes, hregular, hread⟩ := exists_termElements h hk
  refine ⟨{ tag := "values", children := es }, ?_, rfl,
    regular_unmarked (by simp) (by simp) hregular, fun {s e'} m hsame => ?_⟩
  · rw [writeVocabulary, mapM_of_forall fun t ht => termText_ok f (h t ht)]
    simp only [bind, Except.bind, zip_map_self, List.any_map, pure, Except.pure]
    rw [show ((fun t : Term × String => needsKey t.1 t.2) ∘ fun t => (t, plainTerm t)) =
      fun t => needsKey t (plainTerm t) by rfl, hes]
  · obtain ⟨-, -, -, hchildren⟩ := hsame
    obtain ⟨hitems, hterms⟩ := hread hchildren
    have hkeyed : (e'.children.any fun e => (e.get? keyAttribute).isSome) =
        v.terms.any fun t => needsKey t (plainTerm t) := by
      refine any_key_of_items (fun e he => (hitems e he).2) fun hany hnil => ?_
      rw [hnil] at hterms
      cases hv : v.terms with
      | nil => simp [hv] at hany
      | cons t ts =>
        rw [hv] at hterms
        cases hterms
    unfold readVocabulary
    simp only [modelChildren_of_items fun e he => (hitems e he).1, hkeyed]
    have hread := hterms.imp fun e t het => (Reading.succeeds_ofExcept het m).within e.line
    exact (Reading.succeeds_mapM hread).bind
      (Reading.succeeds_ofModel (by rw [Vocabulary.ofTerms_terms]; rfl) m)

/-! ## The terms of a choice -/

/-- The terms that an element can express: a vocabulary with a name of one line, or expressible
terms. -/
def ExpressibleTerms (domains : Set String) : TermSource → Prop
  | .named name => Field.hasLineBreak (.text name) = false
  | .inline v => ∀ t ∈ v.terms, ExpressibleTerm domains t
  | .source _ => False

/-- Texts and messages are valid for a type that has messages, up to line breaks. -/
theorem validate_ofType {t : FieldType} {v : Value} (ht : admitsMessages t = true)
    (hv : v.kind = .text ∨ v.kind = .message)
    (hl : t.isLine = true → Field.hasLineBreak v = false) :
    (Field.ofType t).validate v = .ok () := by
  have hlength (v : Value) : (Field.ofType t).validateLength v = .ok () := by
    unfold Field.validateLength
    cases v.length? with
    | none => rfl
    | some n =>
      have hn : ¬ (n : Int) < 0 := by omega
      simp [Field.ofType, FieldType.isSized, isTextual_of_admitsMessages ht, hn]
  have hscalar : v.isContainer = false := by
    cases v <;> first | rfl | simp [Value.kind] at hv
  rw [Field.validate_ok_iff_of_scalar hscalar, Field.validateShallow_ok_iff]
  refine ⟨⟨?_, rfl, hlength v, ?_⟩, ?_⟩
  · cases t <;> first
      | exact absurd ht (by decide)
      | cases v <;> first | rfl | simp [Value.kind] at hv
  · have hline : ((Field.ofType t).type.isLine && Field.hasLineBreak v) = false := by
      cases h : t.isLine with
      | false => simp [Field.ofType, h]
      | true => simp [hl h]
    unfold Field.validateText
    rw [hline]
    cases t <;> first
      | exact absurd ht (by decide)
      | cases v <;> rfl
  · cases t <;> first | exact absurd ht (by decide) | rfl

/-- The attribute that holds the terms. -/
def termsSpec : TermSource → AttributeSpec
  | .named _ => ⟨"vocabulary", .textLine, none⟩
  | _ => ⟨"values", .values, none⟩

/-- Expressible terms have an element, which reads back as the terms. -/
theorem ExpressibleTerms.exists_element {f : Field} {source : TermSource}
    (hf : f.vocabulary = some source) (h : ExpressibleTerms domains source) :
    ∃ e, writeTerms f = .ok e ∧ e.tag = (termsSpec source).name ∧
      Regular domains e ∧ ∀ {s : Scope} {g : Field} {e' : Element} (m : Nat), g.vocabulary = none →
        SameContent s.domain e e' → Reading.Succeeds (readAttribute s g (termsSpec source) e') m m
          { g with vocabulary := some source } := by
  have set_vocabulary {g : Field} (hg : g.vocabulary = none) :
      g.setVocabulary source = .ok { g with vocabulary := some source } := by
    rw [Field.setVocabulary, hg]
  unfold writeTerms
  rw [hf]
  cases source with
  | named name =>
    have hexpressible (resolve : Resolver) :
        Expressible resolve domains true (Field.ofType .textLine) (.text name) := .scalar (.text rfl)
    obtain ⟨e, he, htag, hrep⟩ := (hexpressible fun _ => none).exists_element
      (fun _ => validate_ofType rfl (.inl rfl) fun _ => h) "vocabulary"
    refine ⟨e, he, htag, hrep.regular, fun {s g e'} m hg hsame => ?_⟩
    obtain ⟨e', he', -, hrep⟩ := (hexpressible s.resolve).exists_element
      (fun _ => validate_ofType rfl (.inl rfl) fun _ => h) "vocabulary"
    cases he.symm.trans he'
    refine Reading.Succeeds.bind
      (Reading.succeeds_liftM (hrep.decode rfl (.refl _) hsame) m) (Reading.succeeds_ofModel ?_ m)
    simp only [termsSpec, Field.assign, Field.expectName, bind, Except.bind, set_vocabulary hg]
  | inline v =>
    obtain ⟨e, he, htag, hregular, hread⟩ := exists_vocabularyElement f h
    refine ⟨e, he, htag, hregular, fun {s g e'} m hg hsame => ?_⟩
    exact Reading.Succeeds.bind (hread m hsame)
      (Reading.succeeds_ofModel (set_vocabulary hg) m)
  | source identifier => exact h.elim

end ContentSchema.Document
