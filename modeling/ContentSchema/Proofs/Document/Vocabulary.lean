import ContentSchema.Proofs.Document.Attributes
import ContentSchema.Proofs.Document.Terms
import ContentSchema.Proofs.Document.Unsupported

/-!
# Vocabularies read back

A term has an item if its value is a text or an integer and its token is that of the value
(`Term.HasItem`). The item stands for the term with the value's text (`Term.asText`). A vocabulary of
such terms is written and read back as the vocabulary of the texts, and every other one is refused
(`readVocabulary_writeVocabulary`).
-/
namespace ContentSchema

/-! ## Terms as texts -/

/-- The terms that have an item: texts and integers with the tokens of their own. -/
structure Term.HasItem (t : Term) : Prop where
  /-- The value is a text or an integer. -/
  value : t.value.kind = .text ∨ t.value.kind = .int
  /-- The token is that of the value. -/
  token : t.token = tokenFor t.value

/-- The term that the item of a term stands for: its value is a text, and a title that repeats the
text is none. -/
def Term.asText (t : Term) : Term where
  value := .text t.value.shown
  token := t.token
  title := t.title.filter fun title => title.plainText? != some t.value.shown

/-- Terms with items are told apart by their texts, as their tokens are. -/
theorem Term.Distinct.asText {a b : Term} (ha : a.HasItem) (hb : b.HasItem) (h : a.Distinct b) :
    a.asText.Distinct b.asText := by
  refine ⟨?_, h.2⟩
  have hshown : a.value.shown ≠ b.value.shown := fun heq => h.2 <| by
    rw [ha.token, hb.token, tokenFor, tokenFor, heq]
  exact Bool.eq_false_iff.2 fun heq => hshown <|
    Value.text.inj (Option.some.inj (Document.eq_of_beq_text heq))

/-- The vocabulary of the texts of the terms. -/
def Vocabulary.asTexts (v : Vocabulary) (h : ∀ t ∈ v.terms, t.HasItem) : Vocabulary where
  terms := v.terms.map Term.asText
  distinct := List.pairwise_map.2 <| v.distinct.imp_of_mem fun ha hb hd =>
    hd.asText (h _ ha) (h _ hb)

namespace Document

open Markup (Element)

/-! ## What has an item -/

theorem termText_of_hasItem (f : Field) {t : Term} (h : t.HasItem) :
    termText f t = .ok t.value.shown := by
  obtain ⟨value, token, title⟩ := t
  obtain ⟨hvalue, htoken⟩ := h
  dsimp only at hvalue htoken
  subst htoken
  unfold termText
  cases value with
  | text s => simp only [bind, Except.bind, BEq.rfl, if_true]; rfl
  | int n => simp only [bind, Except.bind, BEq.rfl, if_true]; rfl
  | _ => simp [Value.kind] at hvalue

/-- A term without an item is refused for its kind or for its token. -/
theorem termText_of_not_hasItem (f : Field) {t : Term} (h : ¬ t.HasItem) :
    termText f t = .error (.notSupported (.termKind f.name t.value.kind)) ∨
      termText f t = .error (.notSupported (.termToken f.name t.token)) := by
  have htoken (hvalue : t.value.kind = .text ∨ t.value.kind = .int) :
      (t.token == tokenFor t.value) = false := beq_eq_false_iff_ne.2 fun ht => h ⟨hvalue, ht⟩
  unfold termText
  generalize t.value = value at htoken
  cases value with
  | text s => exact .inr (by simp only [htoken (.inl rfl)]; rfl)
  | int n => exact .inr (by simp only [htoken (.inr rfl)]; rfl)
  | _ => exact .inl rfl

/-- A vocabulary of which a term has no item is refused. -/
theorem writeVocabulary_of_not_hasItem (f : Field) {v : Vocabulary}
    (h : ∃ t ∈ v.terms, ¬ t.HasItem) : ∃ t ∈ v.terms, ¬ t.HasItem ∧
      (writeVocabulary f v = .error (.notSupported (.termKind f.name t.value.kind)) ∨
        writeVocabulary f v = .error (.notSupported (.termToken f.name t.token))) := by
  obtain ⟨bad, hbad, hnot⟩ := h
  unfold writeVocabulary
  cases htexts : v.terms.mapM (termText f) with
  | ok texts =>
    obtain ⟨text, -, htext⟩ := exists_of_forall₂_right (forall₂_of_mapM htexts).flip hbad
    rcases termText_of_not_hasItem f hnot with herror | herror <;> cases htext.symm.trans herror
  | error fault =>
    obtain ⟨t, ht, hfault⟩ := exists_error_of_mapM htexts
    have hitem : ¬ t.HasItem := fun hitem => nomatch (termText_of_hasItem f hitem).symm.trans hfault
    refine ⟨t, ht, hitem, ?_⟩
    rcases termText_of_not_hasItem f hitem with hcause | hcause <;> cases hfault.symm.trans hcause
    · exact .inl rfl
    · exact .inr rfl

/-! ## Items of texts -/

theorem expressible_asText {domains : Set String} {t : Term} (h : t.HasItem)
    (htitle : ∀ title, t.title = some title → ExpressibleText domains title) :
    ExpressibleTerm domains t.asText where
  value := rfl
  token := h.token
  title title ht := by
    obtain ⟨ht, hne⟩ := Option.filter_eq_some_iff.1 ht
    have htext := htitle title ht
    cases title with
    | text s => exact fun hs => by simp [hs, Value.plainText?, plainTerm, Term.asText] at hne
    | message m => exact htext
    | _ => exact htext.elim

theorem needsKey_asText (t : Term) :
    needsKey t.asText t.value.shown = needsKey t t.value.shown := by
  simp only [needsKey, Term.asText, Option.any_filter, Bool.and_self]

/-- A title that repeats the text is written as the text. -/
theorem writeTerm_asText (keyed : Bool) (t : Term) :
    writeTerm keyed t.asText t.value.shown = writeTerm keyed t t.value.shown := by
  have htitle : t.asText.title.getD (.text t.value.shown) =
      t.title.getD (.text t.value.shown) := by
    unfold Term.asText
    cases t.title with
    | none => rfl
    | some title =>
      by_cases h : title.plainText? = some t.value.shown
      · cases title <;> simp_all [Value.plainText?, Option.filter]
      · simp [Option.filter, h]
  simp only [writeTerm, htitle]
  rfl

theorem writeVocabulary_asTexts (f : Field) {v : Vocabulary} (h : ∀ t ∈ v.terms, t.HasItem) :
    writeVocabulary f (v.asTexts h) = writeVocabulary f v := by
  have htexts : v.terms.mapM (termText f) = .ok (v.terms.map fun t => t.value.shown) :=
    mapM_of_forall fun t ht => termText_of_hasItem f (h t ht)
  have hasTexts : (v.terms.map Term.asText).mapM (termText f) =
      .ok (v.terms.map fun t => t.value.shown) := by
    rw [List.mapM_map]
    refine mapM_of_forall fun t ht => termText_of_hasItem f (t := t.asText) ⟨.inl rfl, ?_⟩
    exact (h t ht).token
  unfold writeVocabulary
  simp only [Vocabulary.asTexts, htexts, hasTexts, bind, Except.bind, zip_map_self, List.zip_map',
    List.any_map, List.mapM_map, Function.comp_def, needsKey_asText, writeTerm_asText]

/-! ## Keys -/

/-- An item has a key if it is asked for one. -/
theorem get?_key_writeTerm {keyed : Bool} {t : Term} {text : String} {e : Element}
    (h : writeTerm keyed t text = .ok e) : (e.get? keyAttribute).isSome = keyed := by
  unfold writeTerm at h
  split at h
  · rename_i hkeyed
    obtain ⟨e', -, h⟩ := exists_of_bind h
    cases h
    rw [Element.get?_set, if_pos rfl, hkeyed]
    rfl
  · rename_i hkeyed
    cases h
    exact (Bool.eq_false_iff.2 hkeyed).symm

/-- The items have keys if the text of a term differs from its token or a term has a title. -/
theorem keys_writeVocabulary {f : Field} {v : Vocabulary} {e : Element}
    (h : ∀ t ∈ v.terms, t.HasItem) (he : writeVocabulary f v = .ok e) :
    e.children.length = v.terms.length ∧ ∀ c ∈ e.children, ((c.get? keyAttribute).isSome ↔
      ∃ t ∈ v.terms, t.token ≠ t.value.shown ∨ t.asText.title ≠ none) := by
  have htexts : v.terms.mapM (termText f) = .ok (v.terms.map fun t => t.value.shown) :=
    mapM_of_forall fun t ht => termText_of_hasItem f (h t ht)
  unfold writeVocabulary at he
  simp only [htexts, bind, Except.bind, zip_map_self, List.any_map, List.mapM_map] at he
  obtain ⟨cs, hcs, he⟩ := exists_of_bind he
  cases he
  have hrel := forall₂_of_mapM hcs
  refine ⟨hrel.length_eq.symm, fun c hc => ?_⟩
  obtain ⟨t, -, ht⟩ := exists_of_forall₂_right hrel hc
  rw [get?_key_writeTerm ht]
  have hkey (t : Term) : needsKey t t.value.shown = true ↔
      t.token ≠ t.value.shown ∨ t.asText.title ≠ none := by
    rw [needsKey, ← Option.isSome_filter, Bool.or_eq_true, bne_iff_ne, or_comm, Term.asText,
      Option.isSome_iff_ne_none]
  simp only [List.any_eq_true, Function.comp_apply, hkey]

/-! ## Vocabularies -/

/-- A vocabulary of texts and integers with the tokens of their own is read back as the vocabulary
of the texts; its items have keys if the text of a term differs from its token or a term has a title
of its own. Other vocabularies are refused. -/
theorem readVocabulary_writeVocabulary {s : Scope} (hs : s.domain.isSome) (f : Field)
    (v : Vocabulary) :
    ((∀ t ∈ v.terms, t.HasItem) →
      (∀ t ∈ v.terms, ∀ title, t.title = some title → ExpressibleText Set.univ title) →
      ∃ e w, writeVocabulary f v = .ok e ∧ w.terms = v.terms.map Term.asText ∧
        (∀ m, (readVocabulary s e).Succeeds m m w) ∧ e.children.length = v.terms.length ∧
        ∀ c ∈ e.children, ((c.get? keyAttribute).isSome ↔
          ∃ t ∈ v.terms, t.token ≠ t.value.shown ∨ t.asText.title ≠ none)) ∧
    ((∃ t ∈ v.terms, ¬ t.HasItem) → ∃ t ∈ v.terms, ¬ t.HasItem ∧
      (writeVocabulary f v = .error (.notSupported (.termKind f.name t.value.kind)) ∨
        writeVocabulary f v = .error (.notSupported (.termToken f.name t.token)))) := by
  refine ⟨fun hitems htitles => ?_, writeVocabulary_of_not_hasItem f⟩
  obtain ⟨domain, hdomain⟩ := Option.isSome_iff_exists.1 hs
  have hexpressible : ∀ t ∈ (v.asTexts hitems).terms, ExpressibleTerm Set.univ t := fun t ht => by
    obtain ⟨u, hu, rfl⟩ := List.mem_map.1 ht
    exact expressible_asText (hitems u hu) (htitles u hu)
  obtain ⟨e, he, -, hregular, hread⟩ := exists_vocabularyElement f hexpressible
  rw [writeVocabulary_asTexts] at he
  refine ⟨e, v.asTexts hitems, he, rfl, fun m => hread m ?_, keys_writeVocabulary hitems he⟩
  rw [hdomain]
  exact hregular.sameContent domain

/-- A number, a text with a backslash beyond ASCII that has a message for a title, and no text. -/
def sizes : Vocabulary where
  terms := [Term.ofValue (.int 3),
    { Term.ofValue (.text "\\größe") with title := some (.message ⟨"size", some "Size", some "d"⟩) },
    Term.ofValue (.text "")]
  distinct := by decide +kernel

/-- A truth value. -/
def flag : Vocabulary where
  terms := [Term.ofValue (.bool true)]
  distinct := List.pairwise_singleton _ _

theorem readVocabulary_writeVocabulary_sizes :
    ∃ s : Scope, s.domain.isSome ∧ (∀ t ∈ sizes.terms, t.HasItem) ∧
      (∀ t ∈ sizes.terms, ∀ title, t.title = some title → ExpressibleText Set.univ title) ∧
      (∃ t ∈ flag.terms, ¬ t.HasItem) ∧
      (∃ e w, writeVocabulary (Field.ofType .choice) sizes = .ok e ∧
        w.terms = sizes.terms.map Term.asText ∧ (∀ m, (readVocabulary s e).Succeeds m m w) ∧
        e.children.length = sizes.terms.length ∧
        ∀ c ∈ e.children, ((c.get? keyAttribute).isSome ↔
          ∃ t ∈ sizes.terms, t.token ≠ t.value.shown ∨ t.asText.title ≠ none)) ∧
      ∃ t ∈ flag.terms, ¬ t.HasItem ∧
        (writeVocabulary (Field.ofType .choice) flag =
            .error (.notSupported (.termKind (Field.ofType .choice).name t.value.kind)) ∨
          writeVocabulary (Field.ofType .choice) flag =
            .error (.notSupported (.termToken (Field.ofType .choice).name t.token))) := by
  let s : Scope := { resolve := fun _ => none, domain := some "d", registry := .standard }
  have hs : s.domain.isSome = true := rfl
  have hitems : ∀ t ∈ sizes.terms, t.HasItem := by
    simp only [sizes, List.forall_mem_cons]
    exact ⟨⟨.inr rfl, rfl⟩, ⟨.inl rfl, rfl⟩, ⟨.inl rfl, rfl⟩, nofun⟩
  have htitles : ∀ t ∈ sizes.terms, ∀ title, t.title = some title →
      ExpressibleText Set.univ title := by
    simp only [sizes, List.forall_mem_cons]
    refine ⟨nofun, fun title h => ?_, nofun, nofun⟩
    cases h
    exact ⟨by decide, by decide, "d", trivial, rfl⟩
  have hflag : ∃ t ∈ flag.terms, ¬ t.HasItem := by
    refine ⟨_, .head _, fun h => ?_⟩
    rcases h.value with h | h <;> cases h
  exact ⟨s, hs, hitems, htitles, hflag,
    (readVocabulary_writeVocabulary hs _ sizes).1 hitems htitles,
    (readVocabulary_writeVocabulary hs _ flag).2 hflag⟩

end Document
end ContentSchema
