import ContentSchema.Proofs.Field.Conversion
import ContentSchema.Proofs.Field.Validation
import ContentSchema.Proofs.Value.Equality

/-!
# Terms as texts

Each text and each integer has a text. What a choice reads such a text as is decided once for all its
terms, by the first one (`Field.hasIntegerTerms_iff`).

Result: a term of a choice is read from its text again just if it is of the kind of the first term
(`Field.valueOfText_textOfValue_term`), and lies within the bounds of the field, which no choice
declares.
-/
namespace ContentSchema.Field

variable {f : Field} {resolve : Resolver}

theorem valueOfText_eq_ok_iff {text : String} {v : Value} :
    f.valueOfText resolve true text = .ok v ↔
      f.parseText resolve text = .ok v ∧ f.validate v = .ok () := by
  rw [valueOfText]
  cases hparse : f.parseText resolve text with
  | error _ => exact iff_of_false nofun fun h => nomatch h.1
  | ok w =>
    change f.accept true w = .ok v ↔ _
    rw [accept, if_pos rfl, Except.ok.injEq]
    cases hvalid : f.validate w with
    | error _ =>
      refine iff_of_false nofun ?_
      rintro ⟨rfl, h⟩
      cases hvalid.symm.trans h
    | ok _ =>
      rw [Except.ok.injEq]
      refine ⟨?_, And.left⟩
      rintro rfl
      exact ⟨rfl, hvalid⟩

section Choice

variable (ht : f.type = .choice) {vocabulary : Vocabulary}
  (hv : f.vocabulary = some (.inline vocabulary))

include hv in
/-- The first term decides whether the terms are integers. -/
theorem hasIntegerTerms_iff {first : Term} {rest : List Term}
    (hfirst : vocabulary.terms = first :: rest) :
    f.hasIntegerTerms = true ↔ first.value.kind = .int := by
  rw [hasIntegerTerms, hv]
  simp only [hfirst, List.head?_cons, Option.bind_some]
  cases first.value <;> simp [Value.int?, Value.kind]

include ht hv in
/-- Every term is valid, unless it lies beyond a bound. -/
theorem validate_term_iff {t : Term} (hmem : t ∈ vocabulary.terms)
    (hscalar : t.value.isContainer = false) :
    f.validate t.value = .ok () ↔ f.validateBounds t.value = .ok () := by
  have htype : f.validateType t.value = .ok () := by
    rw [validateType, ht, admits, hscalar]
    rfl
  have hlength : f.validateLength t.value = .ok () := by
    rw [validateLength, ht]
    cases t.value.length? <;> rfl
  have htext : f.validateText t.value = .ok () := by
    rw [validateText, ht]
    cases t.value.plainText? <;> rfl
  have hterm : f.validateTerm t.value = .ok () := by
    have hfound : vocabulary.contains t.value = true :=
      List.find?_isSome.2 ⟨t, hmem, Value.beq_iff.2 Std.ReflCmp.compare_self⟩
    simp only [validateTerm, ht, hv, hfound, if_true]
  rw [validate_ok_iff_of_scalar hscalar, validateShallow_ok_iff]
  exact ⟨fun h => h.1.2.1, fun h => ⟨⟨htype, h, hlength, htext⟩, hterm⟩⟩

include ht in
/-- The text of a text or an integer is read as such just if the terms are of this kind. -/
theorem exists_text_of_kind {v : Value} (hkind : v.kind = .text ∨ v.kind = .int)
    (resolve : Resolver) :
    ∃ text, f.textOfValue v = .ok text ∧
      (f.parseText resolve text = .ok v ↔ (f.hasIntegerTerms = true ↔ v.kind = .int)) := by
  have hobject : f.type ≠ .object := by simp [ht]
  cases v with
  | text s =>
    refine ⟨s, textOfValue_of_text? hobject (by simp [Value.kind]) rfl, ?_⟩
    simp only [parseText, ht]
    cases f.hasIntegerTerms with
    | true =>
      rw [if_pos rfl]
      refine iff_of_false (fun h => ?_) (by simp [Value.kind])
      obtain ⟨n, hn⟩ := of_readTrimmed h
      cases hn
    | false => simp [Value.kind]
  | int n =>
    refine ⟨int64Text n, textOfValue_of_text? hobject (by simp [Value.kind]) rfl, ?_⟩
    simp only [parseText, ht]
    cases f.hasIntegerTerms with
    | true =>
      rw [if_pos rfl, readTrimmed_ok f (trim_int64Text n) (readInt64_int64Text n)]
      simp [Value.kind]
    | false => simp [Value.kind]
  | _ => simp [Value.kind] at hkind

include ht hv in
/-- A term has a text, which is read as the term just if the first term is of its kind. -/
theorem valueOfText_textOfValue_term
    (hkinds : ∀ t ∈ vocabulary.terms, t.value.kind = .text ∨ t.value.kind = .int) {t : Term}
    (hmem : t ∈ vocabulary.terms) (resolve : Resolver) :
    ∃ text, f.textOfValue t.value = .ok text ∧
      (f.valueOfText resolve true text = .ok t.value ↔
        (∃ first, vocabulary.terms.head? = some first ∧ first.value.kind = t.value.kind) ∧
          f.validateBounds t.value = .ok ()) := by
  obtain ⟨first, rest, hfirst⟩ := List.exists_cons_of_ne_nil (List.ne_nil_of_mem hmem)
  have hkind := hkinds t hmem
  have hfirstKind := hkinds first (hfirst ▸ .head _)
  have hscalar : t.value.isContainer = false := by
    cases hvalue : t.value <;> rw [hvalue] at hkind <;> first | rfl | simp [Value.kind] at hkind
  have hsame : (f.hasIntegerTerms = true ↔ t.value.kind = .int) ↔
      first.value.kind = t.value.kind := by
    rw [hasIntegerTerms_iff hv hfirst]
    rcases hkind with hkind | hkind <;> rcases hfirstKind with hfirstKind | hfirstKind <;>
      simp [hkind, hfirstKind]
  obtain ⟨text, htext, hparse⟩ := exists_text_of_kind ht hkind resolve
  refine ⟨text, htext, ?_⟩
  rw [valueOfText_eq_ok_iff, hparse, hsame, validate_term_iff ht hv hmem hscalar]
  simp [hfirst]

end Choice

/-- A choice of two numbers. -/
def pages : Field :=
  { Field.ofType .choice with
    vocabulary := some (.inline ⟨[.ofValue (.int 10), .ofValue (.int 20)], by decide⟩) }

theorem valueOfText_textOfValue_term_pages :
    ∃ vocabulary, pages.type = .choice ∧ pages.vocabulary = some (.inline vocabulary) ∧
      (∀ t ∈ vocabulary.terms, t.value.kind = .text ∨ t.value.kind = .int) ∧
      Term.ofValue (.int 20) ∈ vocabulary.terms ∧
      ∃ text, pages.textOfValue (.int 20) = .ok text ∧
        pages.valueOfText (fun _ => none) true text = .ok (.int 20) := by
  let vocabulary : Vocabulary := ⟨[.ofValue (.int 10), .ofValue (.int 20)], by decide⟩
  have hkinds : ∀ t ∈ vocabulary.terms, t.value.kind = .text ∨ t.value.kind = .int := by decide
  have hmem : Term.ofValue (.int 20) ∈ vocabulary.terms := .tail _ (.head _)
  obtain ⟨text, htext, hread⟩ :=
    valueOfText_textOfValue_term (f := pages) rfl rfl hkinds hmem fun _ => none
  exact ⟨vocabulary, rfl, rfl, hkinds, hmem, text, htext, hread.2 ⟨⟨_, rfl, rfl⟩, rfl⟩⟩

/-- A choice of a number and a word. -/
def pagesOrAll : Field :=
  { Field.ofType .choice with
    vocabulary := some (.inline ⟨[.ofValue (.int 10), .ofValue (.text "all")], by decide⟩) }

/-- The word is a valid value and is written as it stands, but is not read. -/
theorem valueOfText_ne_pagesOrAll :
    pagesOrAll.validate (.text "all") = .ok () ∧ pagesOrAll.textOfValue (.text "all") = .ok "all" ∧
      pagesOrAll.valueOfText (fun _ => none) true "all" =
        .error (.invalidValue "zope.schema.Choice" "all" (.integer .invalidDigit)) :=
  ⟨rfl, rfl, rfl⟩

end ContentSchema.Field
