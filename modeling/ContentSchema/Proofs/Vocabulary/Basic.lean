import ContentSchema.Proofs.Value.Order
import ContentSchema.Proofs.Vocabulary.Token
import ContentSchema.Vocabulary.Basic
import Mathlib.Data.List.Nodup

/-!
# Vocabularies of distinct terms

Terms make up a vocabulary exactly if they are distinct (`Vocabulary.ofTerms_eq_ok_iff`). Texts have
tokens that lose nothing, so that texts make up a vocabulary exactly if none of them is repeated
(`Token.escape_lossless`).
-/
namespace ContentSchema

namespace Vocabulary

theorem repetition?_of_distinct {earlier terms : List Term}
    (h : (earlier ++ terms).Pairwise Term.Distinct) : repetition? earlier terms = none := by
  induction terms generalizing earlier with
  | nil => rfl
  | cons t ts ih =>
    have hd : ∀ a ∈ earlier, Term.Distinct a t := fun a ha =>
      (List.pairwise_append.1 h).2.2 a ha t (.head _)
    have hvalue : earlier.any (·.value == t.value) = false :=
      List.any_eq_false.2 fun a ha => by simp [(hd a ha).1]
    have htoken : earlier.any (·.token == t.token) = false :=
      List.any_eq_false.2 fun a ha => by simp [(hd a ha).2]
    rw [repetition?, hvalue, htoken]
    exact ih (by rwa [List.append_assoc])

/-- The terms of a vocabulary make up a vocabulary, which is the same. -/
theorem ofTerms_terms (v : Vocabulary) : ofTerms v.terms = .ok v := by
  have hr : repetition? [] v.terms = none := repetition?_of_distinct v.distinct
  unfold ofTerms
  split
  · rename_i h
    rw [hr] at h
    cases h
  · rfl

/-- Terms make up a vocabulary exactly if they are distinct, and then it has these terms. -/
theorem ofTerms_eq_ok_iff {terms : List Term} {v : Vocabulary} :
    ofTerms terms = .ok v ↔ v.terms = terms := by
  constructor
  · intro h
    unfold ofTerms at h
    split at h <;> cases h
    rfl
  · rintro rfl
    exact ofTerms_terms v

theorem exists_ofTerms_iff {terms : List Term} :
    (∃ v, ofTerms terms = .ok v) ↔ terms.Pairwise Term.Distinct := by
  simp only [ofTerms_eq_ok_iff]
  exact ⟨fun ⟨v, hv⟩ => hv ▸ v.distinct, fun h => ⟨⟨terms, h⟩, rfl⟩⟩

end Vocabulary

theorem Value.text_beq_text {a b : String} : (Value.text a == Value.text b) = (a == b) := by
  have hcompare : (Value.text a == Value.text b) = true ↔ a = b := by
    change (Value.compare (.text a) (.text b) == .eq) = true ↔ a = b
    rw [beq_iff_eq, Value.compare, Std.LawfulEqCmp.compare_eq_iff_eq]
  rw [Bool.eq_iff_iff, hcompare, beq_iff_eq]

/-- Terms of texts are distinct exactly if the texts are. -/
theorem Term.distinct_ofValue_text {a b : String} :
    (Term.ofValue (.text a)).Distinct (Term.ofValue (.text b)) ↔ a ≠ b := by
  refine ⟨fun h heq => ?_, fun h => ⟨?_, fun htoken => h (Token.escape_injective htoken)⟩⟩
  · exact h.2 (congrArg (fun s => tokenFor (.text s)) heq)
  · exact Value.text_beq_text.trans (beq_eq_false_iff_ne.2 h)

/-- Tokens lose nothing: a token is printable and reads back as its text, and no two texts share one.
Exactly the printable texts without a backslash are their own tokens, and exactly the texts of which
none is repeated make up a vocabulary. -/
theorem Token.escape_lossless :
    (∀ s, (∀ c ∈ (escape s).toList, IsPrintable c) ∧ unescape? (escape s) = some s ∧
      (escape s = s ↔ ∀ c ∈ s.toList, IsPrintable c ∧ c ≠ '\\')) ∧
    Function.Injective escape ∧
    ∀ texts : List String,
      (∃ v, Vocabulary.ofValues (texts.map Value.text) = .ok v) ↔ texts.Nodup := by
  refine ⟨fun s => ⟨fun c => isPrintable_of_mem_escape, unescape?_escape s, escape_eq_self_iff⟩,
    fun _ _ => escape_injective, fun texts => ?_⟩
  rw [Vocabulary.ofValues, Vocabulary.exists_ofTerms_iff, List.map_map, List.pairwise_map]
  simp only [Function.comp_apply, Term.distinct_ofValue_text, List.Nodup]

end ContentSchema
