import ContentSchema.Value.Order
import ContentSchema.Value.Text
import ContentSchema.Vocabulary.Token

/-!
# Vocabularies

A vocabulary is a list of terms, no two of which share their value or their token.
`Vocabulary.ofTerms` checks this and names the first term that repeats an earlier one.
-/
namespace ContentSchema

/-- The default token of a value: its text, escaped. -/
def tokenFor (v : Value) : String := Token.escape v.shown

/-- One admissible value of a choice. -/
structure Term where
  /-- The value itself. -/
  value : Value
  /-- What stands for the value in forms. -/
  token : String
  /-- The title shown to users. -/
  title : Option Value := none

namespace Term

/-- An untitled term with the default token of its value. -/
def ofValue (v : Value) : Term := ⟨v, tokenFor v, none⟩

/-- Terms are distinct when both their values and their tokens are. -/
def Distinct (a b : Term) : Prop := (a.value == b.value) = false ∧ a.token ≠ b.token

instance (a b : Term) : Decidable (Distinct a b) := inferInstanceAs (Decidable (_ ∧ _))

/-- Equality of all three parts. -/
instance : BEq Term := ⟨fun a b => a.value == b.value && a.token == b.token && a.title == b.title⟩

end Term

/-- An ordered set of terms. -/
structure Vocabulary where
  /-- The terms in order. -/
  terms : List Term
  /-- No two terms share a value or a token. -/
  distinct : terms.Pairwise Term.Distinct

/-- What two terms of a list have in common. -/
inductive Repetition where
  /-- A term repeats the value of an earlier one. -/
  | value (v : Value)
  /-- A term repeats the token of an earlier one. -/
  | token (t : String)

namespace Vocabulary

/-- The first term that repeats an earlier one, and in what; the value is looked at first. -/
def repetition? (earlier : List Term) : List Term → Option Repetition
  | [] => none
  | t :: ts =>
    if earlier.any (·.value == t.value) then some (.value t.value)
    else if earlier.any (·.token == t.token) then some (.token t.token)
    else repetition? (earlier ++ [t]) ts

/-- Terms without a repetition are distinct from each other and from the earlier ones. -/
theorem distinct_of_repetition? {earlier terms : List Term} (h : earlier.Pairwise Term.Distinct)
    (hr : repetition? earlier terms = none) : (earlier ++ terms).Pairwise Term.Distinct := by
  induction terms generalizing earlier with
  | nil => simpa using h
  | cons t ts ih =>
    simp only [repetition?] at hr
    split at hr
    · cases hr
    · split at hr
      · cases hr
      · rename_i hv ht
        have hd : ∀ a ∈ earlier, Term.Distinct a t := by
          intro a ha
          refine ⟨?_, fun he => ht (List.any_eq_true.2 ⟨a, ha, by simp [he]⟩)⟩
          cases hav : a.value == t.value with
          | false => rfl
          | true => exact absurd (List.any_eq_true.2 ⟨a, ha, hav⟩) hv
        have : (earlier ++ [t]).Pairwise Term.Distinct := by
          refine List.pairwise_append.2 ⟨h, List.pairwise_singleton _ _, fun a ha b hb => ?_⟩
          cases List.mem_singleton.1 hb
          exact hd a ha
        have := ih this hr
        rwa [List.append_assoc] at this

/-- The vocabulary of the given terms, or the first repetition among them. -/
def ofTerms (terms : List Term) : Except Repetition Vocabulary :=
  match h : repetition? [] terms with
  | some r => .error r
  | none => .ok ⟨terms, distinct_of_repetition? List.Pairwise.nil h⟩

/-- The vocabulary of untitled terms with the given values. -/
def ofValues (values : List Value) : Except Repetition Vocabulary :=
  ofTerms (values.map Term.ofValue)

/-- The vocabulary of terms with the given values and titles. -/
def ofItems (items : List (Value × Value)) : Except Repetition Vocabulary :=
  ofTerms (items.map fun i => { Term.ofValue i.1 with title := some i.2 })

/-- The term with a value. -/
def findValue? (vocabulary : Vocabulary) (v : Value) : Option Term :=
  vocabulary.terms.find? (·.value == v)

/-- The term with a token. -/
def findToken? (vocabulary : Vocabulary) (token : String) : Option Term :=
  vocabulary.terms.find? (·.token == token)

/-- Whether a value is the value of a term. -/
def contains (vocabulary : Vocabulary) (v : Value) : Bool := (vocabulary.findValue? v).isSome

end Vocabulary

/-- Where a choice takes its terms from. -/
inductive TermSource where
  /-- A vocabulary that is looked up by its name when it is used. -/
  | named (name : String)
  /-- A vocabulary given with the field. -/
  | inline (vocabulary : Vocabulary)
  /-- A programmatic source, known by its dotted name. -/
  | source (identifier : String)

/-- Equality of sources; two inline vocabularies are equal when their terms are. -/
instance : BEq TermSource where
  beq
    | .named a, .named b => a == b
    | .inline a, .inline b => a.terms == b.terms
    | .source a, .source b => a == b
    | _, _ => false

end ContentSchema
