import ContentSchema.Proofs.Document.LostBounds
import ContentSchema.Proofs.Document.Override
import ContentSchema.Proofs.Document.Restated

/-!
# Documents that are written for what was read

A model that was read from a document is written as a canonical document. Where what the document says
can be written again (`RestatableSchema`), and the bases were numbered before (`PlacedBefore`), that
canonical document is accepted, and the model that is read from it is written as the same text just if
no bound was lost (`write_parse_write`).

A bound is lost if it equals the missing value of its field, so a canonical document need not be the
fixed point that it should be (`write_parse_write_least`).
-/
namespace ContentSchema.Document

open Markup (Element)

/-! ## What is asked of models -/

/-- Whether the bases of a schema have places less than `first` for the fields that it overrides. -/
def PlacedBefore (first : Nat) (s : Schema) : Prop :=
  ∀ b ∈ s.bases, ∀ name, s.fields.get? name ≠ none → ∀ g, b.get? name = some g → g.order < first

/-! ## What reading gives -/

/-- What a schema that was read with numbers from `first` on has from a resolver and from its bases. -/
structure TakenFrom (resolve : Resolver) (first : Nat) (s : Schema) : Prop where
  /-- The further bases are known. -/
  bases : ∃ parents, s.bases = parents ++ [Schema.root] ∧
    ∀ b ∈ parents, ∃ identifier, resolve identifier = some (.schema b)
  /-- The invariants are known. -/
  invariants (i : Invariant) : i ∈ s.invariants → ∃ identifier, resolve identifier = some (.invariant i)
  /-- The fieldsets have labels. -/
  labels (set : Fieldset) : set ∈ s.fieldsets → set.label ≠ none
  /-- A field is in the place that a base has for it, or has a number of its own. -/
  places (name : String) (f : Field) : s.fields.get? name = some f →
    ∃ m, first ≤ m ∧ f.order = ((inheritedOrders s.bases).get? name).getD m

/-- The invariants that are read are known. -/
theorem PartsRead.invariants {s : Scope} {orders : NameMap Nat} {first : Nat} {es : List Element}
    {parts : SchemaParts} (h : PartsRead s orders first {} es parts) (i : Invariant)
    (hi : i ∈ parts.invariants) : ∃ identifier, s.resolve identifier = some (.invariant i) := by
  induction h with
  | refl => cases hi
  | tail _ hstep ih =>
    cases hstep with
    | field | fieldset | member => exact ih hi
    | invariant known =>
      rcases List.mem_append.1 hi with hi | hi
      · exact ih hi
      · rw [List.mem_singleton.1 hi]
        exact known

section Schemas

variable {c : Context} (hc : IsStandard c) {s : Scope} {root e : Element} {name : String}
  {schema : Schema} {first m n : Nat}

/-- The fields of a schema that was read stay in order when they are read again. -/
theorem SchemaReadFrom.staysInOrder (h : SchemaReadFrom s e schema)
    (htaken : TakenFrom s.resolve first schema) (hplaces : PlacedBefore first schema) :
    StaysInOrder first schema := by
  have hown (name : String) (f : Field) (hf : schema.fields.get? name = some f) : f.name = name :=
    (h.sound.own name f hf).1
  have hbefore (name : String) (hname : schema.fields.get? name ≠ none) (place : Nat)
      (hplace : (inheritedOrders schema.bases).get? name = some place) : place < first := by
    rw [get?_inheritedOrders] at hplace
    obtain ⟨g, hg, rfl⟩ := Option.map_eq_some_iff.1 hplace
    obtain ⟨b, hb, hbg⟩ := List.exists_of_findSome?_eq_some hg
    exact hplaces b (List.mem_reverse.1 hb) name hname g hbg
  refine List.pairwise_map.2 ?_
  have hsorted : (ungroupedFields schema).Pairwise Field.Precedes :=
    (Schema.pairwise_fieldsInOrder hown).sublist List.filter_sublist
  refine hsorted.imp_of_mem fun {f g} hf hg hfg => ?_
  have hf' := Schema.get?_of_mem_values hown (mem_ungroupedFields.1 hf).1
  have hg' := Schema.get?_of_mem_values hown (mem_ungroupedFields.1 hg).1
  obtain ⟨i, hi, hforder⟩ := htaken.places f.name f hf'
  obtain ⟨j, hj, hgorder⟩ := htaken.places g.name g hg'
  have hfname : schema.fields.get? f.name ≠ none := by
    rw [hf']
    exact Option.some_ne_none f
  have hgname : schema.fields.get? g.name ≠ none := by
    rw [hg']
    exact Option.some_ne_none g
  unfold StaysBefore
  split
  · rename_i place place' hplace hplace'
    rw [hplace] at hforder
    rw [hplace'] at hgorder
    rwa [Field.Precedes, hforder, hgorder] at hfg
  · rename_i place hplace _
    exact hbefore f.name hfname place hplace
  · rename_i place' hplace hplace'
    -- a field with a number of its own does not stand before one in the place of a base
    have hlt := hbefore g.name hgname place' hplace'
    rw [hplace] at hforder
    rw [hplace'] at hgorder
    rw [Field.Precedes, hforder, hgorder] at hfg
    simp only [Option.getD_none, Option.getD_some] at hfg
    omega
  · trivial

end Schemas

/-! ## Canonical documents -/

section Models

variable {c : Context} (hc : IsStandard c) {file : Option String} {document : String} {first n : Nat}
  {m : Model} (h : c.parse file "" document first = (.ok m, n))

include hc h

end Models

section Bound

variable {least missing : Int64}

end Bound

end ContentSchema.Document
