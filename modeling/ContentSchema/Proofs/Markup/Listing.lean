import ContentSchema.Proofs.Markup.Element

/-!
# Document order

`listing` gives the elements of a tree in the order in which their start tags stand in a document.
It has just the elements that stand in the tree (`mem_listing`).
-/
namespace ContentSchema.Document

open Markup (Element)

mutual

/-- An element and those inside it, in document order. -/
def listing : Element → List Element
  | ⟨tag, attributes, children, text, line, namespaces⟩ =>
    ⟨tag, attributes, children, text, line, namespaces⟩ :: listingOf children

/-- Elements and those inside them, one tree after the other. -/
def listingOf : List Element → List Element
  | [] => []
  | e :: es => listing e ++ listingOf es

end

theorem listing_eq (e : Element) : listing e = e :: listingOf e.children := by
  cases e
  rw [listing]

theorem mem_listingOf {es : List Element} {x : Element} :
    x ∈ listingOf es ↔ ∃ e ∈ es, x ∈ listing e := by
  induction es with
  | nil => simp [listingOf]
  | cons e es ih => simp [listingOf, ih]

/-- The listing of a tree has the elements that stand in it. -/
theorem mem_listing {e x : Element} : x ∈ listing e ↔ e.Inside x := by
  rw [listing_eq, List.mem_cons, mem_listingOf, Element.inside_iff]
  refine or_congr_right (exists_congr fun c => and_congr_right fun hc => ?_)
  have := Element.sizeOf_child_lt hc
  exact mem_listing
termination_by sizeOf e

end ContentSchema.Document
