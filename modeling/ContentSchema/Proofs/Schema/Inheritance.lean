import ContentSchema.Proofs.NameMap
import ContentSchema.Schema.Inheritance

/-!
# Fields along the resolution order

A schema comes first in its own resolution order, so its own fields hide others (`Schema.get?_own`).
The map of all fields is what looking up one name after the other gives (`Schema.get?_allFields`).
-/
namespace ContentSchema

namespace Linearization

variable {α κ : Type} [DecidableEq κ]

theorem head?_appendNew (key : α → κ) (x : α) (found : List α) (sequences : List (List α)) :
    (appendNew key (x :: found) sequences).head? = some x := by
  unfold appendNew
  generalize sequences.flatten = members
  induction members generalizing found with
  | nil => rfl
  | cons y members ih =>
    rw [List.foldl_cons]
    split
    · exact ih found
    · exact ih (found ++ [y])

theorem head?_linearize (key : α → κ) (self : α) (parents : List α) (orders : List (List α)) :
    (linearize key self parents orders).head? = some self := by
  unfold linearize
  split
  · rfl
  · exact head?_appendNew key self [] orders

end Linearization

namespace Schema

theorem resolutionOrders_eq_map (ss : List Schema) :
    resolutionOrders ss = ss.map resolutionOrder := by
  induction ss with
  | nil => rfl
  | cons s ss ih => rw [resolutionOrders, ih, List.map_cons]

theorem resolutionOrder_eq (s : Schema) :
    s.resolutionOrder =
      Linearization.linearize key s s.bases (s.bases.map resolutionOrder) := by
  cases s
  rw [resolutionOrder, resolutionOrders_eq_map]

theorem head?_resolutionOrder (s : Schema) : s.resolutionOrder.head? = some s := by
  rw [resolutionOrder_eq]
  exact Linearization.head?_linearize _ _ _ _

/-- A schema without bases is alone in its order. -/
theorem resolutionOrder_of_no_bases {s : Schema} (h : s.bases = []) : s.resolutionOrder = [s] := by
  obtain ⟨name, module, bases, fields, tags, fieldsets, invariants⟩ := s
  subst h
  have hmerge : Linearization.merge key ([] ++ [[]]) = some ([] : List Schema) := by
    rw [Linearization.merge]
    rfl
  rw [resolutionOrder, resolutionOrders, Linearization.linearize, hmerge]

/-- A field of the schema's own hides inherited ones. -/
theorem get?_own {s : Schema} {name : String} {f : Field} (h : s.fields.get? name = some f) :
    s.get? name = some f := by
  obtain ⟨ancestors, horder⟩ := List.head?_eq_some_iff.1 s.head?_resolutionOrder
  rw [get?, horder, List.findSome?_cons, h]

/-- The fields of all schemas of the order by name. -/
theorem get?_allFields (s : Schema) (name : String) : s.allFields.get? name = s.get? name := by
  unfold allFields get?
  rw [List.foldl_reverse]
  induction s.resolutionOrder with
  | nil => rfl
  | cons t ts ih =>
    rw [List.foldr_cons, NameMap.get?_foldl_insert _ (NameMap.nodup_keys t.fields), ih,
      List.findSome?_cons]
    change (t.fields.get? name).or _ = _
    cases t.fields.get? name <;> rfl

end Schema

end ContentSchema
