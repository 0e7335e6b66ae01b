import ContentSchema.Proofs.Schema.Inheritance
import ContentSchema.Proofs.Schema.Linearization

/-!
# Fields that override

A schema without a field of its own under a name inherits what one of its bases knows by that name
(`Schema.get?_of_bases`). Removing fields of its own that override others moves nothing if each of
them stands in the place of the field that is inherited then (`Schema.namesInOrder_eraseFields`).
-/
namespace ContentSchema

namespace Linearization

variable {α κ : Type} [DecidableEq κ] {key : α → κ}

/-- Only the members that have its key count for what follows a member in its order. -/
theorem tail_linearize {x y : α} {orders : List (List α)}
    (h : ∀ z ∈ orders.flatten, key x = key z ↔ key y = key z) (parents : List α) :
    (linearize key x parents orders).tail = (linearize key y parents orders).tail := by
  have happend (found members : List α) (h : ∀ z ∈ members, key x = key z ↔ key y = key z) :
      ∃ more, members.foldl (fun seen z => if seen.any (key · = key z) then seen else seen ++ [z])
          (x :: found) = x :: more ∧
        members.foldl (fun seen z => if seen.any (key · = key z) then seen else seen ++ [z])
          (y :: found) = y :: more := by
    induction members generalizing found with
    | nil => exact ⟨found, rfl, rfl⟩
    | cons z members ih =>
      have ih (found : List α) := ih found fun w hw => h w (.tail _ hw)
      have hseen : ((x :: found).any (key · = key z)) = (y :: found).any (key · = key z) := by
        rw [List.any_cons, List.any_cons, decide_eq_decide.2 (h z (.head _))]
      simp only [List.foldl_cons]
      rw [hseen]
      by_cases hz : ((y :: found).any (key · = key z)) = true
      · rw [if_pos hz, if_pos hz]
        exact ih found
      · rw [if_neg hz, if_neg hz]
        exact ih (found ++ [z])
  unfold linearize
  split
  · rfl
  · obtain ⟨more, hx, hy⟩ := happend [] orders.flatten h
    rw [appendNew, appendNew, hx, hy]
    rfl

end Linearization

namespace Schema

/-- What follows a schema in its order. -/
def inheritanceOrder (s : Schema) : List Schema := s.resolutionOrder.tail

theorem inheritanceOrder_congr {s t : Schema} (hkey : s.key = t.key) (hbases : s.bases = t.bases) :
    s.inheritanceOrder = t.inheritanceOrder := by
  rw [inheritanceOrder, inheritanceOrder, resolutionOrder_eq, resolutionOrder_eq, hbases]
  exact Linearization.tail_linearize (fun t _ => by rw [hkey]) _

/-- A field is one of the schema's own or else the nearest one that it inherits. -/
theorem get?_eq_or (s : Schema) (name : String) :
    s.get? name =
      (s.fields.get? name).or (s.inheritanceOrder.findSome? (·.fields.get? name)) := by
  obtain ⟨ancestors, horder⟩ := List.head?_eq_some_iff.1 s.head?_resolutionOrder
  rw [get?, inheritanceOrder, horder, List.findSome?_cons, List.tail_cons]
  cases s.fields.get? name <;> rfl

/-! ## What bases know -/

/-- Whether the key of a schema tells it from its ancestors, and tells these apart. -/
structure Coherent (s : Schema) : Prop where
  /-- No ancestor has the key of the schema. -/
  own : ∀ b ∈ s.bases, ∀ t ∈ b.resolutionOrder, t.key ≠ s.key
  /-- Ancestors with the same key have the same fields. -/
  ancestors : ∀ b ∈ s.bases, ∀ t ∈ b.resolutionOrder, ∀ c ∈ s.bases, ∀ u ∈ c.resolutionOrder,
    t.key = u.key → t.fields = u.fields

theorem Coherent.congr {s t : Schema} (h : s.Coherent) (hkey : t.key = s.key)
    (hbases : t.bases = s.bases) : t.Coherent := by
  refine ⟨?_, ?_⟩
  · rw [hkey, hbases]
    exact h.own
  · rw [hbases]
    exact h.ancestors

/-- What is inherited under a name is what some base knows by it, and there is something if any base
knows the name. -/
theorem get?_of_bases {s : Schema} (h : s.Coherent) {name : String}
    (hown : s.fields.get? name = none) :
    (∀ f, s.get? name = some f → ∃ b ∈ s.bases, b.get? name = some f) ∧
      (s.get? name = none → ∀ b ∈ s.bases, b.get? name = none) := by
  have hcoherent : Linearization.Coherent key (fun t : Schema => t.fields.get? name)
      (s :: (s.bases.map resolutionOrder).flatten) := by
    have hancestor {t : Schema} (ht : t ∈ (s.bases.map resolutionOrder).flatten) :
        ∃ b ∈ s.bases, t ∈ b.resolutionOrder := by
      obtain ⟨o, ho, ht⟩ := List.mem_flatten.1 ht
      obtain ⟨b, hb, rfl⟩ := List.mem_map.1 ho
      exact ⟨b, hb, ht⟩
    intro t ht u hu hkey
    rcases List.mem_cons.1 ht with rfl | ht <;> rcases List.mem_cons.1 hu with rfl | hu
    · rfl
    · obtain ⟨b, hb, hu⟩ := hancestor hu
      exact absurd hkey.symm (h.own b hb u hu)
    · obtain ⟨b, hb, ht⟩ := hancestor ht
      exact absurd hkey (h.own b hb t ht)
    · obtain ⟨b, hb, ht⟩ := hancestor ht
      obtain ⟨c, hc, hu⟩ := hancestor hu
      exact congrArg (NameMap.get? · name) (h.ancestors b hb t ht c hc u hu hkey)
  have hparents : ∀ b ∈ s.bases, ∃ o ∈ s.bases.map resolutionOrder, o.head? = some b :=
    fun b hb => ⟨b.resolutionOrder, List.mem_map_of_mem hb, b.head?_resolutionOrder⟩
  have hfound := Linearization.findSome?_linearize (by exact hown) hparents hcoherent
  rw [← resolutionOrder_eq] at hfound
  refine ⟨fun f hf => ?_, fun hnone b hb => hfound.2 hnone _ (List.mem_map_of_mem hb)⟩
  obtain ⟨o, ho, hf⟩ := hfound.1 f hf
  obtain ⟨b, hb, rfl⟩ := List.mem_map.1 ho
  exact ⟨b, hb, hf⟩

/-! ## The order of names -/

/-- The names stand in the order of their places. -/
theorem namesInOrder_eq (s : Schema) : s.namesInOrder =
    ((s.allFields.entries.map fun e => (e.1, e.2.order)).mergeSort fun a b => a.2 ≤ b.2).map
      (·.1) := by
  have hsort := List.map_mergeSort (l := s.allFields.entries)
    (f := fun e : String × Field => (e.1, e.2.order)) (r := fun a b => a.2.order ≤ b.2.order)
    (s := fun a b : String × Nat => a.2 ≤ b.2) fun _ _ _ _ => rfl
  rw [← hsort, List.map_map]
  rfl

/-- The order of names depends on nothing but the places of the fields. -/
theorem namesInOrder_congr {s t : Schema}
    (h : ∀ name, (t.get? name).map (·.order) = (s.get? name).map (·.order)) :
    t.namesInOrder = s.namesInOrder := by
  have hall (name : String) :
      (t.allFields.get? name).map (·.order) = (s.allFields.get? name).map (·.order) := by
    rw [get?_allFields, get?_allFields]
    exact h name
  rw [namesInOrder_eq, namesInOrder_eq, NameMap.map_entries_congr hall]

/-- The schema without some fields of its own. -/
def eraseFields (s : Schema) (names : List String) : Schema := names.foldl eraseField s

theorem eraseFields_eq (s : Schema) (names : List String) :
    (s.eraseFields names).key = s.key ∧ (s.eraseFields names).bases = s.bases ∧
      ∀ name, (s.eraseFields names).fields.get? name =
        if name ∈ names then none else s.fields.get? name := by
  induction names generalizing s with
  | nil => exact ⟨rfl, rfl, fun _ => rfl⟩
  | cons n names ih =>
    obtain ⟨hkey, hbases, hfields⟩ := ih (s.eraseField n)
    refine ⟨hkey, hbases, fun name => (hfields name).trans ?_⟩
    rw [eraseField, NameMap.get?_erase]
    by_cases hn : n = name
    · simp [hn]
    · simp [hn, Ne.symm hn]

/-- The schema without any fields of its own: what it inherits. -/
def withoutFields (s : Schema) : Schema := { s with fields := ∅ }

theorem get?_withoutFields (s : Schema) (name : String) :
    s.withoutFields.get? name = s.inheritanceOrder.findSome? (·.fields.get? name) := by
  rw [get?_eq_or, inheritanceOrder_congr (s := s.withoutFields) (t := s) rfl rfl]
  rfl

/-- Something is inherited under each name that a base knows. -/
theorem exists_inherited {s : Schema} (h : s.Coherent) {name : String}
    (hknown : ∃ b ∈ s.bases, b.get? name ≠ none) :
    ∃ g, s.withoutFields.get? name = some g ∧ ∃ b ∈ s.bases, b.get? name = some g := by
  have hcoherent : s.withoutFields.Coherent := h.congr rfl rfl
  have hnone : s.withoutFields.fields.get? name = none := rfl
  have hbases := get?_of_bases hcoherent hnone
  cases hget : s.withoutFields.get? name with
  | none =>
    obtain ⟨b, hb, hsome⟩ := hknown
    exact absurd (hbases.2 hget b hb) hsome
  | some g => exact ⟨g, rfl, hbases.1 g hget⟩

/-- Fields that stand in the places of those that they override may be removed: no name moves. -/
theorem namesInOrder_eraseFields {s : Schema} (h : s.Coherent) {names : List String}
    (hknown : ∀ name ∈ names, ∃ b ∈ s.bases, b.get? name ≠ none)
    (hplaces : ∀ name ∈ names, ∀ f g, s.fields.get? name = some f →
      s.withoutFields.get? name = some g → f.order = g.order) :
    (s.eraseFields names).namesInOrder = s.namesInOrder := by
  obtain ⟨hkey, hbases, hfields⟩ := s.eraseFields_eq names
  refine namesInOrder_congr fun name => ?_
  rw [get?_eq_or, get?_eq_or s, hfields, inheritanceOrder_congr hkey hbases]
  by_cases hn : name ∈ names
  · rw [if_pos hn, Option.none_or]
    cases hown : s.fields.get? name with
    | none => rfl
    | some f =>
      obtain ⟨g, hg, -⟩ := exists_inherited h (hknown name hn)
      have horder := hplaces name hn f g hown hg
      rw [get?_withoutFields] at hg
      rw [hg, Option.some_or, Option.map_some, Option.map_some, horder]
  · rw [if_neg hn]

end Schema

end ContentSchema
