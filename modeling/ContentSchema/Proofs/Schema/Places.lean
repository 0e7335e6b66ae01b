import ContentSchema.Proofs.NameMap
import ContentSchema.Schema.Basic
import Mathlib.Data.List.Nodup

/-!
# Fields in their places

The fields of a schema stand in the order of their places, and those with one place in the order of
their names (`Schema.pairwise_fieldsInOrder`). So nothing but its members tells a list of fields that
stand in this order from others (`Field.eq_of_precedes`).
-/
namespace ContentSchema

namespace Field

/-- Whether a field stands before another one: its place is less, or it is the same one and the name
comes first. -/
def Precedes (f g : Field) : Prop := f.order < g.order ∨ f.order = g.order ∧ f.name < g.name

theorem Precedes.asymm {f g : Field} (h : f.Precedes g) : ¬ g.Precedes f := by
  rintro (hlt | ⟨heq, hname⟩)
  · rcases h with h | ⟨h, -⟩ <;> omega
  · rcases h with h | ⟨-, h⟩
    · omega
    · exact String.lt_asymm h hname

theorem Precedes.ne {f g : Field} (h : f.Precedes g) : f ≠ g := by
  rintro rfl
  exact h.asymm h

/-- Fields in the same order are the same if they have the same members. -/
theorem eq_of_precedes {fs gs : List Field} (hf : fs.Pairwise Precedes) (hg : gs.Pairwise Precedes)
    (h : ∀ f, f ∈ fs ↔ f ∈ gs) : fs = gs := by
  have hperm : fs.Perm gs :=
    (List.perm_ext_iff_of_nodup (hf.imp Precedes.ne) (hg.imp Precedes.ne)).2 h
  exact hperm.eq_of_pairwise (fun _ _ _ _ hab hba => absurd hba hab.asymm) hf hg

/-! ## Sorting -/

section Sorting

variable {α : Type} (order : α → Nat) (fields : List α)

theorem pairwise_sortByOrder : (sortByOrder order fields).Pairwise fun a b => order a ≤ order b := by
  have hsorted : (sortByOrder order fields).Pairwise fun a b => decide (order a ≤ order b) = true :=
    List.pairwise_mergeSort
      (fun _ _ _ hab hbc => by simpa using Nat.le_trans (by simpa using hab) (by simpa using hbc))
      (fun _ _ => by simpa using Nat.le_total _ _) fields
  exact hsorted.imp of_decide_eq_true

/-- The fields in one place stay as they are. -/
theorem filter_sortByOrder (place : Nat) :
    (sortByOrder order fields).filter (order · = place) = fields.filter (order · = place) := by
  have hkept : (fields.filter (order · = place)).Sublist (sortByOrder order fields) := by
    refine List.sublist_mergeSort (fun _ _ _ hab hbc => ?_) (fun _ _ => ?_) ?_ List.filter_sublist
    · simpa using Nat.le_trans (by simpa using hab) (by simpa using hbc)
    · simpa using Nat.le_total _ _
    · refine List.pairwise_of_forall_mem_list fun a ha b hb => ?_
      have ha' := List.of_mem_filter ha
      have hb' := List.of_mem_filter hb
      simp_all
  have hsub := hkept.filter (order · = place)
  rw [List.filter_filter] at hsub
  simp only [Bool.and_self] at hsub
  have hperm := (List.mergeSort_perm fields fun a b => decide (order a ≤ order b)).filter
    (order · = place)
  exact (hsub.eq_of_length hperm.length_eq.symm).symm

/-- The order of fields within one place is the one that they had. -/
theorem pairwise_sortByOrder_of_pairwise {R : α → α → Prop} (h : fields.Pairwise R) :
    (sortByOrder order fields).Pairwise fun a b =>
      order a < order b ∨ order a = order b ∧ R a b := by
  have hsorted := pairwise_sortByOrder order fields
  refine List.pairwise_iff_forall_sublist.2 fun {a b} hab => ?_
  rcases Nat.lt_or_eq_of_le (List.pairwise_iff_forall_sublist.1 hsorted hab) with hlt | heq
  · exact .inl hlt
  · have hpair := hab.filter (order · = order b)
    rw [List.filter_eq_self.2 (by simp [heq]), filter_sortByOrder] at hpair
    exact .inr ⟨heq, List.pairwise_iff_forall_sublist.1 (h.filter _) hpair⟩

end Sorting

end Field

/-- The own fields of a schema are those under their names. -/
theorem Schema.get?_of_mem_values {fields : NameMap Field}
    (h : ∀ name f, fields.get? name = some f → f.name = name) {f : Field} (hf : f ∈ fields.values) :
    fields.get? f.name = some f := by
  obtain ⟨⟨name, g⟩, hmem, rfl⟩ := List.mem_map.1 hf
  have hget := (NameMap.mem_entries_iff fields).1 hmem
  rw [h name g hget, hget]

/-- The fields of a schema stand in the order of their places and names. -/
theorem Schema.pairwise_fieldsInOrder {s : Schema}
    (h : ∀ name f, s.fields.get? name = some f → f.name = name) :
    s.fieldsInOrder.Pairwise Field.Precedes := by
  have hnames : s.fields.values.Pairwise fun f g => f.name < g.name := by
    refine List.pairwise_map.2 (s.fields.sorted.imp_of_mem fun {d e} hd he hlt => ?_)
    rwa [h d.1 d.2 ((NameMap.mem_entries_iff _).1 hd), h e.1 e.2 ((NameMap.mem_entries_iff _).1 he)]
  exact Field.pairwise_sortByOrder_of_pairwise (·.order) s.fields.values hnames

end ContentSchema
