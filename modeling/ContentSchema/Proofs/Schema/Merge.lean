import ContentSchema.Proofs.Schema.Inheritance
import ContentSchema.Proofs.Schema.Linearization
import Mathlib.Data.List.Nodup

/-!
# Consistent orders

An order is consistent with sequences if it holds their members, each once, and keeps the order of
each sequence (`IsConsistent`). What merging gives is consistent (`isConsistent_of_merge`), and it
gives something whenever a consistent order exists (`exists_merge`), although it never looks back.

For, of the members that are left, the one that such an order lists first stands behind no other one
in any sequence, so that it is a free head (`exists_free_head`). Merging may take another head; the
sequences only get shorter by it, and are still kept by the same order.

Result: the order of a schema goes on with an order that is consistent with those of its bases, and
it is depth first only where there is none (`Schema.merge_complete`).
-/
namespace ContentSchema

namespace Linearization

variable {α κ : Type} {key : α → κ}

/-- Whether an order holds the members of sequences, each once, and keeps the order of each
sequence. Members are told apart by their keys. -/
structure IsConsistent (key : α → κ) (sequences : List (List α)) (order : List α) : Prop where
  /-- No key stands twice. -/
  nodup : (order.map key).Nodup
  /-- All members are those of sequences. -/
  members : order ⊆ sequences.flatten
  /-- Each sequence stands in its own order. -/
  keeps : ∀ s ∈ sequences, (s.map key).Sublist (order.map key)

/-- Every key of the sequences is in an order that is consistent with them. -/
theorem IsConsistent.mem {sequences : List (List α)} {order : List α}
    (h : IsConsistent key sequences order) {x : α} (hx : x ∈ sequences.flatten) :
    key x ∈ order.map key := by
  obtain ⟨s, hs, hxs⟩ := List.mem_flatten.1 hx
  exact (h.keeps s hs).subset (List.mem_map_of_mem hxs)

variable [DecidableEq κ]

theorem isFree_iff {sequences : List (List α)} {c : α} :
    isFree key sequences c = true ↔ ∀ s ∈ sequences, ∀ x ∈ s.tail, key x ≠ key c := by
  simp [isFree]

/-! ## Taking a head away -/

theorem dropHead_sublist (c : α) (s : List α) : (dropHead key c s).Sublist s := by
  cases s with
  | nil => exact .slnil
  | cons x xs =>
    rw [dropHead]
    split
    · exact List.sublist_cons_self x xs
    · exact .refl _

/-- The key of a free head is gone once it is taken away. -/
theorem key_ne_of_mem_dropHead {c : α} {s : List α} (hfree : ∀ x ∈ s.tail, key x ≠ key c) :
    ∀ x ∈ dropHead key c s, key x ≠ key c := by
  cases s with
  | nil => exact List.forall_mem_nil _
  | cons y ys =>
    rw [dropHead]
    split
    · exact hfree
    · rename_i hy
      exact List.forall_mem_cons.2 ⟨hy, hfree⟩

/-- A head can be put back in front of an order. -/
theorem sublist_cons_of_dropHead {c : α} {s : List α} {order : List κ}
    (h : ((dropHead key c s).map key).Sublist order) : (s.map key).Sublist (key c :: order) := by
  cases s with
  | nil => exact List.nil_sublist _
  | cons x xs =>
    rw [dropHead] at h
    split at h
    · rename_i hx
      rw [List.map_cons, hx]
      exact h.cons_cons _
    · exact h.cons _

/-! ## What merging gives -/

theorem isConsistent_of_merge {sequences : List (List α)} {merged : List α}
    (h : merge key sequences = some merged) : IsConsistent key sequences merged := by
  fun_induction merge key sequences generalizing merged with
  | case1 sequences hempty =>
    obtain rfl := Option.some.inj h
    refine ⟨List.nodup_nil, List.nil_subset _, fun s hs => ?_⟩
    obtain rfl := List.isEmpty_iff.1 (List.all_eq_true.1 hempty s hs)
    exact List.nil_sublist _
  | case2 => cases h
  | case3 sequences _ c hc ih =>
    obtain ⟨rest, hrest, rfl⟩ := Option.map_eq_some_iff.1 h
    obtain ⟨hnodup, hmembers, hkeeps⟩ := ih hrest
    have hfree := isFree_iff.1 (List.find?_some hc)
    obtain ⟨hcmem, -⟩ := mem_flatten_of_head (List.mem_of_find?_eq_some hc)
    refine ⟨List.nodup_cons.2 ⟨fun hmem => ?_, hnodup⟩,
      List.cons_subset.2 ⟨hcmem, List.Subset.trans hmembers (flatten_dropHeads_subset c sequences)⟩,
      fun s hs => sublist_cons_of_dropHead (hkeeps _ (List.mem_map_of_mem hs))⟩
    obtain ⟨x, hx, hkey⟩ := List.mem_map.1 hmem
    obtain ⟨t, ht, hxt⟩ := List.mem_flatten.1 (hmembers hx)
    obtain ⟨s, hs, rfl⟩ := List.mem_map.1 ht
    exact key_ne_of_mem_dropHead (hfree s hs) x hxt hkey

/-! ## When merging gives something -/

/-- While members are left of sequences that an order keeps, a head is free. -/
theorem exists_free_head {order : List κ} (hnodup : order.Nodup) {sequences : List (List α)}
    (hkeeps : ∀ s ∈ sequences, (s.map key).Sublist order) (hne : ∃ s ∈ sequences, s ≠ []) :
    ∃ c ∈ sequences.filterMap List.head?, isFree key sequences c = true := by
  induction order with
  | nil =>
    obtain ⟨s, hs, hne⟩ := hne
    exact absurd (List.map_eq_nil_iff.1 (List.sublist_nil.1 (hkeeps s hs))) hne
  | cons k order ih =>
    obtain ⟨hk, hnodup⟩ := List.nodup_cons.1 hnodup
    by_cases hhead : ∃ c ∈ sequences.filterMap List.head?, key c = k
    -- the first key of the order is that of a head; it stands behind no head
    · obtain ⟨c, hc, rfl⟩ := hhead
      refine ⟨c, hc, isFree_iff.2 fun s hs x hx hkey => hk ?_⟩
      have htail : (s.tail.map key).Sublist order := by
        rw [List.map_tail]
        exact (hkeeps s hs).tail
      exact htail.subset (hkey ▸ List.mem_map_of_mem hx)
    -- otherwise no sequence holds it, and the rest of the order is enough
    · refine ih hnodup fun s hs => ?_
      rcases List.sublist_cons_iff.1 (hkeeps s hs) with hsub | ⟨ks, hs', -⟩
      · exact hsub
      · obtain ⟨c, cs, rfl, hck, -⟩ := List.map_eq_cons_iff.1 hs'
        exact absurd ⟨c, List.mem_filterMap.2 ⟨c :: cs, hs, rfl⟩, hck⟩ hhead

/-- Sequences that an order keeps have a merged sequence. -/
theorem exists_merge {order : List κ} (hnodup : order.Nodup) {sequences : List (List α)}
    (hkeeps : ∀ s ∈ sequences, (s.map key).Sublist order) :
    ∃ merged, merge key sequences = some merged := by
  fun_induction merge key sequences with
  | case1 => exact ⟨[], rfl⟩
  | case2 sequences hempty hnone =>
    have hne : ∃ s ∈ sequences, s ≠ [] := by simpa using hempty
    obtain ⟨c, hc, hfree⟩ := exists_free_head hnodup hkeeps hne
    exact absurd hfree (List.find?_eq_none.1 hnone c hc)
  | case3 sequences _ c _ ih =>
    obtain ⟨rest, hrest⟩ := ih fun t ht => by
      obtain ⟨s, hs, rfl⟩ := List.mem_map.1 ht
      exact ((dropHead_sublist c s).map key).trans (hkeeps s hs)
    exact ⟨c :: rest, by rw [hrest, Option.map_some]⟩

theorem isSome_merge_iff {sequences : List (List α)} :
    (merge key sequences).isSome = true ↔ ∃ order, IsConsistent key sequences order := by
  constructor
  · intro h
    obtain ⟨merged, hmerged⟩ := Option.isSome_iff_exists.1 h
    exact ⟨merged, isConsistent_of_merge hmerged⟩
  · rintro ⟨order, h⟩
    exact Option.isSome_iff_exists.2 (exists_merge h.nodup h.keeps)

end Linearization

/-! ## Orders of schemas -/

namespace Schema

open Linearization

/-- What the order of a schema is merged from: the orders of its bases, and the list of these. -/
def baseSequences (s : Schema) : List (List Schema) := s.bases.map resolutionOrder ++ [s.bases]

theorem resolutionOrder_of_merge {s : Schema} {merged : List Schema}
    (h : merge key s.baseSequences = some merged) : s.resolutionOrder = s :: merged := by
  rw [baseSequences] at h
  rw [resolutionOrder_eq, linearize, h]

theorem resolutionOrder_of_not_merge {s : Schema} (h : merge key s.baseSequences = none) :
    s.resolutionOrder = appendNew key [s] (s.bases.map resolutionOrder) := by
  rw [baseSequences] at h
  rw [resolutionOrder_eq, linearize, h]

/-- Merging sequences of schemas gives an order just if one is consistent with them, and then such
an order, in which each of their schemas stands once. So a schema is followed by an order that is
consistent with those of its bases, and by the schemas of these orders one after the other only
where there is none. -/
theorem merge_complete :
    (∀ sequences : List (List Schema),
      ((merge key sequences).isSome = true ↔ ∃ order, IsConsistent key sequences order) ∧
        ∀ merged, merge key sequences = some merged →
          IsConsistent key sequences merged ∧
            ∀ t ∈ sequences.flatten, (merged.map key).count t.key = 1) ∧
      ∀ s : Schema,
        (∃ merged, merge key s.baseSequences = some merged ∧ s.resolutionOrder = s :: merged) ∨
          (¬ ∃ order, IsConsistent key s.baseSequences order) ∧
            s.resolutionOrder = appendNew key [s] (s.bases.map resolutionOrder) := by
  refine ⟨fun sequences => ⟨isSome_merge_iff, fun merged hmerged => ?_⟩, fun s => ?_⟩
  · have h := isConsistent_of_merge hmerged
    exact ⟨h, fun t ht => List.count_eq_one_of_mem h.nodup (h.mem ht)⟩
  · cases hmerge : merge key s.baseSequences with
    | some merged => exact .inl ⟨merged, rfl, resolutionOrder_of_merge hmerge⟩
    | none =>
      refine .inr ⟨fun hconsistent => ?_, resolutionOrder_of_not_merge hmerge⟩
      have hsome := isSome_merge_iff.2 hconsistent
      rw [hmerge] at hsome
      cases hsome

/-- A schema with nothing but bases. -/
def hollow (name : String) (bases : List Schema := []) : Schema :=
  { name, module := "tests", bases }

/-- A schema with two bases, which have a base in common. -/
def diamond : Schema :=
  hollow "Bottom" [hollow "Left" [hollow "Top"], hollow "Right" [hollow "Top"]]

theorem merge_complete_diamond :
    ∃ merged, merge key diamond.baseSequences = some merged ∧
      merged.map (·.name) = ["Left", "Right", "Top"] ∧
      (∃ order, IsConsistent key diamond.baseSequences order) ∧
      IsConsistent key diamond.baseSequences merged ∧
      (hollow "Top" ∈ diamond.baseSequences.flatten ∧
        (merged.map key).count (hollow "Top").key = 1) ∧
      diamond.resolutionOrder = diamond :: merged := by
  have hmerge : merge key diamond.baseSequences =
      some [hollow "Left" [hollow "Top"], hollow "Right" [hollow "Top"], hollow "Top"] := by cbv
  have htop : hollow "Top" ∈ diamond.baseSequences.flatten := by
    have hsequences : diamond.baseSequences.flatten = [hollow "Left" [hollow "Top"], hollow "Top",
      hollow "Right" [hollow "Top"], hollow "Top", hollow "Left" [hollow "Top"],
      hollow "Right" [hollow "Top"]] := by cbv
    rw [hsequences]
    exact .tail _ (.head _)
  obtain ⟨hiff, hmerged⟩ := merge_complete.1 diamond.baseSequences
  obtain ⟨hconsistent, hcount⟩ := hmerged _ hmerge
  have hexists := hiff.1 (by rw [hmerge]; rfl)
  refine ⟨_, hmerge, rfl, hexists, hconsistent, ⟨htop, hcount _ htop⟩, ?_⟩
  rcases merge_complete.2 diamond with ⟨merged, h, horder⟩ | ⟨hnone, -⟩
  · rw [hmerge] at h
    cases h
    exact horder
  · exact absurd hexists hnone

end Schema

end ContentSchema
