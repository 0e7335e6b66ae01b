import ContentSchema.Proofs.Schema.Merge
import Mathlib.Logic.Relation

/-!
# Hierarchies

The ancestors of a schema are its bases, their bases and so on (`Schema.IsAncestor`). A schema is
made after its bases, so that it is never an ancestor of itself (`Schema.not_isAncestor_self`).

Both ways to make the order of a schema, merging and going through the orders of the bases, keep one
member for each key that they are given (`Linearization.covers_linearize`). So where the name and
the module tell the schemas of a hierarchy apart, the order of a schema lists the whole hierarchy
once (`Schema.covers_resolutionOrder`), whichever way was taken at each schema of it.

Result: what a schema extends, and whose invariants it checks (`Schema.resolutionOrder_hierarchy`).
-/
namespace ContentSchema

namespace Linearization

variable {α κ : Type} {key : α → κ}

/-- Whether an order holds, of some members, one for each key. -/
structure Covers (key : α → κ) (members order : List α) : Prop where
  /-- No key stands twice. -/
  nodup : (order.map key).Nodup
  /-- Nothing but members is in the order. -/
  subset : order ⊆ members
  /-- No key is left out. -/
  keys : members.map key ⊆ order.map key

theorem IsConsistent.covers {sequences : List (List α)} {order : List α}
    (h : IsConsistent key sequences order) : Covers key sequences.flatten order := by
  refine ⟨h.nodup, h.members, fun k hk => ?_⟩
  obtain ⟨x, hx, rfl⟩ := List.mem_map.1 hk
  exact h.mem hx

/-- A member with a new key comes first. -/
theorem Covers.cons {members order : List α} (h : Covers key members order) {x : α}
    (hx : ∀ y ∈ members, key y ≠ key x) : Covers key (x :: members) (x :: order) := by
  refine ⟨List.nodup_cons.2 ⟨fun hmem => ?_, h.nodup⟩, List.cons_subset_cons _ h.subset,
    List.cons_subset_cons _ h.keys⟩
  obtain ⟨y, hy, hkey⟩ := List.mem_map.1 hmem
  exact hx y (h.subset hy) hkey

/-- Where equal keys make members equal, an order that covers members lists just these. -/
theorem Covers.mem_iff {members order : List α} (h : Covers key members order)
    (hkey : ∀ x ∈ members, ∀ y ∈ members, key x = key y → x = y) {x : α} :
    x ∈ order ↔ x ∈ members := by
  refine ⟨fun hx => h.subset hx, fun hx => ?_⟩
  obtain ⟨y, hy, hyx⟩ := List.mem_map.1 (h.keys (List.mem_map_of_mem hx))
  obtain rfl := hkey y (h.subset hy) x hx hyx
  exact hy

variable [DecidableEq κ]

/-- A member is added where its key is new. -/
theorem Covers.addNew {members order : List α} (h : Covers key members order) (x : α) :
    Covers key (members ++ [x]) (if order.any (key · = key x) then order else order ++ [x]) := by
  have hleft := List.subset_append_left members [x]
  split
  · rename_i hseen
    refine ⟨h.nodup, List.Subset.trans h.subset hleft, fun k hk => ?_⟩
    rw [List.map_append] at hk
    rcases List.mem_append.1 hk with hk | hk
    · exact h.keys hk
    · obtain ⟨y, hy, hyx⟩ := List.any_eq_true.1 hseen
      obtain rfl := List.mem_singleton.1 hk
      exact of_decide_eq_true hyx ▸ List.mem_map_of_mem hy
  · rename_i hnew
    have hx : key x ∉ order.map key := by
      intro hmem
      obtain ⟨y, hy, hyx⟩ := List.mem_map.1 hmem
      exact hnew (List.any_eq_true.2 ⟨y, hy, decide_eq_true hyx⟩)
    refine ⟨?_, List.append_subset.2
      ⟨List.Subset.trans h.subset hleft, List.subset_append_right _ _⟩, ?_⟩
    · rw [List.map_append, List.nodup_append_comm]
      exact List.nodup_cons.2 ⟨hx, h.nodup⟩
    · rw [List.map_append, List.map_append]
      exact List.append_subset.2 ⟨List.Subset.trans h.keys (List.subset_append_left _ _),
        List.subset_append_right _ _⟩

theorem covers_appendNew {members found : List α} (h : Covers key members found)
    (sequences : List (List α)) :
    Covers key (members ++ sequences.flatten) (appendNew key found sequences) := by
  unfold appendNew
  generalize sequences.flatten = added
  induction added generalizing members found with
  | nil => rwa [List.append_nil, List.foldl_nil]
  | cons x added ih =>
    rw [List.foldl_cons, List.append_cons]
    exact ih (h.addNew x)

/-- Nothing but the member and those of the orders of its parents follows in its order. -/
theorem linearize_subset {self : α} {parents : List α} {orders : List (List α)}
    (hparents : parents ⊆ orders.flatten) :
    linearize key self parents orders ⊆ self :: orders.flatten := by
  unfold linearize
  split
  · rename_i merged hmerged
    have hmembers := (isConsistent_of_merge hmerged).members
    rw [List.flatten_append, List.flatten_singleton] at hmembers
    exact List.cons_subset_cons _ (List.Subset.trans hmembers
      (List.append_subset.2 ⟨List.Subset.refl _, hparents⟩))
  · have hsingle : Covers key [self] [self] :=
      ⟨List.nodup_singleton _, List.Subset.refl _, List.Subset.refl _⟩
    exact (covers_appendNew hsingle orders).subset

/-- The order of a member holds it and one member for each key of the orders of its parents. -/
theorem covers_linearize {self : α} {parents : List α} {orders : List (List α)}
    (hself : ∀ x ∈ orders.flatten, key x ≠ key self) (hparents : parents ⊆ orders.flatten) :
    Covers key (self :: orders.flatten) (linearize key self parents orders) := by
  unfold linearize
  split
  · rename_i merged hmerged
    have hcovers := (isConsistent_of_merge hmerged).covers
    rw [List.flatten_append, List.flatten_singleton] at hcovers
    have hsubset : merged ⊆ orders.flatten := List.Subset.trans hcovers.subset
      (List.append_subset.2 ⟨List.Subset.refl _, hparents⟩)
    refine Covers.cons ⟨hcovers.nodup, hsubset, fun k hk => hcovers.keys ?_⟩ hself
    rw [List.map_append]
    exact List.mem_append_left _ hk
  · have hsingle : Covers key [self] [self] :=
      ⟨List.nodup_singleton _, List.Subset.refl _, List.Subset.refl _⟩
    exact covers_appendNew hsingle orders

end Linearization

namespace Schema

open Linearization

/-! ## Ancestors -/

/-- Whether a schema is a direct or indirect base of another one. -/
def IsAncestor (t s : Schema) : Prop := Relation.TransGen (fun b c : Schema => b ∈ c.bases) t s

theorem isAncestor_iff {t s : Schema} :
    IsAncestor t s ↔ ∃ b ∈ s.bases, t = b ∨ IsAncestor t b := by
  constructor
  · rintro (hbase | ⟨hancestor, hbase⟩)
    · exact ⟨t, hbase, .inl rfl⟩
    · exact ⟨_, hbase, .inr hancestor⟩
  · rintro ⟨b, hbase, rfl | hancestor⟩
    · exact .single hbase
    · exact .tail hancestor hbase

theorem sizeOf_lt_of_mem_bases {b s : Schema} (h : b ∈ s.bases) : sizeOf b < sizeOf s := by
  have hlt := List.sizeOf_lt_of_mem h
  obtain ⟨name, module, bases, fields, tags, fieldsets, invariants⟩ := s
  simp only [Schema.mk.sizeOf_spec] at hlt ⊢
  omega

/-- An ancestor is smaller. -/
theorem IsAncestor.sizeOf_lt {t s : Schema} (h : IsAncestor t s) : sizeOf t < sizeOf s := by
  induction h with
  | single hbase => exact sizeOf_lt_of_mem_bases hbase
  | tail _ hbase ih => exact Nat.lt_trans ih (sizeOf_lt_of_mem_bases hbase)

/-- No schema is its own ancestor. -/
theorem not_isAncestor_self (s : Schema) : ¬ IsAncestor s s :=
  fun h => Nat.lt_irrefl _ h.sizeOf_lt

/-- Whether a schema belongs to the hierarchy of another one: it is this schema or an ancestor. -/
def IsIn (t s : Schema) : Prop := t = s ∨ IsAncestor t s

theorem IsIn.of_base {t b s : Schema} (h : IsIn t b) (hbase : b ∈ s.bases) : IsIn t s :=
  .inr (isAncestor_iff.2 ⟨b, hbase, h⟩)

/-- Whether the name and the module tell the schemas of a hierarchy apart. -/
def IsKeyed (s : Schema) : Prop := ∀ t u, IsIn t s → IsIn u s → t.key = u.key → t = u

theorem IsKeyed.base {s b : Schema} (h : s.IsKeyed) (hbase : b ∈ s.bases) : b.IsKeyed :=
  fun t u ht hu => h t u (ht.of_base hbase) (hu.of_base hbase)

/-! ## The order of a hierarchy -/

/-- The order of a schema lists nothing but its hierarchy. -/
theorem isIn_of_mem_resolutionOrder {s t : Schema} (h : t ∈ s.resolutionOrder) : IsIn t s := by
  have hparents : s.bases ⊆ (s.bases.map resolutionOrder).flatten := fun b hb =>
    List.mem_flatten.2 ⟨_, List.mem_map_of_mem hb, List.mem_of_mem_head? b.head?_resolutionOrder⟩
  rw [resolutionOrder_eq] at h
  rcases List.mem_cons.1 (linearize_subset hparents h) with rfl | h
  · exact .inl rfl
  · rw [← List.flatMap_def, List.mem_flatMap] at h
    obtain ⟨b, hbase, ht⟩ := h
    exact (isIn_of_mem_resolutionOrder ht).of_base hbase
termination_by sizeOf s
decreasing_by exact sizeOf_lt_of_mem_bases hbase

/-- The order of a schema lists its hierarchy, each schema once. -/
theorem covers_resolutionOrder {s : Schema} (h : s.IsKeyed) :
    (s.resolutionOrder.map key).Nodup ∧ ∀ t, t ∈ s.resolutionOrder ↔ IsIn t s := by
  have hbases : ∀ b ∈ s.bases, ∀ t, t ∈ b.resolutionOrder ↔ IsIn t b :=
    fun b hbase => (covers_resolutionOrder (h.base hbase)).2
  have hmem : ∀ t, t ∈ (s.bases.map resolutionOrder).flatten ↔ IsAncestor t s := by
    intro t
    rw [isAncestor_iff, ← List.flatMap_def, List.mem_flatMap]
    constructor
    · rintro ⟨b, hb, ht⟩
      exact ⟨b, hb, (hbases b hb t).1 ht⟩
    · rintro ⟨b, hb, ht⟩
      exact ⟨b, hb, (hbases b hb t).2 ht⟩
  have hin : ∀ t, t ∈ s :: (s.bases.map resolutionOrder).flatten ↔ IsIn t s := by
    intro t
    rw [List.mem_cons, hmem, IsIn]
  -- an ancestor with the key of the schema would be the schema itself
  have hself : ∀ t ∈ (s.bases.map resolutionOrder).flatten, key t ≠ key s := by
    intro t ht hkey
    have hancestor := (hmem t).1 ht
    obtain rfl := h t s (.inr hancestor) (.inl rfl) hkey
    exact not_isAncestor_self t hancestor
  have hparents : s.bases ⊆ (s.bases.map resolutionOrder).flatten :=
    fun b hb => (hmem b).2 (.single hb)
  have hcovers := covers_linearize hself hparents
  rw [← resolutionOrder_eq] at hcovers
  refine ⟨hcovers.nodup, fun t => ?_⟩
  rw [hcovers.mem_iff fun x hx y hy => h x y ((hin x).1 hx) ((hin y).1 hy), hin]
termination_by sizeOf s
decreasing_by exact sizeOf_lt_of_mem_bases hbase

theorem extends?_iff {s other : Schema} (h : s.IsKeyed) :
    s.extends? other = true ↔ ∃ t, IsIn t s ∧ t.key = other.key := by
  rw [extends?, List.any_eq_true]
  constructor
  · rintro ⟨t, ht, hkey⟩
    exact ⟨t, ((covers_resolutionOrder h).2 t).1 ht, eq_of_beq hkey⟩
  · rintro ⟨t, ht, hkey⟩
    exact ⟨t, ((covers_resolutionOrder h).2 t).2 ht, beq_iff_eq.2 hkey⟩

/-- The invariants of a schema are those of its hierarchy, in whichever order this is listed. -/
theorem perm_invariants {s : Schema} (h : s.IsKeyed) {members : List Schema}
    (hnodup : members.Nodup) (hmembers : ∀ t, t ∈ members ↔ IsIn t s) :
    (s.resolutionOrder.flatMap (·.invariants)).Perm (members.flatMap (·.invariants)) := by
  obtain ⟨horder, hmem⟩ := covers_resolutionOrder h
  have hperm : s.resolutionOrder.Perm members :=
    (List.perm_ext_iff_of_nodup horder.of_map hnodup).2 fun t => by rw [hmem, hmembers]
  exact hperm.flatMap_right _

/-- Where the name and the module tell the schemas of a hierarchy apart, the order of a schema
starts with it and goes on with all its ancestors, each once, and with nothing else. So the schema
extends itself and its ancestors, and the invariants that it runs are those of each of them, once.
-/
theorem resolutionOrder_hierarchy {s : Schema} (h : s.IsKeyed) :
    (∃ ancestors, s.resolutionOrder = s :: ancestors ∧ (s.resolutionOrder.map key).Nodup ∧
      ∀ t, t ∈ ancestors ↔ IsAncestor t s) ∧
    (∀ other, (∀ t, IsIn t s → t.key = other.key → t = other) →
      (s.extends? other = true ↔ other = s ∨ IsAncestor other s)) ∧
    ∀ members : List Schema, members.Nodup → (∀ t, t ∈ members ↔ t = s ∨ IsAncestor t s) →
      ∃ run : List Invariant, run.Perm (members.flatMap (·.invariants)) ∧
        ∀ data, s.failures data = run.filterMap (·.failure? data) := by
  obtain ⟨hnodup, hmem⟩ := covers_resolutionOrder h
  refine ⟨?_, fun other hother => ?_, fun members hmembers hlists => ?_⟩
  · obtain ⟨ancestors, horder⟩ := List.head?_eq_some_iff.1 s.head?_resolutionOrder
    refine ⟨ancestors, horder, hnodup, fun t => ?_⟩
    rw [horder] at hmem hnodup
    obtain ⟨hs, -⟩ := List.nodup_cons.1 hnodup
    constructor
    · intro ht
      rcases (hmem t).1 (.tail _ ht) with rfl | hancestor
      · exact absurd (List.mem_map_of_mem ht) hs
      · exact hancestor
    · intro hancestor
      rcases List.mem_cons.1 ((hmem t).2 (.inr hancestor)) with rfl | ht
      · exact absurd hancestor (not_isAncestor_self t)
      · exact ht
  · rw [extends?_iff h]
    constructor
    · rintro ⟨t, ht, hkey⟩
      exact hother t ht hkey ▸ ht
    · intro hin
      exact ⟨other, hin, rfl⟩
  · exact ⟨_, perm_invariants h hmembers hlists, fun data => rfl⟩

/-- A schema with an invariant. -/
def titled : Schema := { hollow "Titled" with invariants := [.present "tests.titled" "title"] }

/-- A schema that names its base twice, so that its bases have no consistent order. -/
def doubled : Schema := hollow "Doubled" [titled, titled]

/-- A schema whose bases have one, although a base of them has none. -/
def twofold : Schema := hollow "Twofold" [doubled, titled]

theorem isAncestor_twofold {t : Schema} : IsAncestor t twofold ↔ t = doubled ∨ t = titled := by
  have htitled : ∀ u, ¬ IsAncestor u titled := by
    intro u hu
    obtain ⟨b, hb, -⟩ := isAncestor_iff.1 hu
    cases hb
  have hdoubled : ∀ u, IsAncestor u doubled ↔ u = titled := by
    intro u
    rw [isAncestor_iff]
    simp [doubled, hollow, htitled]
  rw [isAncestor_iff]
  simp [twofold, hollow, htitled, hdoubled]

theorem isKeyed_twofold : twofold.IsKeyed := by
  intro t u ht hu hkey
  rw [IsIn, isAncestor_twofold] at ht hu
  have hne : twofold.key ≠ doubled.key ∧ twofold.key ≠ titled.key ∧ doubled.key ≠ titled.key := by
    decide
  rcases ht with rfl | rfl | rfl <;> rcases hu with rfl | rfl | rfl <;> simp_all

theorem resolutionOrder_hierarchy_twofold :
    twofold.IsKeyed ∧ merge key doubled.baseSequences = none ∧
      (∃ ancestors, twofold.resolutionOrder = twofold :: ancestors ∧
        (twofold.resolutionOrder.map key).Nodup ∧ ∀ t, t ∈ ancestors ↔ t = doubled ∨ t = titled) ∧
      twofold.extends? titled = true ∧ twofold.extends? (hollow "Other") = false ∧
      ∀ data, twofold.failures data =
        if data.contains "title" then [] else ["title is required"] := by
  obtain ⟨⟨ancestors, horder, hnodup, hmem⟩, hextends, hrun⟩ :=
    resolutionOrder_hierarchy isKeyed_twofold
  refine ⟨isKeyed_twofold, by cbv, ⟨ancestors, horder, hnodup, fun t => ?_⟩, ?_, ?_, fun data => ?_⟩
  · rw [hmem, isAncestor_twofold]
  · refine (hextends titled fun t ht hkey => ?_).2 (.inr (isAncestor_twofold.2 (.inr rfl)))
    exact isKeyed_twofold t titled ht (.inr (isAncestor_twofold.2 (.inr rfl))) hkey
  · have hother : ∀ t, IsIn t twofold → t.key ≠ (hollow "Other").key := by
      intro t ht
      rw [IsIn, isAncestor_twofold] at ht
      rcases ht with rfl | rfl | rfl <;> decide
    rw [← Bool.not_eq_true, hextends _ fun t ht hkey => absurd hkey (hother t ht)]
    exact fun hin => hother _ hin rfl
  · have hne : twofold ≠ doubled ∧ twofold ≠ titled ∧ doubled ≠ titled := by
      simp [twofold, doubled, titled, hollow]
    obtain ⟨run, hperm, hfailures⟩ := hrun [twofold, doubled, titled] (by simp [hne]) fun t => by
      simp [isAncestor_twofold]
    have hrun : run = [.present "tests.titled" "title"] := List.perm_singleton.1 hperm
    rw [hfailures, hrun]
    cases htitle : data.contains "title" with
    | true => simp [Invariant.present, htitle]
    | false =>
      simp only [List.filterMap_cons, Invariant.present, htitle, List.filterMap_nil]
      rfl

end Schema

end ContentSchema
