import ContentSchema.Proofs.Schema.Hierarchy

/-!
# Overriding schemas in front

The order of a schema should list each schema of its hierarchy before the ancestors of that schema
(`Schema.IsOrdered`). Then what is looked up along it is never a field that a schema overrides which
extends the one with the field (`Schema.get?_of_isOrdered`).

A merged order lists schemas in this way if those of the bases do, since it keeps them as they are
(`Schema.sublist_resolutionOrder`). An order that goes through the hierarchies of the bases one after
the other does so just if each base is in a hierarchy that came earlier or shares nothing with those
(`Schema.IsSeparated`): what it shares stands too early otherwise.

Result: a schema has its hierarchy in order just if its bases have theirs, and have a consistent
order or are separated (`Schema.isOrdered_iff`).
-/
namespace ContentSchema

namespace Linearization

variable {α κ : Type} [DecidableEq κ] {key : α → κ}

theorem appendNew_cons (found s : List α) (sequences : List (List α)) :
    appendNew key found (s :: sequences) = appendNew key (appendNew key found [s]) sequences := by
  rw [appendNew, appendNew, appendNew, List.flatten_cons, List.foldl_append, List.flatten_singleton]

/-- Members with new keys are added as they are. -/
theorem appendNew_of_new {found more : List α} (hnodup : (more.map key).Nodup)
    (hnew : ∀ x ∈ more, key x ∉ found.map key) : appendNew key found [more] = found ++ more := by
  rw [appendNew, List.flatten_singleton]
  induction more generalizing found with
  | nil => simp
  | cons x more ih =>
    obtain ⟨hx, hnodup⟩ := List.nodup_cons.1 hnodup
    have hunseen : ¬ found.any (key · = key x) = true := by
      intro hseen
      obtain ⟨y, hy, hkey⟩ := List.any_eq_true.1 hseen
      exact hnew x (.head _) (of_decide_eq_true hkey ▸ List.mem_map_of_mem hy)
    rw [List.foldl_cons, if_neg hunseen, ih hnodup, List.append_assoc, List.singleton_append]
    intro y hy hmem
    rw [List.map_append, List.mem_append, List.map_singleton, List.mem_singleton] at hmem
    rcases hmem with hmem | hkey
    · exact hnew y (.tail _ hy) hmem
    · exact hx (hkey ▸ List.mem_map_of_mem hy)

end Linearization

/-- Lists are sublists where their keys are, if no others have these keys. -/
theorem sublist_of_map_sublist {α κ : Type} {key : α → κ} {l m : List α}
    (hkey : ∀ x ∈ l, ∀ y ∈ m, key x = key y → x = y) (h : (l.map key).Sublist (m.map key)) :
    l.Sublist m := by
  induction m generalizing l with
  | nil =>
    rw [List.map_nil, List.sublist_nil, List.map_eq_nil_iff] at h
    rw [h]
  | cons y m ih =>
    rw [List.map_cons, List.sublist_cons_iff] at h
    rcases h with h | ⟨ks, hl, h⟩
    · exact (ih (fun x hx z hz => hkey x hx z (.tail _ hz)) h).cons _
    · obtain ⟨x, xs, rfl, hx, rfl⟩ := List.map_eq_cons_iff.1 hl
      obtain rfl := hkey x (.head _) y (.head _) hx
      exact (ih (fun w hw z hz => hkey w (.tail _ hw) z (.tail _ hz)) h).cons_cons _

/-- Of two members, one stands in front of the other. -/
theorem sublist_pair {α : Type} {l : List α} {a b : α} (ha : a ∈ l) (hb : b ∈ l) (hne : a ≠ b) :
    [a, b].Sublist l ∨ [b, a].Sublist l := by
  induction l with
  | nil => cases ha
  | cons x l ih =>
    rcases List.mem_cons.1 ha with rfl | ha' <;> rcases List.mem_cons.1 hb with rfl | hb'
    · exact absurd rfl hne
    · exact .inl ((List.singleton_sublist.2 hb').cons_cons _)
    · exact .inr ((List.singleton_sublist.2 ha').cons_cons _)
    · exact (ih ha' hb').imp (·.cons _) (·.cons _)

/-- Without repetition, no more than one of two members stands in front of the other. -/
theorem not_sublist_pair {α : Type} {l : List α} (hl : l.Nodup) {a b : α} (h : [a, b].Sublist l) :
    ¬ [b, a].Sublist l := by
  induction l with
  | nil => cases h
  | cons x l ih =>
    obtain ⟨hx, hl⟩ := List.nodup_cons.1 hl
    intro h'
    rcases List.sublist_cons_iff.1 h with hab | ⟨r, hr, hb⟩ <;>
      rcases List.sublist_cons_iff.1 h' with hba | ⟨r', hr', ha⟩
    · exact ih hl hab hba
    · cases hr'
      exact hx (hab.subset (.tail _ (.head _)))
    · cases hr
      exact hx (hba.subset (.tail _ (.head _)))
    · cases hr
      cases hr'
      exact hx (hb.subset (.head _))

namespace Schema

open Linearization

/-- Whether the order of a schema lists each schema of its hierarchy before its ancestors. -/
def IsOrdered (s : Schema) : Prop :=
  ∀ t a, IsIn t s → IsAncestor a t → [t, a].Sublist s.resolutionOrder

theorem isOrdered_iff_pairwise {s : Schema} (h : s.IsKeyed) :
    s.IsOrdered ↔ s.resolutionOrder.Pairwise fun t u => ¬ IsAncestor t u := by
  obtain ⟨hnodup, hmem⟩ := covers_resolutionOrder h
  constructor
  · intro hs
    rw [List.pairwise_iff_forall_sublist]
    intro t u htu hancestor
    have hu := (hmem u).1 (htu.subset (.tail _ (.head _)))
    exact not_sublist_pair hnodup.of_map htu (hs u t hu hancestor)
  · intro hpairwise t a ht ha
    have ha' : IsIn a s := .inr (by
      rcases ht with rfl | ht
      · exact ha
      · exact ha.trans ht)
    have hne : t ≠ a := by
      rintro rfl
      exact not_isAncestor_self t ha
    rcases sublist_pair ((hmem t).2 ht) ((hmem a).2 ha') hne with hsub | hsub
    · exact hsub
    · exact absurd ha (List.pairwise_iff_forall_sublist.1 hpairwise hsub)

/-! ## Looking things up -/

/-- What is found in an ordered hierarchy is not overridden by a schema that extends the one with the
field. -/
theorem get?_of_isOrdered {s : Schema} (h : s.IsKeyed) (hs : s.IsOrdered) {name : String} {f : Field}
    (hf : s.get? name = some f) :
    ∃ t, IsIn t s ∧ t.fields.get? name = some f ∧
      ∀ u, IsIn u s → IsAncestor t u → u.fields.get? name = none := by
  obtain ⟨-, hmem⟩ := covers_resolutionOrder h
  obtain ⟨front, t, rest, horder, hfound, hfront⟩ := List.findSome?_eq_some_iff.1 hf
  have ht : IsIn t s := (hmem t).1 (by rw [horder]; simp)
  refine ⟨t, ht, hfound, fun u hu hancestor => ?_⟩
  have hpairwise := (isOrdered_iff_pairwise h).1 hs
  rw [horder, List.pairwise_append, List.pairwise_cons] at hpairwise
  have hu' := (hmem u).2 hu
  rw [horder, List.mem_append, List.mem_cons] at hu'
  rcases hu' with hu' | rfl | hu'
  · exact hfront u hu'
  · exact absurd hancestor (not_isAncestor_self u)
  · exact absurd hancestor (hpairwise.2.1.1 u hu')

/-! ## Merged orders -/

theorem IsIn.trans {t u s : Schema} (htu : IsIn t u) (hus : IsIn u s) : IsIn t s := by
  rcases htu with rfl | htu
  · exact hus
  · rcases hus with rfl | hus
    · exact .inr htu
    · exact .inr (htu.trans hus)

/-- A merged order keeps the orders of the bases. -/
theorem sublist_resolutionOrder {s b : Schema} (h : s.IsKeyed) {merged : List Schema}
    (hmerged : merge key s.baseSequences = some merged) (hb : b ∈ s.bases) :
    b.resolutionOrder.Sublist s.resolutionOrder := by
  have hkeeps := (isConsistent_of_merge hmerged).keeps b.resolutionOrder
    (List.mem_append_left _ (List.mem_map_of_mem hb))
  rw [resolutionOrder_of_merge hmerged]
  refine .cons _ (sublist_of_map_sublist (fun t ht u hu => h t u ?_ ?_) hkeeps)
  · exact (isIn_of_mem_resolutionOrder ht).of_base hb
  · refine isIn_of_mem_resolutionOrder ?_
    rw [resolutionOrder_of_merge hmerged]
    exact .tail _ hu

/-! ## Orders one after the other -/

/-- Whether each schema of a list is in the hierarchy of one before it, or shares no schema with the
hierarchies of those. The `earlier` ones stand before the list. -/
def IsSeparated (earlier : List Schema) : List Schema → Prop
  | [] => True
  | b :: bs =>
    ((∃ c ∈ earlier, IsIn b c) ∨ ∀ c ∈ earlier, ∀ t, IsIn t c → ¬ IsIn t b) ∧
      IsSeparated (earlier ++ [b]) bs

/-- What stands in the order of a schema once the hierarchies of some bases are in it. -/
structure Listed (s : Schema) (earlier found : List Schema) : Prop where
  /-- They are bases of the schema. -/
  bases : earlier ⊆ s.bases
  /-- No key stands twice. -/
  nodup : (found.map key).Nodup
  /-- The schema and the hierarchies stand there. -/
  mem (t : Schema) : t ∈ found ↔ t = s ∨ ∃ c ∈ earlier, IsIn t c

section Listed

variable {s b : Schema} {earlier found : List Schema}

theorem not_isIn_base (hb : b ∈ s.bases) : ¬ IsIn s b := by
  intro h
  exact not_isAncestor_self s (isAncestor_iff.2 ⟨b, hb, h⟩)

theorem Listed.isIn (hl : Listed s earlier found) {t : Schema} (ht : t ∈ found) : IsIn t s := by
  rcases (hl.mem t).1 ht with rfl | ⟨c, hc, ht⟩
  · exact .inl rfl
  · exact ht.of_base (hl.bases hc)

theorem Listed.add (h : s.IsKeyed) (hl : Listed s earlier found) (hb : b ∈ s.bases) :
    Listed s (earlier ++ [b]) (appendNew key found [b.resolutionOrder]) := by
  have hfound : Covers key found found := ⟨hl.nodup, List.Subset.refl _, List.Subset.refl _⟩
  have hcovers := covers_appendNew hfound [b.resolutionOrder]
  rw [List.flatten_singleton] at hcovers
  have hmem := (covers_resolutionOrder (h.base hb)).2
  have hin : ∀ t ∈ found ++ b.resolutionOrder, IsIn t s := by
    intro t ht
    rcases List.mem_append.1 ht with ht | ht
    · exact hl.isIn ht
    · exact ((hmem t).1 ht).of_base hb
  refine ⟨List.append_subset.2 ⟨hl.bases, by simpa using hb⟩, hcovers.nodup, fun t => ?_⟩
  rw [hcovers.mem_iff fun t ht u hu => h t u (hin t ht) (hin u hu), List.mem_append, hl.mem, hmem]
  simp [or_assoc, or_and_right, exists_or]

/-- A hierarchy within another one adds nothing. -/
theorem Listed.appendNew_of_isIn (hl : Listed s earlier found) (hb : ∃ c ∈ earlier, IsIn b c) :
    appendNew key found [b.resolutionOrder] = found := by
  obtain ⟨c, hc, hb⟩ := hb
  refine appendNew_of_seen fun t ht => List.mem_map_of_mem ((hl.mem t).2 (.inr ⟨c, hc, ?_⟩))
  rw [List.flatten_singleton] at ht
  exact (isIn_of_mem_resolutionOrder ht).trans hb

/-- A hierarchy that shares nothing with the others follows them as it is. -/
theorem Listed.appendNew_of_disjoint (h : s.IsKeyed) (hl : Listed s earlier found)
    (hb : b ∈ s.bases) (hdisjoint : ∀ c ∈ earlier, ∀ t, IsIn t c → ¬ IsIn t b) :
    appendNew key found [b.resolutionOrder] = found ++ b.resolutionOrder := by
  refine appendNew_of_new (covers_resolutionOrder (h.base hb)).1 fun t ht hmem => ?_
  obtain ⟨u, hu, hkey⟩ := List.mem_map.1 hmem
  have ht := isIn_of_mem_resolutionOrder ht
  obtain rfl := h u t (hl.isIn hu) (ht.of_base hb) hkey
  rcases (hl.mem u).1 hu with rfl | ⟨c, hc, hu⟩
  · exact not_isIn_base hb ht
  · exact hdisjoint c hc u hu ht

theorem pairwise_of_isSeparated (h : s.IsKeyed) (hl : Listed s earlier found) {bs : List Schema}
    (hbases : bs ⊆ s.bases)
    (hordered : ∀ b ∈ bs, b.resolutionOrder.Pairwise fun t u => ¬ IsAncestor t u)
    (hseparated : IsSeparated earlier bs) (hfound : found.Pairwise fun t u => ¬ IsAncestor t u) :
    (appendNew key found (bs.map resolutionOrder)).Pairwise fun t u => ¬ IsAncestor t u := by
  induction bs generalizing earlier found with
  | nil => exact hfound
  | cons b bs ih =>
    obtain ⟨hb, hseparated⟩ := hseparated
    obtain ⟨hbase, hbases⟩ := List.cons_subset.1 hbases
    rw [List.map_cons, appendNew_cons]
    refine ih (hl.add h hbase) hbases (fun c hc => hordered c (.tail _ hc)) hseparated ?_
    rcases hb with hin | hdisjoint
    · rw [hl.appendNew_of_isIn hin]
      exact hfound
    · rw [hl.appendNew_of_disjoint h hbase hdisjoint]
      refine List.pairwise_append.2 ⟨hfound, hordered b (.head _), fun t ht u hu hancestor => ?_⟩
      -- what is an ancestor in the new hierarchy belongs to it
      have htb : IsIn t b := .trans (.inr hancestor) (isIn_of_mem_resolutionOrder hu)
      rcases (hl.mem t).1 ht with rfl | ⟨c, hc, htc⟩
      · exact not_isIn_base hbase htb
      · exact hdisjoint c hc t htc htb

theorem isSeparated_of_pairwise (h : s.IsKeyed) (hl : Listed s earlier found) {bs : List Schema}
    (hbases : bs ⊆ s.bases)
    (hearlier : ∀ c ∈ earlier, ∀ t, IsIn t c → t.IsOrdered)
    (hin : ∀ b ∈ bs, b.IsOrdered → ∀ t, IsIn t b → t.IsOrdered)
    (hpairwise : (appendNew key found (bs.map resolutionOrder)).Pairwise
      fun t u => ¬ IsAncestor t u) :
    IsSeparated earlier bs ∧ ∀ b ∈ bs, b.IsOrdered := by
  induction bs generalizing earlier found with
  | nil => exact ⟨trivial, List.forall_mem_nil _⟩
  | cons b bs ih =>
    obtain ⟨hbase, hbases⟩ := List.cons_subset.1 hbases
    have hadd := hl.add h hbase
    rw [List.map_cons, appendNew_cons] at hpairwise
    obtain ⟨rest, hrest, -, -⟩ := exists_appendNew key
      (appendNew key found [b.resolutionOrder]) (bs.map resolutionOrder)
    have hprefix := hpairwise
    rw [hrest] at hprefix
    have hprefix := (List.pairwise_append.1 hprefix).1
    have hb : ((∃ c ∈ earlier, IsIn b c) ∨ ∀ c ∈ earlier, ∀ t, IsIn t c → ¬ IsIn t b) ∧
        b.IsOrdered := by
      by_cases hwithin : ∃ c ∈ earlier, IsIn b c
      · obtain ⟨c, hc, hbc⟩ := hwithin
        exact ⟨.inl ⟨c, hc, hbc⟩, hearlier c hc b hbc⟩
      · have hdisjoint : ∀ c ∈ earlier, ∀ t, IsIn t c → ¬ IsIn t b := by
          -- a shared schema would stand in front of the base
          intro c hc t htc htb
          obtain ⟨more, hmore, -, -⟩ := exists_appendNew key found [b.resolutionOrder]
          have hbmem := (hadd.mem b).2 (.inr ⟨b, by simp, .inl rfl⟩)
          rw [hmore] at hprefix hbmem
          have hbmore : b ∈ more := by
            rcases List.mem_append.1 hbmem with hfound | hmore
            · rcases (hl.mem b).1 hfound with rfl | hin
              · exact absurd (.inl rfl) (not_isIn_base hbase)
              · exact absurd hin hwithin
            · exact hmore
          have hcross := (List.pairwise_append.1 hprefix).2.2 t
            ((hl.mem t).2 (.inr ⟨c, hc, htc⟩)) b hbmore
          rcases htb with rfl | htb
          · exact hwithin ⟨c, hc, htc⟩
          · exact hcross htb
        refine ⟨.inr hdisjoint, (isOrdered_iff_pairwise (h.base hbase)).2 ?_⟩
        rw [hl.appendNew_of_disjoint h hbase hdisjoint] at hprefix
        exact (List.pairwise_append.1 hprefix).2.1
    have hearlier' : ∀ c ∈ earlier ++ [b], ∀ t, IsIn t c → t.IsOrdered := by
      intro c hc
      rcases List.mem_append.1 hc with hc | hc
      · exact hearlier c hc
      · obtain rfl := List.mem_singleton.1 hc
        exact hin c (.head _) hb.2
    obtain ⟨hseparated, hordered⟩ :=
      ih hadd hbases hearlier' (fun c hc => hin c (.tail _ hc)) hpairwise
    exact ⟨⟨hb.1, hseparated⟩, List.forall_mem_cons.2 ⟨hb.2, hordered⟩⟩

end Listed

/-! ## Ordered hierarchies -/

theorem listed_self (s : Schema) : Listed s [] [s] :=
  ⟨List.nil_subset _, List.nodup_singleton _, by simp⟩

theorem IsOrdered.of_bases {s : Schema} (h : s.IsKeyed) (hbases : ∀ b ∈ s.bases, b.IsOrdered)
    (hs : (∃ order, IsConsistent key s.baseSequences order) ∨ IsSeparated [] s.bases) :
    s.IsOrdered := by
  have hpairwise : ∀ b ∈ s.bases, b.resolutionOrder.Pairwise fun t u => ¬ IsAncestor t u :=
    fun b hb => (isOrdered_iff_pairwise (h.base hb)).1 (hbases b hb)
  obtain ⟨-, hmem⟩ := covers_resolutionOrder h
  cases hmerge : merge key s.baseSequences with
  | some merged =>
    rintro t a (rfl | ht) ha
    -- the schema itself stands at the head
    · have hmerged : a ∈ merged := by
        have hin := (hmem a).2 (.inr ha)
        rw [resolutionOrder_of_merge hmerge] at hin
        refine (List.mem_cons.1 hin).resolve_left ?_
        rintro rfl
        exact not_isAncestor_self a ha
      rw [resolutionOrder_of_merge hmerge]
      exact (List.singleton_sublist.2 hmerged).cons_cons t
    · obtain ⟨b, hb, ht⟩ := isAncestor_iff.1 ht
      exact (hbases b hb t a ht ha).trans (sublist_resolutionOrder h hmerge hb)
  | none =>
    rcases hs with hconsistent | hseparated
    · have hsome := isSome_merge_iff.2 hconsistent
      rw [hmerge] at hsome
      cases hsome
    · rw [isOrdered_iff_pairwise h, resolutionOrder_of_not_merge hmerge]
      exact pairwise_of_isSeparated h (listed_self s) (List.Subset.refl _) hpairwise hseparated
        (List.pairwise_singleton _ _)

theorem IsOrdered.bases {s : Schema} (h : s.IsKeyed) (hs : s.IsOrdered)
    (hin : ∀ b ∈ s.bases, b.IsOrdered → ∀ t, IsIn t b → t.IsOrdered) :
    (∀ b ∈ s.bases, b.IsOrdered) ∧
      ((∃ order, IsConsistent key s.baseSequences order) ∨ IsSeparated [] s.bases) := by
  have hpairwise := (isOrdered_iff_pairwise h).1 hs
  cases hmerge : merge key s.baseSequences with
  | some merged =>
    refine ⟨fun b hb => ?_, .inl ⟨merged, isConsistent_of_merge hmerge⟩⟩
    exact (isOrdered_iff_pairwise (h.base hb)).2
      (hpairwise.sublist (sublist_resolutionOrder h hmerge hb))
  | none =>
    rw [resolutionOrder_of_not_merge hmerge] at hpairwise
    obtain ⟨hseparated, hordered⟩ := isSeparated_of_pairwise h (listed_self s)
      (List.Subset.refl _) (List.forall_mem_nil _) hin hpairwise
    exact ⟨hordered, .inr hseparated⟩

/-- Hierarchies within an ordered one are ordered. -/
theorem IsOrdered.of_isIn {s t : Schema} (h : s.IsKeyed) (hs : s.IsOrdered) (ht : IsIn t s) :
    t.IsOrdered := by
  have hin (b : Schema) (hbase : b ∈ s.bases) (hb : b.IsOrdered) (t : Schema) (ht : IsIn t b) :
      t.IsOrdered := hb.of_isIn (h.base hbase) ht
  rcases ht with rfl | ht
  · exact hs
  · obtain ⟨b, hb, ht⟩ := isAncestor_iff.1 ht
    exact hin b hb ((hs.bases h hin).1 b hb) t ht
termination_by sizeOf s
decreasing_by exact sizeOf_lt_of_mem_bases hbase

/-- A schema has its hierarchy in order just if its bases have theirs, and have a consistent order or
are separated. -/
theorem isOrdered_iff {s : Schema} (h : s.IsKeyed) :
    s.IsOrdered ↔ (∀ b ∈ s.bases, b.IsOrdered) ∧
      ((∃ order, IsConsistent key s.baseSequences order) ∨ IsSeparated [] s.bases) := by
  refine ⟨fun hs => hs.bases h fun b hb hordered t ht => hordered.of_isIn (h.base hb) ht, ?_⟩
  rintro ⟨hbases, hs⟩
  exact .of_bases h hbases hs

end Schema

end ContentSchema
