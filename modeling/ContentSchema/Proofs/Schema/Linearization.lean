import ContentSchema.Schema.Linearization
import Mathlib.Data.List.Basic

/-!
# Looking things up along an order

What a linearised order finds first is what one of the orders finds that it was made from, and it
finds something wherever one of these does (`findSome?_linearize`). Members with the same key have to
agree on what is found at them, since a merged order keeps only one of them.
-/
namespace ContentSchema.Linearization

variable {α β κ : Type} {key : α → κ} {find : α → Option β}

/-- Whether members with the same key agree on what is found at them. -/
def Coherent (key : α → κ) (find : α → Option β) (members : List α) : Prop :=
  ∀ x ∈ members, ∀ y ∈ members, key x = key y → find x = find y

theorem Coherent.mono {members members' : List α} (h : Coherent key find members)
    (hsub : members' ⊆ members) : Coherent key find members' :=
  fun x hx y hy => h x (hsub hx) y (hsub hy)

variable [DecidableEq κ]

/-! ## Merging -/

theorem dropHead_subset (c : α) (s : List α) : dropHead key c s ⊆ s := by
  cases s with
  | nil => exact List.Subset.refl _
  | cons x xs =>
    rw [dropHead]
    split
    · exact List.subset_cons_self x xs
    · exact List.Subset.refl _

theorem flatten_dropHeads_subset (c : α) (sequences : List (List α)) :
    (dropHeads key c sequences).flatten ⊆ sequences.flatten := by
  intro x hx
  obtain ⟨s, hs, hxs⟩ := List.mem_flatten.1 hx
  obtain ⟨t, ht, rfl⟩ := List.mem_map.1 hs
  exact List.mem_flatten.2 ⟨t, ht, dropHead_subset c t hxs⟩

/-- A head at which nothing is found does not count. -/
theorem findSome?_dropHead {c : α} {s : List α} (hc : find c = none)
    (hkey : ∀ x ∈ s, key x = key c → find x = find c) :
    (dropHead key c s).findSome? find = s.findSome? find := by
  cases s with
  | nil => rfl
  | cons x xs =>
    rw [dropHead]
    split
    · rename_i hx
      rw [List.findSome?_cons, hkey x (.head _) hx, hc]
    · rfl

theorem mem_flatten_of_head {sequences : List (List α)} {c : α}
    (h : c ∈ sequences.filterMap List.head?) :
    c ∈ sequences.flatten ∧ ∃ s ∈ sequences, s.head? = some c := by
  obtain ⟨s, hs, hhead⟩ := List.mem_filterMap.1 h
  exact ⟨List.mem_flatten.2 ⟨s, hs, List.mem_of_mem_head? hhead⟩, s, hs, hhead⟩

/-- What a merged sequence finds first is what one of the sequences finds first, and it finds nothing
only if none of them does. -/
theorem findSome?_merge {sequences : List (List α)} {merged : List α}
    (hcoherent : Coherent key find sequences.flatten) (h : merge key sequences = some merged) :
    (∀ v, merged.findSome? find = some v → ∃ s ∈ sequences, s.findSome? find = some v) ∧
      (merged.findSome? find = none → ∀ s ∈ sequences, s.findSome? find = none) := by
  induction hn : sequences.flatten.length using Nat.strongRecOn generalizing sequences merged with
  | _ n ih =>
  rw [merge] at h
  split at h
  · rename_i hempty
    obtain rfl := Option.some.inj h
    refine ⟨fun v hv => (by cases hv), fun _ s hs => ?_⟩
    rw [List.isEmpty_iff.1 (List.all_eq_true.1 hempty s hs)]
    rfl
  · split at h
    · cases h
    · rename_i c hc
      obtain ⟨rest, hrest, rfl⟩ := Option.map_eq_some_iff.1 h
      have hhead := List.mem_of_find?_eq_some hc
      obtain ⟨hmem, s, hs, hshead⟩ := mem_flatten_of_head hhead
      have ih := ih _ (hn ▸ length_flatten_dropHeads_lt key hhead)
        (hcoherent.mono (flatten_dropHeads_subset c sequences)) hrest rfl
      rw [List.findSome?_cons]
      cases hfind : find c with
      | some v =>
        refine ⟨fun w hw => ⟨s, hs, ?_⟩, fun hnone => (by cases hnone)⟩
        obtain rfl := Option.some.inj hw
        obtain ⟨xs, rfl⟩ := List.head?_eq_some_iff.1 hshead
        rw [List.findSome?_cons, hfind]
      | none =>
        have hdrop : ∀ t ∈ sequences, (dropHead key c t).findSome? find = t.findSome? find :=
          fun t ht => findSome?_dropHead hfind fun x hx hk =>
            hcoherent x (List.mem_flatten.2 ⟨t, ht, hx⟩) c hmem hk
        constructor
        · intro v hv
          obtain ⟨t', ht', hfound⟩ := ih.1 v hv
          obtain ⟨t, ht, rfl⟩ := List.mem_map.1 ht'
          exact ⟨t, ht, (hdrop t ht).symm.trans hfound⟩
        · intro hnone t ht
          exact (hdrop t ht).symm.trans (ih.2 hnone _ (List.mem_map.2 ⟨t, ht, rfl⟩))

/-! ## One after the other -/

/-- Members that are left out because their key stands there already change nothing. -/
theorem findSome?_appendNew {found : List α} {sequences : List (List α)}
    (hcoherent : Coherent key find (found ++ sequences.flatten)) :
    (appendNew key found sequences).findSome? find =
      (found ++ sequences.flatten).findSome? find := by
  unfold appendNew
  generalize sequences.flatten = members at hcoherent ⊢
  induction members generalizing found with
  | nil => rw [List.foldl_nil, List.append_nil]
  | cons x members ih =>
    rw [List.foldl_cons]
    split
    · rename_i hseen
      obtain ⟨y, hy, hkey⟩ := List.any_eq_true.1 hseen
      have hxy : find y = find x := hcoherent y (List.mem_append_left _ hy) x
        (List.mem_append_right _ (.head _)) (of_decide_eq_true hkey)
      rw [ih (hcoherent.mono fun z hz => by
        rcases List.mem_append.1 hz with hz | hz
        · exact List.mem_append_left _ hz
        · exact List.mem_append_right _ (.tail _ hz))]
      rw [List.findSome?_append, List.findSome?_append, List.findSome?_cons]
      cases hfound : found.findSome? find with
      | some v => rfl
      | none =>
        rw [← hxy, List.findSome?_eq_none_iff.1 hfound y hy]
    · rw [ih (by rwa [List.append_assoc]), List.append_assoc]
      rfl

/-- Members whose keys stand there add nothing. -/
theorem appendNew_of_seen {found : List α} {sequences : List (List α)}
    (h : ∀ x ∈ sequences.flatten, key x ∈ found.map key) :
    appendNew key found sequences = found := by
  unfold appendNew
  generalize sequences.flatten = members at h ⊢
  induction members with
  | nil => rfl
  | cons x members ih =>
    obtain ⟨y, hy, hkey⟩ := List.mem_map.1 (h x (.head _))
    have hseen : found.any (key · = key x) = true :=
      List.any_eq_true.2 ⟨y, hy, decide_eq_true hkey⟩
    rw [List.foldl_cons, if_pos hseen]
    exact ih fun z hz => h z (.tail _ hz)

/-- What is added has new keys, and would be added again just so. -/
theorem exists_appendNew (key : α → κ) (found : List α) (sequences : List (List α)) :
    ∃ more, appendNew key found sequences = found ++ more ∧
      more.Sublist (sequences.flatten.filter fun x => !found.any (key · = key x)) ∧
      appendNew key found [more] = found ++ more := by
  unfold appendNew
  generalize sequences.flatten = members
  induction members generalizing found with
  | nil => exact ⟨[], by simp⟩
  | cons x members ih =>
    rw [List.foldl_cons]
    split
    · rename_i hseen
      obtain ⟨more, hall, hsub, hagain⟩ := ih found
      rw [List.filter_cons_of_neg (by simpa using hseen)]
      exact ⟨more, hall, hsub, hagain⟩
    · rename_i hnew
      obtain ⟨more, hall, hsub, hagain⟩ := ih (found ++ [x])
      refine ⟨x :: more, hall.trans (List.append_cons ..).symm, ?_, ?_⟩
      · rw [List.filter_cons_of_pos (by simpa using hnew)]
        refine (hsub.trans (List.monotone_filter_right members fun y hy => ?_)).cons_cons x
        rw [List.any_append, Bool.not_or, Bool.and_eq_true] at hy
        exact hy.1
      · rw [List.flatten_singleton] at hagain ⊢
        rw [List.foldl_cons, if_neg hnew]
        exact hagain.trans (List.append_cons ..).symm

/-- Adding members once more to those that they were added to changes nothing. -/
theorem appendNew_appendNew (found : List α) (sequences : List (List α)) :
    appendNew key found [appendNew key found sequences] = appendNew key found sequences := by
  obtain ⟨more, hall, -, hagain⟩ := exists_appendNew key found sequences
  have hfound : appendNew key found [found] = found :=
    appendNew_of_seen fun x hx => List.mem_map_of_mem (by simpa using hx)
  unfold appendNew at hfound hagain
  rw [List.flatten_singleton] at hfound hagain
  rw [hall, appendNew, List.flatten_singleton, List.foldl_append, hfound, hagain]

theorem exists_of_findSome?_flatten {find : α → Option β} {orders : List (List α)} {v : β}
    (h : orders.flatten.findSome? find = some v) : ∃ o ∈ orders, o.findSome? find = some v := by
  induction orders with
  | nil => cases h
  | cons o orders ih =>
    rw [List.flatten_cons, List.findSome?_append] at h
    cases ho : o.findSome? find with
    | some w =>
      rw [ho, Option.some_or] at h
      exact ⟨o, .head _, ho.trans h⟩
    | none =>
      rw [ho, Option.none_or] at h
      obtain ⟨o', ho', hv⟩ := ih h
      exact ⟨o', .tail _ ho', hv⟩

/-! ## Linearised orders -/

/-- Along the order of a member at which nothing is found, what is found first is what the order of a
parent finds first, and nothing is found only if no order of a parent finds anything. -/
theorem findSome?_linearize {self : α} {parents : List α} {orders : List (List α)}
    (hself : find self = none) (hparents : ∀ p ∈ parents, ∃ o ∈ orders, o.head? = some p)
    (hcoherent : Coherent key find (self :: orders.flatten)) :
    (∀ v, (linearize key self parents orders).findSome? find = some v →
        ∃ o ∈ orders, o.findSome? find = some v) ∧
      ((linearize key self parents orders).findSome? find = none →
        ∀ o ∈ orders, o.findSome? find = none) := by
  unfold linearize
  split
  · rename_i merged hmerged
    have hmembers : (orders ++ [parents]).flatten ⊆ self :: orders.flatten := by
      intro x hx
      rw [List.flatten_append, List.flatten_singleton] at hx
      rcases List.mem_append.1 hx with hx | hx
      · exact .tail _ hx
      · obtain ⟨o, ho, hhead⟩ := hparents x hx
        exact .tail _ (List.mem_flatten.2 ⟨o, ho, List.mem_of_mem_head? hhead⟩)
    obtain ⟨hsome, hnone⟩ := findSome?_merge (hcoherent.mono hmembers) hmerged
    rw [List.findSome?_cons, hself]
    refine ⟨fun v hv => ?_, fun h o ho => hnone h o (List.mem_append_left _ ho)⟩
    obtain ⟨o, ho, hfound⟩ := hsome v hv
    rcases List.mem_append.1 ho with ho | ho
    · exact ⟨o, ho, hfound⟩
    -- what is found among the parents is found at the head of the order of one of them
    · cases List.mem_singleton.1 ho
      obtain ⟨x, hx, hxv⟩ := List.exists_of_findSome?_eq_some hfound
      obtain ⟨o, ho, hhead⟩ := hparents x hx
      obtain ⟨xs, rfl⟩ := List.head?_eq_some_iff.1 hhead
      exact ⟨x :: xs, ho, by rw [List.findSome?_cons, hxv]⟩
  · rw [findSome?_appendNew hcoherent, List.singleton_append, List.findSome?_cons, hself]
    constructor
    · intro v hv
      exact exists_of_findSome?_flatten hv
    · intro h o ho
      rw [List.findSome?_eq_none_iff] at h ⊢
      exact fun x hx => h x (List.mem_flatten.2 ⟨o, ho, hx⟩)

end ContentSchema.Linearization
