import ContentSchema.NameMap

/-!
# Entries of maps by name

The entries of a map are what `NameMap.get?` finds (`NameMap.mem_entries_iff`), and a map made from a
list with distinct keys holds the entries of the list (`NameMap.get?_ofList`).
-/
namespace ContentSchema.NameMap

variable {α : Type}

theorem mem_entries_iff (m : NameMap α) {k : String} {v : α} :
    (k, v) ∈ m.entries ↔ m.get? k = some v := by
  obtain ⟨es, hs⟩ := m
  simp only [get?]
  induction es with
  | nil => simp
  | cons e es ih =>
    obtain ⟨he, hes⟩ := List.pairwise_cons.1 hs
    by_cases hk : e.1 = k
    · rw [List.find?_cons_of_pos (by simpa using hk), Option.map_some, List.mem_cons]
      refine ⟨fun h => ?_, fun h => .inl ?_⟩
      · rcases h with h | h
        · rw [← h]
        · have hlt : e.1 < k := he _ h
          exact absurd (hk ▸ hlt) (String.lt_irrefl k)
      · cases h
        rw [← hk]
    · rw [List.find?_cons_of_neg (by simpa using hk), List.mem_cons, ← ih hes]
      refine ⟨fun h => h.resolve_left fun he => hk (by rw [← he]), .inr⟩

theorem nodup_keys (m : NameMap α) : (m.entries.map (·.1)).Nodup :=
  List.pairwise_map.2 (m.sorted.imp fun {a b} (hlt : a.1 < b.1) (heq : a.1 = b.1) => by
    rw [heq] at hlt
    exact String.lt_irrefl _ hlt)

/-- Maps that agree under every name on a part of their values agree on that part of their entries. -/
theorem map_entries_congr {β : Type} {f : α → β} {m n : NameMap α}
    (h : ∀ k, (m.get? k).map f = (n.get? k).map f) :
    m.entries.map (fun e => (e.1, f e.2)) = n.entries.map fun e => (e.1, f e.2) := by
  have hmem (m : NameMap α) (p : String × β) :
      p ∈ m.entries.map (fun e => (e.1, f e.2)) ↔ (m.get? p.1).map f = some p.2 := by
    rw [List.mem_map, Option.map_eq_some_iff]
    constructor
    · rintro ⟨e, he, rfl⟩
      exact ⟨e.2, m.mem_entries_iff.1 he, rfl⟩
    · rintro ⟨v, hv, hp⟩
      exact ⟨(p.1, v), m.mem_entries_iff.2 hv, Prod.ext rfl hp⟩
  have hsorted (m : NameMap α) :
      (m.entries.map fun e => (e.1, f e.2)).Pairwise fun a b => a.1 < b.1 :=
    List.pairwise_map.2 m.sorted
  have hnodup (m : NameMap α) : (m.entries.map fun e => (e.1, f e.2)).Nodup := by
    refine List.Pairwise.imp (fun {a b} hlt => ?_) (hsorted m)
    rintro rfl
    exact String.lt_irrefl _ hlt
  refine List.Perm.eq_of_pairwise (fun a b _ _ hab hba => ?_) (hsorted m) (hsorted n)
    ((List.perm_ext_iff_of_nodup (hnodup m) (hnodup n)).2 fun p => ?_)
  · exact absurd (String.lt_trans hab hba) (String.lt_irrefl _)
  · rw [hmem, hmem, h]

theorem get?_foldl_insert (l : List (String × α)) (hl : (l.map (·.1)).Nodup) (m : NameMap α)
    (k : String) :
    (l.foldl (fun m e => m.insert e.1 e.2) m).get? k =
      ((l.find? (·.1 == k)).map (·.2)).or (m.get? k) := by
  induction l generalizing m with
  | nil => rfl
  | cons e l ih =>
    obtain ⟨he, hl⟩ := List.nodup_cons.1 hl
    rw [List.foldl_cons, ih hl, get?_insert]
    by_cases hk : e.1 = k
    · have hnone : l.find? (·.1 == k) = none := by
        refine List.find?_eq_none.2 fun d hd hdk => he (List.mem_map.2 ⟨d, hd, ?_⟩)
        exact (beq_iff_eq.1 hdk).trans hk.symm
      rw [hnone, List.find?_cons_of_pos (by simpa using hk), if_pos hk]
      rfl
    · rw [List.find?_cons_of_neg (by simpa using hk), if_neg hk]

/-- A map has the entries of a list with distinct keys that it was made from. -/
theorem get?_ofList (l : List (String × α)) (hl : (l.map (·.1)).Nodup) (k : String) :
    (ofList l).get? k = (l.find? (·.1 == k)).map (·.2) := by
  rw [ofList, get?_foldl_insert l hl]
  simp

theorem get?_ofList_of_mem {l : List (String × α)} (hl : (l.map (·.1)).Nodup) {k : String} {v : α}
    (h : (k, v) ∈ l) : (ofList l).get? k = some v := by
  rw [get?_ofList l hl]
  induction l with
  | nil => cases h
  | cons e l ih =>
    obtain ⟨he, hl⟩ := List.nodup_cons.1 hl
    rcases List.mem_cons.1 h with rfl | h
    · simp
    · have hk : ¬ e.1 = k := fun hk => he (List.mem_map.2 ⟨_, h, hk.symm⟩)
      rw [List.find?_cons_of_neg (by simpa using hk)]
      exact ih hl h

/-- A map made from a list has no other entries. -/
theorem mem_of_mem_ofList {l : List (String × α)} {e : String × α} (h : e ∈ (ofList l).entries) :
    e ∈ l := by
  have key (l : List (String × α)) (m : NameMap α)
      (h : e ∈ (l.foldl (fun m e => m.insert e.1 e.2) m).entries) : e ∈ l ∨ e ∈ m.entries := by
    induction l generalizing m with
    | nil => exact .inr h
    | cons d l ih =>
      rcases ih _ h with h | h
      · exact .inl (.tail _ h)
      · rcases fst_mem_insertEntry h with rfl | h
        · exact .inl (.head _)
        · exact .inr h
  exact (key l empty h).resolve_right fun h => nomatch h

/-- A list with the entries of a map, in whichever order, has under each name what the map has. -/
theorem find?_of_mem_iff {m : NameMap α} {l : List (String × α)} (hl : ∀ e, e ∈ l ↔ e ∈ m.entries)
    (k : String) : (l.find? (·.1 == k)).map (·.2) = m.get? k := by
  cases hfind : l.find? (·.1 == k) with
  | some e =>
    have hk : e.1 = k := by simpa using List.find?_some hfind
    have hentry := (hl e).1 (List.mem_of_find?_eq_some hfind)
    rw [Option.map_some, ← hk, ← m.mem_entries_iff.1 hentry]
  | none =>
    cases hget : m.get? k with
    | none => rfl
    | some v =>
      have hne := List.find?_eq_none.1 hfind (k, v) ((hl _).2 (m.mem_entries_iff.2 hget))
      exact absurd (beq_self_eq_true k) hne

/-- Maps with the same value under each name are equal. -/
theorem ext_get? {m n : NameMap α} (h : ∀ k, m.get? k = n.get? k) : m = n := by
  have hentries := map_entries_congr (f := id) (m := m) (n := n) fun k => by rw [h k]
  obtain ⟨es, hes⟩ := m
  obtain ⟨ds, hds⟩ := n
  have heq : es = ds := by simpa using hentries
  subst heq
  rfl

/-- Removing names empties them and leaves the others alone. -/
theorem get?_foldl_erase (names : List String) (m : NameMap α) (k : String) :
    (names.foldl (fun m n => m.erase n) m).get? k = if k ∈ names then none else m.get? k := by
  induction names generalizing m with
  | nil => rfl
  | cons n names ih =>
    rw [List.foldl_cons, ih, get?_erase]
    by_cases hn : n = k
    · simp [hn]
    · simp [hn, Ne.symm hn]

/-- Adds the entries of a list one after the other, all of them or those whose keys are new. -/
def addEntries (replace : Bool) (l : List (String × α)) (m : NameMap α) : NameMap α :=
  l.foldl (fun m e => if replace || !m.contains e.1 then m.insert e.1 e.2 else m) m

/-- Where entries replace others the last one with a key counts. -/
theorem get?_addEntries_true (l : List (String × α)) (m : NameMap α) (k : String) :
    (m.addEntries true l).get? k = ((l.reverse.find? (·.1 == k)).map (·.2)).or (m.get? k) := by
  unfold addEntries
  induction l generalizing m with
  | nil => rfl
  | cons e l ih =>
    rw [List.foldl_cons, ih, Bool.true_or, if_pos rfl, get?_insert, List.reverse_cons,
      List.find?_append]
    cases l.reverse.find? (·.1 == k) with
    | some d => rfl
    | none => by_cases hk : e.1 = k <;> simp [hk]

/-- Where entries replace no others the first one with a new key counts. -/
theorem get?_addEntries_false (l : List (String × α)) (m : NameMap α) (k : String) :
    (m.addEntries false l).get? k = (m.get? k).or ((l.find? (·.1 == k)).map (·.2)) := by
  unfold addEntries
  induction l generalizing m with
  | nil => simp
  | cons e l ih =>
    rw [List.foldl_cons, ih, Bool.false_or]
    by_cases hk : e.1 = k
    · subst hk
      rw [contains]
      cases hm : m.get? e.1 with
      | some v => simp [hm]
      | none => simp [get?_insert]
    · rw [List.find?_cons_of_neg (by simpa using hk)]
      split
      · rw [get?_insert, if_neg hk]
      · rfl

end ContentSchema.NameMap
