/-!
# Maps by name

Maps from texts, kept in the order of their keys, which is the order by code points. The order is
part of the type, so two maps with the same entries are equal. `get?` is the view of a map: the
lemmas say what each operation does to it.
-/
namespace ContentSchema

/-- A map from names to values. -/
structure NameMap (α : Type) where
  /-- The entries, in the order of their keys. -/
  entries : List (String × α)
  /-- The keys are in order, and distinct. -/
  sorted : entries.Pairwise fun a b => a.1 < b.1

namespace NameMap

variable {α β : Type}

/-- The map without entries. -/
def empty : NameMap α := ⟨[], List.Pairwise.nil⟩

instance : EmptyCollection (NameMap α) := ⟨empty⟩
instance : Inhabited (NameMap α) := ⟨empty⟩

/-- Puts an entry in its place, in the place of one with the same key. -/
def insertEntry (k : String) (v : α) : List (String × α) → List (String × α)
  | [] => [(k, v)]
  | e :: es =>
    if k < e.1 then (k, v) :: e :: es
    else if k = e.1 then (k, v) :: es
    else e :: insertEntry k v es

theorem fst_mem_insertEntry {k : String} {v : α} {es : List (String × α)} {e : String × α}
    (h : e ∈ insertEntry k v es) : e = (k, v) ∨ e ∈ es := by
  induction es with
  | nil => simpa [insertEntry] using h
  | cons d ds ih =>
    simp only [insertEntry] at h
    split at h
    · simpa using h
    · split at h
      · simp only [List.mem_cons] at h ⊢
        exact h.imp_right Or.inr
      · simp only [List.mem_cons] at h ⊢
        rcases h with rfl | h
        · exact Or.inr (Or.inl rfl)
        · exact (ih h).imp_right Or.inr

theorem sorted_insertEntry (k : String) (v : α) {es : List (String × α)}
    (h : es.Pairwise fun a b => a.1 < b.1) :
    (insertEntry k v es).Pairwise fun a b => a.1 < b.1 := by
  induction es with
  | nil => simp [insertEntry]
  | cons e es ih =>
    have ⟨he, hes⟩ := List.pairwise_cons.1 h
    simp only [insertEntry]
    split
    · rename_i hk
      refine List.pairwise_cons.2 ⟨fun d hd => ?_, h⟩
      rcases List.mem_cons.1 hd with rfl | hd
      · exact hk
      · exact String.lt_trans hk (he d hd)
    · split
      · rename_i hk
        exact List.pairwise_cons.2 ⟨fun d hd => hk ▸ he d hd, hes⟩
      · rename_i hlt hne
        refine List.pairwise_cons.2 ⟨fun d hd => ?_, ih hes⟩
        rcases fst_mem_insertEntry hd with rfl | hd
        · exact Std.lt_of_le_of_ne (Std.not_lt.1 hlt) (Ne.symm hne)
        · exact he d hd

/-- Adds an entry, or replaces the one with the same key. -/
def insert (m : NameMap α) (k : String) (v : α) : NameMap α :=
  ⟨insertEntry k v m.entries, sorted_insertEntry k v m.sorted⟩

/-- Removes the entry with a key, if there is one. -/
def erase (m : NameMap α) (k : String) : NameMap α :=
  ⟨m.entries.filter (·.1 != k), m.sorted.filter _⟩

/-- The value under a key. -/
def get? (m : NameMap α) (k : String) : Option α := (m.entries.find? (·.1 == k)).map (·.2)

/-- Whether a key has an entry. -/
def contains (m : NameMap α) (k : String) : Bool := (m.get? k).isSome

/-- The number of entries. -/
def size (m : NameMap α) : Nat := m.entries.length

/-- The keys, in order. -/
def keys (m : NameMap α) : List String := m.entries.map (·.1)

/-- The values, in the order of their keys. -/
def values (m : NameMap α) : List α := m.entries.map (·.2)

/-- The map with the entries of a list; of several with the same key the last one counts. -/
def ofList (entries : List (String × α)) : NameMap α :=
  entries.foldl (fun m e => m.insert e.1 e.2) empty

/-- Changes the value under a key, if there is one. -/
def modify (m : NameMap α) (k : String) (f : α → α) : NameMap α :=
  match m.get? k with
  | some v => m.insert k (f v)
  | none => m

/-! ## The view of each operation -/

@[simp] theorem get?_empty (k : String) : (empty : NameMap α).get? k = none := rfl

theorem find?_insertEntry (k l : String) (v : α) {es : List (String × α)}
    (h : es.Pairwise fun a b => a.1 < b.1) :
    ((insertEntry k v es).find? (·.1 == l)).map (·.2) =
      if k = l then some v else (es.find? (·.1 == l)).map (·.2) := by
  induction es with
  | nil => by_cases hkl : k = l <;> simp [insertEntry, hkl]
  | cons e es ih =>
    have ⟨he, hes⟩ := List.pairwise_cons.1 h
    simp only [insertEntry]
    split
    · by_cases hkl : k = l <;> simp [List.find?_cons, hkl]
    · split
      · rename_i hke
        by_cases hkl : k = l
        · simp [hkl]
        · have : ¬ e.1 = l := fun hel => hkl (hke.trans hel)
          simp [hkl, this]
      · rename_i hke
        by_cases hel : e.1 = l
        · have : ¬ k = l := fun hkl => hke (hkl.trans hel.symm)
          simp [hel, this]
        · simp [hel, ih hes]

/-- Inserting sets the value under its key and leaves the others alone. -/
theorem get?_insert (m : NameMap α) (k l : String) (v : α) :
    (m.insert k v).get? l = if k = l then some v else m.get? l :=
  find?_insertEntry k l v m.sorted

/-- Removing empties one key and leaves the others alone. -/
theorem get?_erase (m : NameMap α) (k l : String) :
    (m.erase k).get? l = if k = l then none else m.get? l := by
  obtain ⟨es, hs⟩ := m
  simp only [get?, erase]
  clear hs
  induction es with
  | nil => simp
  | cons e es ih =>
    by_cases hek : e.1 = k
    · have hdrop : (e :: es).filter (·.1 != k) = es.filter (·.1 != k) := by simp [hek]
      by_cases hkl : k = l
      · simp_all
      · have : ¬ e.1 = l := fun h => hkl (hek.symm.trans h)
        simp_all
    · have hkeep : (e :: es).filter (·.1 != k) = e :: es.filter (·.1 != k) := by simp [hek]
      rw [hkeep]
      by_cases hel : e.1 = l
      · have : ¬ k = l := fun h => hek (hel.trans h.symm)
        simp [hel, this]
      · simpa [hel] using ih

end NameMap

/-- A set of names. -/
abbrev NameSet := NameMap Unit

/-- The set with one more name. -/
def NameSet.add (s : NameSet) (name : String) : NameSet := NameMap.insert s name ()

end ContentSchema
