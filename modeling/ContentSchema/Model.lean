import ContentSchema.Schema.Basic

/-!
# Models

A model is a list of schemas under distinct names, in the order in which they were added. The
unnamed schema has the empty name.
-/
namespace ContentSchema

/-- A model. -/
structure Model where
  /-- The schemas with their names. -/
  entries : List (String × Schema) := []
  /-- The names are distinct. -/
  distinct : (entries.map (·.1)).Nodup := by simp

namespace Model

/-- The model without schemas. -/
def empty : Model := ⟨[], List.nodup_nil⟩

instance : Inhabited Model := ⟨empty⟩

/-- Puts a schema in the place of the one with its name, or at the end. -/
def insertEntry (name : String) (s : Schema) : List (String × Schema) → List (String × Schema)
  | [] => [(name, s)]
  | e :: es => if e.1 = name then (name, s) :: es else e :: insertEntry name s es

/-- The names after an insertion. -/
theorem map_fst_insertEntry (name : String) (s : Schema) (es : List (String × Schema)) :
    (insertEntry name s es).map (·.1) =
      if name ∈ es.map (·.1) then es.map (·.1) else es.map (·.1) ++ [name] := by
  induction es with
  | nil => simp [insertEntry]
  | cons e es ih =>
    simp only [insertEntry]
    split
    · rename_i h
      simp [h]
    · rename_i h
      have : ¬ name = e.1 := fun hn => h hn.symm
      simp only [List.map_cons, ih, List.mem_cons, this, false_or]
      split <;> simp

theorem nodup_insertEntry (name : String) (s : Schema) {es : List (String × Schema)}
    (h : (es.map (·.1)).Nodup) : ((insertEntry name s es).map (·.1)).Nodup := by
  rw [map_fst_insertEntry]
  split
  · exact h
  · rename_i hn
    refine List.nodup_append.2 ⟨h, by simp, fun a ha b hb hab => ?_⟩
    cases List.mem_singleton.1 hb
    exact hn (hab ▸ ha)

/-- Adds a schema under a name; one with that name is replaced where it stands. -/
def insert (m : Model) (name : String) (s : Schema) : Model :=
  ⟨insertEntry name s m.entries, nodup_insertEntry name s m.distinct⟩

/-- Removes the schema with a name, if there is one. -/
def erase (m : Model) (name : String) : Model :=
  ⟨m.entries.filter (·.1 != name), by
    have h := m.distinct
    exact (List.filter_sublist.map _).nodup h⟩

/-- The schema with a name. -/
def get? (m : Model) (name : String) : Option Schema :=
  (m.entries.find? (·.1 == name)).map (·.2)

/-- The names, in order. -/
def names (m : Model) : List String := m.entries.map (·.1)

/-- The number of schemas. -/
def size (m : Model) : Nat := m.entries.length

/-- Adds schemas one after the other to the empty model. -/
def ofList (entries : List (String × Schema)) : Model :=
  entries.foldl (fun m e => m.insert e.1 e.2) empty

/-- Changes every schema, with its name at hand. -/
def map (f : String → Schema → Schema) (m : Model) : Model :=
  ⟨m.entries.map fun e => (e.1, f e.1 e.2), by
    have h := m.distinct
    simpa [List.map_map, Function.comp_def] using h⟩

end Model
end ContentSchema
