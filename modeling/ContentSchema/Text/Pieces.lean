/-!
# Pieces of a text

A text is cut at every occurrence of a mark, so there is one piece more than there are marks. The
pieces with the mark between them are the text again (`intercalate_pieces`), and the mark stands in
none of them (`notMem_of_mem_pieces`).
-/
namespace ContentSchema.Text

/-- The pieces of a text between the occurrences of a mark. -/
def pieces (mark : Char) : List Char → List (List Char)
  | [] => [[]]
  | c :: cs =>
    if c = mark then [] :: pieces mark cs else (pieces mark cs).modifyHead (c :: ·)

theorem pieces_ne_nil (mark : Char) (cs : List Char) : pieces mark cs ≠ [] := by
  induction cs with
  | nil => simp [pieces]
  | cons c cs ih =>
    simp only [pieces]
    split
    · simp
    · cases h : pieces mark cs with
      | nil => exact absurd h ih
      | cons p ps => simp

/-- Cutting loses nothing. -/
theorem intercalate_pieces (mark : Char) (cs : List Char) :
    [mark].intercalate (pieces mark cs) = cs := by
  induction cs with
  | nil => simp [pieces, List.intercalate]
  | cons c cs ih =>
    obtain ⟨p, ps, h⟩ := List.exists_cons_of_ne_nil (pieces_ne_nil mark cs)
    rw [h] at ih
    simp only [pieces, h]
    split
    · rename_i hc
      rw [← ih, hc]
      simp [List.intercalate]
    · rw [← ih]
      cases ps <;> simp [List.intercalate]

/-- No piece holds the mark. -/
theorem notMem_of_mem_pieces {mark : Char} {cs piece : List Char} (h : piece ∈ pieces mark cs) :
    mark ∉ piece := by
  induction cs generalizing piece with
  | nil => simp_all [pieces]
  | cons c cs ih =>
    obtain ⟨p, ps, hp⟩ := List.exists_cons_of_ne_nil (pieces_ne_nil mark cs)
    rw [hp] at ih
    simp only [pieces, hp] at h
    split at h
    · rcases List.mem_cons.1 h with rfl | h
      · simp
      · exact ih h
    · rename_i hc
      rcases List.mem_cons.1 h with rfl | h
      · have := ih List.mem_cons_self
        simp [this, Ne.symm hc]
      · exact ih (List.mem_cons_of_mem _ h)

end ContentSchema.Text
