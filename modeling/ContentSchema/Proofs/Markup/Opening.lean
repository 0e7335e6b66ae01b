import ContentSchema.Markup.Reader
import ContentSchema.Proofs.Markup.Token

/-!
# Start tags at their places

A token is cut off the front of what is left of a document, and a start tag stands there between
brackets (`exists_of_nextToken`). `openings` lists the start tags of a document, each with what
stands before it, which is what does stand there (`standsIn_of_mem_openings`).

The tags of empty elements count as start tags.
-/
namespace ContentSchema.Markup

/-! ## What a token takes -/

/-- The characters of a start tag. -/
def Token.startTag? : Token → Option (List Char)
  | .opening tag | .empty tag => some tag
  | _ => none

/-- Whether a start tag is written with its brackets. -/
def IsStartTag (tag markup : List Char) : Prop :=
  markup = '<' :: (tag ++ ['>']) ∨ markup = '<' :: (tag ++ ['/', '>'])

theorem suffix_of_cutAfter? {mark cs before rest : List Char}
    (h : cutAfter? mark cs = some (before, rest)) : rest <:+ cs := by
  induction cs generalizing before rest with
  | nil =>
    rw [cutAfter?] at h
    split at h
    · cases h
      exact List.suffix_refl _
    · cases h
  | cons c cs ih =>
    rw [cutAfter?] at h
    split at h
    · cases h
      exact List.drop_suffix _ _
    · obtain ⟨p, hp, heq⟩ := Option.map_eq_some_iff.1 h
      cases heq
      exact (ih hp).trans (List.suffix_cons _ _)

theorem eq_of_scanTag {q : Quoting} {cs tag rest : List Char}
    (h : scanTag q cs = .ok (tag, rest)) : cs = tag ++ '>' :: rest := by
  induction cs generalizing q tag rest with
  | nil => cases h
  | cons c cs ih =>
    rw [scanTag] at h
    split at h
    · rename_i hend
      cases h
      rw [eq_of_beq (Bool.and_eq_true_iff.1 hend).2, List.nil_append]
    · cases hs : scanTag (q.after c) cs with
      | error e =>
        rw [hs] at h
        cases h
      | ok p =>
        rw [hs] at h
        cases h
        rw [List.cons_append, ← ih hs]

theorem suffix_of_scanDoctype? {p : DoctypePlace} {cs body rest : List Char}
    (h : scanDoctype? p cs = some (body, rest)) : rest <:+ cs := by
  induction cs generalizing p body rest with
  | nil => cases h
  | cons c cs ih =>
    rw [scanDoctype?] at h
    split at h
    · cases h
      exact List.suffix_cons _ _
    · obtain ⟨r, hr, heq⟩ := Option.map_eq_some_iff.1 h
      cases heq
      exact (ih hr).trans (List.suffix_cons _ _)

section Token

variable {cs rest : List Char} {t : Token}

theorem nextComment_cases (h : nextComment cs = .token t rest) :
    rest <:+ cs ∧ t.startTag? = none := by
  rw [nextComment] at h
  split at h
  · cases h
  · rename_i hcut
    split at h
    · cases h
      exact ⟨(suffix_of_cutAfter? hcut).trans (List.drop_suffix _ _), rfl⟩
    · cases h

theorem nextCdata_cases (h : nextCdata cs = .token t rest) : rest <:+ cs ∧ t.startTag? = none := by
  rw [nextCdata] at h
  split at h
  · cases h
  · rename_i hcut
    split at h
    · cases h
      exact ⟨suffix_of_cutAfter? hcut, rfl⟩
    · cases h

theorem nextDoctype_cases (h : nextDoctype cs = .token t rest) :
    rest <:+ cs ∧ t.startTag? = none := by
  rw [nextDoctype] at h
  split at h
  · cases h
  · rename_i hscan
    split at h
    · cases h
    · split at h
      · cases h
      · cases h
        exact ⟨suffix_of_scanDoctype? hscan, rfl⟩

theorem nextInstruction_cases (h : nextInstruction cs = .token t rest) :
    rest <:+ cs ∧ t.startTag? = none := by
  rw [nextInstruction] at h
  split at h
  · cases h
  · cases h
  · rename_i hcut
    cases h
    exact ⟨suffix_of_cutAfter? hcut, rfl⟩

theorem nextReference_cases (h : nextReference cs = .token t rest) :
    rest <:+ cs ∧ t.startTag? = none := by
  rw [nextReference] at h
  split at h
  · rename_i hdrop
    cases h
    have hmark : ';' :: rest <:+ cs := hdrop ▸ List.dropWhile_suffix _
    exact ⟨(List.suffix_cons _ _).trans hmark, rfl⟩
  · cases h

/-- A start tag is what stands behind a bracket, without the slash of an empty element. -/
theorem nextTag_cases (h : nextTag cs = .token t rest) :
    ∃ tag markup,
      t.startTag? = some tag ∧ cs = markup ++ rest ∧ IsStartTag tag ('<' :: markup) := by
  rw [nextTag] at h
  split at h
  · cases h
  · rename_i tag more hscan
    have hcs := eq_of_scanTag hscan
    split at h
    · rename_i hlast
      cases h
      refine ⟨_, tag ++ ['>'], rfl, by rw [hcs, List.append_assoc, List.singleton_append], .inr ?_⟩
      obtain ⟨front, rfl⟩ := List.getLast?_eq_some_iff.1 (eq_of_beq hlast)
      rw [List.dropLast_concat, List.append_assoc, List.singleton_append]
    · cases h
      refine ⟨tag, tag ++ ['>'], rfl, ?_, .inl rfl⟩
      rw [hcs, List.append_assoc, List.singleton_append]

/-- Only the tags that `nextTag` gives are start tags. -/
theorem nextMarkup_cases (h : nextMarkup cs = .token t rest) :
    (rest <:+ cs ∧ t.startTag? = none) ∨ nextTag cs = .token t rest := by
  unfold nextMarkup at h
  split at h
  · cases h
  · exact .inl ((nextComment_cases h).imp_left (·.trans (List.suffix_cons _ _)))
  · exact .inl ((nextCdata_cases h).imp_left (·.trans (List.suffix_cons _ _)))
  · exact .inl ((nextDoctype_cases h).imp_left (·.trans (List.suffix_cons _ _)))
  · exact .inl ((nextDoctype_cases h).imp_left (·.trans (List.suffix_cons _ _)))
  · cases h
  · exact .inl (nextInstruction_cases h)
  · split at h
    · cases h
    · rename_i tag more hscan
      cases h
      refine .inl ⟨⟨'/' :: (tag ++ ['>']), ?_⟩, rfl⟩
      rw [eq_of_scanTag hscan, List.cons_append, List.append_assoc, List.singleton_append]
  · exact .inr h

theorem nextToken_cases (h : nextToken cs = .token t rest) :
    (rest <:+ cs ∧ t.startTag? = none) ∨
      ∃ more, cs = '<' :: more ∧ nextTag more = .token t rest := by
  unfold nextToken at h
  split at h
  · cases h
  · exact (nextMarkup_cases h).imp (·.imp_left (·.trans (List.suffix_cons _ _)))
      fun htag => ⟨_, rfl, htag⟩
  · exact .inl ((nextReference_cases h).imp_left (·.trans (List.suffix_cons _ _)))
  · cases h
    exact .inl ⟨(List.dropWhile_suffix _).trans (List.suffix_cons _ _), rfl⟩

/-- A token takes characters off the front, and a start tag those that it is written with. -/
theorem exists_of_nextToken (h : nextToken cs = .token t rest) :
    ∃ markup, cs = markup ++ rest ∧ ∀ tag, t.startTag? = some tag → IsStartTag tag markup := by
  rcases nextToken_cases h with ⟨⟨markup, hcs⟩, hnone⟩ | ⟨more, rfl, hnext⟩
  · refine ⟨markup, hcs.symm, fun tag htag => ?_⟩
    rw [hnone] at htag
    cases htag
  · obtain ⟨tag, markup, htag, rfl, hmarkup⟩ := nextTag_cases hnext
    refine ⟨'<' :: markup, rfl, fun tag' htag' => ?_⟩
    rw [htag] at htag'
    cases htag'
    exact hmarkup

end Token

/-- Induction over the tokens of a document: the rest behind a token is shorter. -/
theorem tokens_induction {P : List Char → Prop}
    (finish : ∀ cs, (∀ t rest, nextToken cs ≠ .token t rest) → P cs)
    (token : ∀ markup rest t, nextToken (markup ++ rest) = .token t rest →
      (∀ tag, t.startTag? = some tag → IsStartTag tag markup) → P rest → P (markup ++ rest))
    (cs : List Char) : P cs := by
  by_cases hnext : ∃ t rest, nextToken cs = .token t rest
  · obtain ⟨t, rest, hnext⟩ := hnext
    have hlength := length_of_nextToken hnext
    obtain ⟨markup, hcs, hmarkup⟩ := exists_of_nextToken hnext
    rw [hcs] at hnext ⊢
    exact token markup rest t hnext hmarkup (tokens_induction finish token rest)
  · exact finish cs fun t rest ht => hnext ⟨t, rest, ht⟩
termination_by cs.length

/-! ## The start tags of a document -/

/-- A start tag at its place. -/
structure Opening where
  /-- What stands before it. -/
  before : List Char
  /-- The characters that it is written with. -/
  markup : List Char
  /-- The characters between its brackets. -/
  tag : List Char

/-- The start tags of the rest of a document, of which some characters stand before. -/
def openingsFrom (before cs : List Char) : List Opening :=
  match _h : nextToken cs with
  | .token t rest =>
    let markup := cs.take (cs.length - rest.length)
    (t.startTag?.map (Opening.mk before markup)).toList ++ openingsFrom (before ++ markup) rest
  | .failed _ _ | .finished => []
termination_by cs.length
decreasing_by exact length_of_nextToken _h

/-- The start tags of a document. What stands before them is counted from the byte order mark on. -/
def openings (text : String) : List Opening := openingsFrom [] (withoutMark text.toList)

/-- The line on which a start tag begins: one, and one more for every line feed before it. -/
def Opening.line (s : Opening) : Nat := 1 + s.before.count '\n'

theorem openingsFrom_token {before markup rest : List Char} {t : Token}
    (h : nextToken (markup ++ rest) = .token t rest) :
    openingsFrom before (markup ++ rest) =
      (t.startTag?.map (Opening.mk before markup)).toList ++
        openingsFrom (before ++ markup) rest := by
  rw [openingsFrom]
  split <;> rename_i heq <;> rw [h] at heq <;> cases heq
  rw [List.length_append, Nat.add_sub_cancel, List.take_left]

theorem openingsFrom_end {cs : List Char} (h : ∀ t rest, nextToken cs ≠ .token t rest)
    (before : List Char) : openingsFrom before cs = [] := by
  rw [openingsFrom]
  split
  · rename_i htoken
    exact absurd htoken (h _ _)
  · rfl
  · rfl

/-- Whether a start tag stands in the characters of a document. -/
structure Opening.StandsIn (s : Opening) (cs : List Char) : Prop where
  /-- It stands behind what is before it. -/
  place : s.before ++ s.markup <+: cs
  /-- It is written with its brackets. -/
  brackets : IsStartTag s.tag s.markup

theorem standsIn_of_mem_openingsFrom {before cs : List Char} {s : Opening}
    (h : s ∈ openingsFrom before cs) : s.StandsIn (before ++ cs) := by
  induction cs using tokens_induction generalizing before with
  | finish cs hend =>
    rw [openingsFrom_end hend] at h
    cases h
  | token markup rest t hnext hmarkup ih =>
    rw [openingsFrom_token hnext] at h
    rcases List.mem_append.1 h with hs | hs
    · obtain ⟨tag, htag, rfl⟩ := Option.map_eq_some_iff.1 (Option.mem_toList.1 hs)
      exact ⟨⟨rest, List.append_assoc _ _ _⟩, hmarkup tag htag⟩
    · rw [← List.append_assoc]
      exact ih hs

theorem standsIn_of_mem_openings {text : String} {s : Opening} (h : s ∈ openings text) :
    s.StandsIn (withoutMark text.toList) :=
  standsIn_of_mem_openingsFrom h

end ContentSchema.Markup
