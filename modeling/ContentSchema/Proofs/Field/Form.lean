import ContentSchema.Field.Validation
import Mathlib.Data.List.Basic

/-!
# The forms of texts

What a URI and a dotted name are, said as grammars: `IsUri` and `IsDottedName`. The scanners accept
just the texts of these forms (`Field.isUri_iff`, `Field.isDottedName_iff`). A text is cut into the
segments that it was joined from (`Text.pieces_intercalate`), so that the points of a dotted name can be
counted.
-/
namespace ContentSchema

/-! ## Characters -/

/-- The letters of ASCII. -/
def IsLetter (c : Char) : Prop := 'A' ≤ c ∧ c ≤ 'Z' ∨ 'a' ≤ c ∧ c ≤ 'z'

/-- The digits of ASCII. -/
def IsDigit (c : Char) : Prop := '0' ≤ c ∧ c ≤ '9'

theorem isAlpha_iff {c : Char} : c.isAlpha = true ↔ IsLetter c := by
  change (decide ('A' ≤ c ∧ c ≤ 'Z') || decide ('a' ≤ c) && decide (c ≤ 'z')) = true ↔ _
  simp only [IsLetter, Bool.or_eq_true, Bool.and_eq_true, decide_eq_true_eq]

theorem isDigit_iff {c : Char} : c.isDigit = true ↔ IsDigit c := by
  change (decide ('0' ≤ c) && decide (c ≤ '9')) = true ↔ _
  simp only [IsDigit, Bool.and_eq_true, decide_eq_true_eq]

/-! ## Grammars -/

/-- The characters of schemes. -/
def IsSchemeChar (c : Char) : Prop := IsLetter c ∨ IsDigit c ∨ c = '+' ∨ c = '.' ∨ c = '-'

/-- A URI is a scheme, which is not empty, a colon, and a text without white space. -/
def IsUri (s : String) : Prop :=
  ∃ scheme rest, s.toList = scheme ++ ':' :: rest ∧ scheme ≠ [] ∧ (∀ c ∈ scheme, IsSchemeChar c) ∧
    ∀ c ∈ rest, Text.isSpace c = false

/-- A segment of a dotted name is a letter with letters, digits and underscores behind it. -/
def IsSegment (cs : List Char) : Prop :=
  ∃ c ds, cs = c :: ds ∧ IsLetter c ∧ ∀ d ∈ ds, IsLetter d ∨ IsDigit d ∨ d = '_'

/-- A dotted name with a number of points has one segment more, and the points between them. -/
def IsDottedName (points : Nat) (s : String) : Prop :=
  ∃ segments : List (List Char), segments.length = points + 1 ∧ (∀ cs ∈ segments, IsSegment cs) ∧
    s.toList = ['.'].intercalate segments

/-! ## Pieces -/

namespace Text

theorem pieces_append_mark {mark : Char} {piece : List Char} (h : mark ∉ piece) (cs : List Char) :
    pieces mark (piece ++ mark :: cs) = piece :: pieces mark cs := by
  induction piece with
  | nil => rw [List.nil_append, pieces, if_pos rfl]
  | cons c piece ih =>
    obtain ⟨hc, h⟩ := List.ne_and_not_mem_of_not_mem_cons h
    rw [List.cons_append, pieces, if_neg (Ne.symm hc), ih h]
    rfl

theorem pieces_of_notMem {mark : Char} {cs : List Char} (h : mark ∉ cs) : pieces mark cs = [cs] := by
  induction cs with
  | nil => rfl
  | cons c cs ih =>
    obtain ⟨hc, h⟩ := List.ne_and_not_mem_of_not_mem_cons h
    rw [pieces, if_neg (Ne.symm hc), ih h]
    rfl

/-- A text that was joined from pieces without the mark is cut into them again. -/
theorem pieces_intercalate {mark : Char} {ps : List (List Char)} (hne : ps ≠ [])
    (h : ∀ p ∈ ps, mark ∉ p) : pieces mark ([mark].intercalate ps) = ps := by
  induction ps with
  | nil => exact absurd rfl hne
  | cons p ps ih =>
    obtain ⟨hp, hps⟩ := List.forall_mem_cons.1 h
    cases ps with
    | nil =>
      rw [show [mark].intercalate [p] = p by simp [List.intercalate]]
      exact pieces_of_notMem hp
    | cons q qs =>
      rw [show [mark].intercalate (p :: q :: qs) = p ++ mark :: [mark].intercalate (q :: qs) by
        simp [List.intercalate], pieces_append_mark hp, ih (List.cons_ne_nil q qs) hps]

theorem length_pieces (mark : Char) (cs : List Char) :
    (pieces mark cs).length = cs.count mark + 1 := by
  induction cs with
  | nil => rfl
  | cons c cs ih =>
    rw [pieces]
    split
    · rename_i hc
      rw [List.length_cons, ih, hc, List.count_cons_self]
    · rename_i hc
      rw [List.length_modifyHead, ih, List.count_cons_of_ne hc]

end Text

/-! ## Scanners -/

theorem IsSegment.notMem {cs : List Char} (h : IsSegment cs) : '.' ∉ cs := by
  obtain ⟨c, ds, rfl, hc, hds⟩ := h
  have hletter : ¬ IsLetter '.' := by unfold IsLetter; decide
  have hdigit : ¬ IsDigit '.' := by unfold IsDigit; decide
  intro h
  rcases List.mem_cons.1 h with rfl | h
  · exact hletter hc
  · rcases hds _ h with h | h | h
    · exact hletter h
    · exact hdigit h
    · cases h

namespace Field

theorem isAlphanumeric_iff {c : Char} : isAlphanumeric c = true ↔ IsLetter c ∨ IsDigit c := by
  rw [isAlphanumeric, Bool.or_eq_true, isAlpha_iff, isDigit_iff]

theorem isSegment_iff {cs : List Char} : isSegment cs = true ↔ IsSegment cs := by
  cases cs with
  | nil => exact iff_of_false Bool.false_ne_true (by rintro ⟨_, _, h, -⟩; cases h)
  | cons c cs =>
    simp only [isSegment, IsSegment, Bool.and_eq_true, isAlpha_iff, List.all_eq_true,
      Bool.or_eq_true, isAlphanumeric_iff, beq_iff_eq, or_assoc, List.cons.injEq]
    constructor
    · rintro ⟨hc, hcs⟩
      exact ⟨c, cs, ⟨rfl, rfl⟩, hc, hcs⟩
    · rintro ⟨_, _, ⟨rfl, rfl⟩, hc, hcs⟩
      exact ⟨hc, hcs⟩

/-- The dotted names are the texts that the scanner accepts, and their points are counted. -/
theorem isDottedName_iff {points : Nat} {s : String} :
    IsDottedName points s ↔ isDottedName s = true ∧ s.toList.count '.' = points := by
  constructor
  · rintro ⟨segments, hlength, hsegments, hs⟩
    have hne : segments ≠ [] := List.ne_nil_of_length_eq_add_one hlength
    have hpieces : Text.pieces '.' s.toList = segments := by
      rw [hs, Text.pieces_intercalate hne fun cs hcs => (hsegments cs hcs).notMem]
    have hcount := Text.length_pieces '.' s.toList
    rw [hpieces, hlength] at hcount
    refine ⟨?_, (Nat.add_right_cancel hcount).symm⟩
    rw [isDottedName, hpieces, List.all_eq_true]
    exact fun cs hcs => isSegment_iff.2 (hsegments cs hcs)
  · rintro ⟨hs, rfl⟩
    refine ⟨_, Text.length_pieces '.' s.toList, fun cs hcs => ?_,
      (Text.intercalate_pieces '.' s.toList).symm⟩
    exact isSegment_iff.1 (List.all_eq_true.1 hs cs hcs)

/-- The URIs are the texts that the scanner accepts. -/
theorem isUri_iff {s : String} : isUri s = true ↔ IsUri s := by
  have hscheme {c : Char} :
      (isAlphanumeric c || c == '+' || c == '.' || c == '-') = true ↔ IsSchemeChar c := by
    simp only [Bool.or_eq_true, isAlphanumeric_iff, beq_iff_eq, or_assoc, IsSchemeChar]
  have hcolon : ¬ IsSchemeChar ':' := by
    unfold IsSchemeChar IsLetter IsDigit
    decide
  simp only [isUri, Bool.and_eq_true, Bool.not_eq_true', List.isEmpty_eq_false_iff, List.all_eq_true,
    hscheme, List.any_eq_false, Bool.not_eq_true]
  constructor
  · rintro ⟨⟨⟨hrest, hne⟩, hchars⟩, hspace⟩
    obtain ⟨c, rest, hcons⟩ := List.exists_cons_of_ne_nil hrest
    have hc : c = ':' := by
      have hhead := List.head?_dropWhile_not (· != ':') s.toList
      rw [hcons] at hhead
      simpa using hhead
    refine ⟨_, rest, ?_, hne, hchars, fun d hd => hspace d ?_⟩
    · conv_lhs => rw [← List.takeWhile_append_dropWhile (p := (· != ':')) (l := s.toList)]
      rw [hcons, hc]
    · rw [hcons]
      exact hd
  · rintro ⟨scheme, rest, hs, hne, hchars, hspace⟩
    have hbefore : ∀ c ∈ scheme, (c != ':') = true := fun c hc => by
      rw [bne_iff_ne]
      rintro rfl
      exact hcolon (hchars _ hc)
    have htake : s.toList.takeWhile (· != ':') = scheme := by
      rw [hs, List.takeWhile_append_of_pos hbefore, List.takeWhile_cons_of_neg (by simp),
        List.append_nil]
    have hdrop : s.toList.dropWhile (· != ':') = ':' :: rest := by
      rw [hs, List.dropWhile_append_of_pos hbefore, List.dropWhile_cons_of_neg (by simp)]
    rw [htake, hdrop]
    exact ⟨⟨⟨List.cons_ne_nil _ _, hne⟩, hchars⟩, hspace⟩

end Field
end ContentSchema
