import ContentSchema.Markup.Reference
import ContentSchema.Markup.Writer

/-!
# References read back

A character of a text or of an attribute value is written as it is or as a reference that stands for
it (`escapeTextChar_cases`, `escapeValueChar_cases`). So what is written for a value stands for it
again (`resolve_value`), and it holds neither brackets nor the quote around it.
-/
namespace ContentSchema.Markup

/-- A reference in front of a text stands for its character. -/
theorem resolveFrom_reference {body : List Char} {c : Char} (start : Nat) (rest : List Char)
    (hbody : ∀ d ∈ body, d ≠ ';' ∧ d ≠ '&') (hc : referencedCharacter (start + 1) body = .ok c) :
    ∃ next, resolveFrom start ('&' :: (body ++ ';' :: rest)) =
      (resolveFrom next rest).map (c :: ·) := by
  have hpos : ∀ d ∈ body, (d != ';' && d != '&') = true := fun d hd => by simpa using hbody d hd
  have htake : (body ++ ';' :: rest).takeWhile (fun d => d != ';' && d != '&') = body := by
    rw [List.takeWhile_append_of_pos hpos, List.takeWhile_cons_of_neg (by simp), List.append_nil]
  have hdrop : (body ++ ';' :: rest).dropWhile (fun d => d != ';' && d != '&') = ';' :: rest := by
    rw [List.dropWhile_append_of_pos hpos, List.dropWhile_cons_of_neg (by simp)]
  refine ⟨start + 1 + utf8Length body + 1, ?_⟩
  rw [resolveFrom, if_neg (by simp)]
  simp only [htake]
  split
  · rename_i after h
    rw [hdrop] at h
    cases h
    rw [hc]
    cases resolveFrom (start + 1 + utf8Length body + 1) rest <;> rfl
  · rename_i h
    exact absurd hdrop (h rest)

theorem resolveFrom_char {c : Char} (hc : c ≠ '&') (start : Nat) (rest : List Char) :
    resolveFrom start (c :: rest) = (resolveFrom (start + c.utf8Size) rest).map (c :: ·) := by
  rw [resolveFrom, if_pos (by simpa using hc)]
  cases resolveFrom (start + c.utf8Size) rest <;> rfl

/-! ## Escaped characters -/

/-- The ways to write a character in a text: as it is, or as a reference to it. -/
theorem escapeTextChar_cases (c : Char) :
    (escapeTextChar c = [c] ∧ c ≠ '&' ∧ c ≠ '<' ∧ c ≠ '>') ∨
      ∃ body, escapeTextChar c = '&' :: (body ++ [';']) ∧
        (∀ d ∈ body, d ≠ ';' ∧ d ≠ '&' ∧ d ≠ '<' ∧ d ≠ '>' ∧ d ≠ '"') ∧
        ∀ start, referencedCharacter start body = .ok c := by
  unfold escapeTextChar
  by_cases hamp : c = '&'
  · exact .inr ⟨['a', 'm', 'p'], by simp [hamp], by simp, fun _ => by rw [hamp]; rfl⟩
  · by_cases hlt : c = '<'
    · exact .inr ⟨['l', 't'], by simp [hlt], by simp, fun _ => by rw [hlt]; rfl⟩
    · by_cases hgt : c = '>'
      · exact .inr ⟨['g', 't'], by simp [hgt], by simp, fun _ => by rw [hgt]; rfl⟩
      · exact .inl ⟨by simp [hamp, hlt, hgt], hamp, hlt, hgt⟩

/-- The ways to write a character in a value. -/
theorem escapeValueChar_cases (c : Char) :
    (escapeValueChar c = [c] ∧ c ≠ '&' ∧ c ≠ '<' ∧ c ≠ '>' ∧ c ≠ '"') ∨
      ∃ body, escapeValueChar c = '&' :: (body ++ [';']) ∧
        (∀ d ∈ body, d ≠ ';' ∧ d ≠ '&' ∧ d ≠ '<' ∧ d ≠ '>' ∧ d ≠ '"') ∧
        ∀ start, referencedCharacter start body = .ok c := by
  unfold escapeValueChar
  by_cases hquote : c = '"'
  · exact .inr ⟨['q', 'u', 'o', 't'], by simp [hquote], by simp, fun _ => by rw [hquote]; rfl⟩
  · by_cases hfeed : c = '\n'
    · exact .inr ⟨['#', '1', '0'], by simp [hfeed], by simp, fun _ => by rw [hfeed]; rfl⟩
    · by_cases hreturn : c = '\r'
      · exact .inr ⟨['#', '1', '3'], by simp [hreturn], by simp, fun _ => by rw [hreturn]; rfl⟩
      · by_cases htab : c = '\t'
        · exact .inr ⟨['#', '9'], by simp [htab], by simp, fun _ => by rw [htab]; rfl⟩
        · have heq : (if c == '"' then ['&', 'q', 'u', 'o', 't', ';']
              else if c == '\n' then ['&', '#', '1', '0', ';']
              else if c == '\r' then ['&', '#', '1', '3', ';']
              else if c == '\t' then ['&', '#', '9', ';']
              else escapeTextChar c) = escapeTextChar c := by
            simp [hquote, hfeed, hreturn, htab]
          rw [heq]
          exact (escapeTextChar_cases c).imp (fun ⟨h, ha, hl, hg⟩ => ⟨h, ha, hl, hg, hquote⟩) id

/-- What is written for the characters of a value stands for them. -/
theorem resolve_value (cs : List Char) : resolve (cs.flatMap escapeValueChar) = .ok cs := by
  have key (start : Nat) : resolveFrom start (cs.flatMap escapeValueChar) = .ok cs := by
    induction cs generalizing start with
    | nil => rw [List.flatMap_nil, resolveFrom]
    | cons c cs ih =>
      rw [List.flatMap_cons]
      rcases escapeValueChar_cases c with ⟨h, hamp, -⟩ | ⟨body, h, hbody, hc⟩ <;> rw [h]
      · rw [List.singleton_append, resolveFrom_char hamp, ih]
        rfl
      · obtain ⟨next, hnext⟩ := resolveFrom_reference start (cs.flatMap escapeValueChar)
          (fun d hd => ⟨(hbody d hd).1, (hbody d hd).2.1⟩) (hc _)
        rw [List.cons_append, List.append_assoc, List.singleton_append, hnext, ih]
        rfl
  exact key 0

theorem mem_escapeValue {cs : List Char} {c : Char} (h : c ∈ cs.flatMap escapeValueChar) :
    c ≠ '<' ∧ c ≠ '>' ∧ c ≠ '"' := by
  obtain ⟨d, -, hc⟩ := List.mem_flatMap.1 h
  rcases escapeValueChar_cases d with ⟨hd, -, hlt, hgt, hquote⟩ | ⟨body, hd, hbody, -⟩ <;>
    rw [hd] at hc
  · cases List.mem_singleton.1 hc
    exact ⟨hlt, hgt, hquote⟩
  · rcases List.mem_cons.1 hc with rfl | hc
    · decide
    · rcases List.mem_append.1 hc with hc | hc
      · obtain ⟨-, -, hlt, hgt, hquote⟩ := hbody c hc
        exact ⟨hlt, hgt, hquote⟩
      · cases List.mem_singleton.1 hc
        decide

end ContentSchema.Markup
