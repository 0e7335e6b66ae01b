import ContentSchema.Text.Space

/-!
# Trimming

A text without white space at its two ends is its own trimmed form (`trim_of_ends`), and a trimmed text
is such a text (`trim_trim`). Words with blanks between them are found again (`words_intercalate`).
-/
namespace ContentSchema.Text

theorem isSpace_of_isDigit {c : Char} (h : c.isDigit = true) : isSpace c = false := by
  simp only [Char.isDigit, Bool.and_eq_true, decide_eq_true_eq, UInt32.le_iff_toNat_le] at h
  have h1 : 48 ≤ c.toNat := h.1
  have h2 : c.toNat ≤ 57 := h.2
  simp [isSpace]
  omega

theorem trimStart_cons_of_not_isSpace {c : Char} (cs : List Char) (h : isSpace c = false) :
    trimStart (c :: cs) = c :: cs := by
  simp [trimStart, h]

theorem trimStart_of_head {cs : List Char} (h : ∀ c, cs.head? = some c → isSpace c = false) :
    trimStart cs = cs := by
  cases cs with
  | nil => rfl
  | cons c cs => exact trimStart_cons_of_not_isSpace cs (h c rfl)

/-- One look at each character tells that none of them is white space. -/
theorem isSpace_of_all {cs : List Char} (h : cs.all (!isSpace ·) = true) :
    ∀ c ∈ cs, isSpace c = false := fun c hc => by
  simpa using List.all_eq_true.1 h c hc

/-- What begins and ends without white space is not changed. -/
theorem trim_of_ends {cs : List Char} (hfirst : ∀ c, cs.head? = some c → isSpace c = false)
    (hlast : ∀ c, cs.getLast? = some c → isSpace c = false) :
    trim (String.ofList cs) = String.ofList cs := by
  have hr : trimStart cs.reverse = cs.reverse :=
    trimStart_of_head fun c hc => hlast c (by rwa [List.head?_reverse] at hc)
  rw [trim, String.toList_ofList, trimChars, trimStart_of_head hfirst, hr, List.reverse_reverse]

theorem trim_of_forall {cs : List Char} (h : ∀ c ∈ cs, isSpace c = false) :
    trim (String.ofList cs) = String.ofList cs :=
  trim_of_ends (fun c hc => h c (List.mem_of_head? hc)) fun c hc => h c (List.mem_of_getLast? hc)

theorem words_go_append {word : List Char} (h : ∀ c ∈ word, isSpace c = false)
    (cs acc : List Char) : words.go (word ++ cs) acc = words.go cs (word.reverse ++ acc) := by
  induction word generalizing acc with
  | nil => rfl
  | cons c word ih =>
    rw [List.cons_append, words.go, h c (.head _), if_neg Bool.false_ne_true,
      ih fun d hd => h d (.tail _ hd)]
    simp

theorem words_go_space {word : List Char} (hne : word ≠ []) (h : ∀ c ∈ word, isSpace c = false)
    (cs : List Char) : words.go (word ++ ' ' :: cs) [] = word :: words.go cs [] := by
  have hempty : (word.reverse ++ []).isEmpty = false := by simp [hne]
  rw [words_go_append h, words.go, if_pos (by decide), words.flush, hempty,
    if_neg Bool.false_ne_true]
  simp

/-- Words with a blank between them are these words. -/
theorem words_intercalate {ws : List String}
    (h : ∀ w ∈ ws, w ≠ "" ∧ ∀ c ∈ w.toList, isSpace c = false) :
    words (" ".intercalate ws) = ws := by
  have key : words.go (" ".intercalate ws).toList [] = ws.map String.toList := by
    rw [String.toList_intercalate]
    induction ws with
    | nil => rfl
    | cons w ws ih =>
      obtain ⟨hne, hspace⟩ := h w (.head _)
      have hne : w.toList ≠ [] := fun he => hne (String.toList_eq_nil_iff.1 he)
      have ih := ih fun v hv => h v (.tail _ hv)
      cases ws with
      | nil =>
        have hone := words_go_append hspace [] []
        simp only [List.append_nil] at hone
        simp [List.intercalate, hone, words.go, words.flush, hne]
      | cons v ws =>
        rw [List.map_cons, List.map_cons, List.intercalate_cons_cons]
        have hsplit := words_go_space hne hspace ([' '].intercalate (v.toList :: ws.map String.toList))
        simp only [List.map_cons] at ih
        rw [List.append_assoc]
        exact hsplit.trans (congrArg (w.toList :: ·) ih)
  rw [words, key, List.map_map]
  simp

end ContentSchema.Text
