import ContentSchema.Markup.Name

/-!
# Names without a namespace

A plain name is made of the characters of XML names other than the colon, in any order; every XML
name without a colon is one (`isPlainName_of_isXmlName`). It is in no namespace, and can be put into
one (`splitName?_qualified`).
-/
namespace ContentSchema.Markup

/-- The ranges of characters, the letters of ASCII apart, with which an XML name starts. -/
def nameStartRanges : List (Nat × Nat) :=
  [(0xC0, 0xD6), (0xD8, 0xF6), (0xF8, 0x2FF), (0x370, 0x37D), (0x37F, 0x1FFF), (0x200C, 0x200D),
    (0x2070, 0x218F), (0x2C00, 0x2FEF), (0x3001, 0xD7FF), (0xF900, 0xFDCF), (0xFDF0, 0xFFFD),
    (0x10000, 0xEFFFF)]

/-- The ranges of further characters behind the first one, digits apart. -/
def nameRanges : List (Nat × Nat) := [(0xB7, 0xB7), (0x300, 0x36F), (0x203F, 0x2040)]

/-- Whether a character is in one of some ranges. -/
def isInRanges (ranges : List (Nat × Nat)) (c : Char) : Bool :=
  ranges.any fun r => r.1 ≤ c.toNat && c.toNat ≤ r.2

/-- Whether an XML name without a colon can start with a character. -/
def isNameStart (c : Char) : Bool := c.isAlpha || c == '_' || isInRanges nameStartRanges c

/-- Whether a character can stand in a plain name. -/
def isPlainChar (c : Char) : Bool :=
  isNameStart c || c.isDigit || c == '-' || c == '.' || isInRanges nameRanges c

/-- Whether a name is an XML name without a colon. -/
def isXmlName (name : String) : Bool :=
  match name.toList with
  | [] => false
  | c :: cs => isNameStart c && cs.all isPlainChar

/-- Whether a name is plain. -/
def isPlainName (name : String) : Bool := !name.isEmpty && name.toList.all isPlainChar

theorem isPlainName_of_isXmlName {name : String} (h : isXmlName name = true) :
    isPlainName name = true := by
  unfold isXmlName at h
  split at h
  · cases h
  · rename_i c cs hcs
    obtain ⟨hc, hrest⟩ := Bool.and_eq_true_iff.1 h
    have hne : name ≠ "" := fun he => by
      rw [he] at hcs
      cases hcs
    have hplain : isPlainChar c = true := by simp [isPlainChar, hc]
    simp only [isPlainName, hcs, List.all_cons, hplain, hrest, String.isEmpty_eq_false_iff.2 hne,
      Bool.not_false, Bool.and_self]

theorem splitName?_of_plain {name : String} (h : isPlainName name = true) :
    splitName? name = none := by
  simp only [isPlainName, Bool.and_eq_true] at h
  unfold splitName?
  split
  · rename_i cs hcs
    rw [hcs, List.all_cons, Bool.and_eq_true] at h
    exact absurd h.2.1 (by decide)
  · rfl

theorem localName_of_plain {name : String} (h : isPlainName name = true) :
    localName name = name := by
  rw [localName, splitName?_of_plain h]

theorem namespaceOf?_of_plain {name : String} (h : isPlainName name = true) :
    namespaceOf? name = none := by
  rw [namespaceOf?, splitName?_of_plain h]
  rfl

/-- A name with two parts is made of them. -/
theorem eq_qualified_of_splitName? {name uri rest : String}
    (h : splitName? name = some (uri, rest)) : name = qualified rest uri := by
  unfold splitName? at h
  split at h
  · rename_i cs hcs
    dsimp only at h
    split at h
    · rename_i c rest' hdrop
      cases h
      have hc : c = '\x7d' := by
        have hnot := List.head?_dropWhile_not (· != '\x7d') cs
        rw [hdrop] at hnot
        simpa using hnot
      subst hc
      have hsplit : cs.takeWhile (· != '\x7d') ++ '\x7d' :: rest' = cs := by
        rw [← hdrop, List.takeWhile_append_dropWhile]
      rw [← String.toList_inj, hcs]
      simp [qualified, hsplit]
    · cases h
  · cases h

/-- The parts of a name in a namespace. -/
theorem splitName?_qualified (name : String) {uri : String} (h : '\x7d' ∉ uri.toList) :
    splitName? (qualified name uri) = some (uri, name) := by
  have hinside (c : Char) (hc : c ∈ uri.toList) : (c != '\x7d') = true := by
    refine bne_iff_ne.2 fun heq => h ?_
    rwa [← heq]
  have htake : (uri.toList ++ '\x7d' :: name.toList).takeWhile (· != '\x7d') = uri.toList := by
    rw [List.takeWhile_append_of_pos hinside, List.takeWhile_cons_of_neg (by simp), List.append_nil]
  have hdrop : (uri.toList ++ '\x7d' :: name.toList).dropWhile (· != '\x7d') =
      '\x7d' :: name.toList := by
    rw [List.dropWhile_append_of_pos hinside, List.dropWhile_cons_of_neg (by simp)]
  have hlist : (qualified name uri).toList = '\x7b' :: (uri.toList ++ '\x7d' :: name.toList) := by
    simp [qualified]
  unfold splitName?
  rw [hlist]
  simp only [htake, hdrop, String.ofList_toList]

theorem localName_qualified (name : String) {uri : String} (h : '\x7d' ∉ uri.toList) :
    localName (qualified name uri) = name := by
  rw [localName, splitName?_qualified name h]

theorem namespaceOf?_qualified (name : String) {uri : String} (h : '\x7d' ∉ uri.toList) :
    namespaceOf? (qualified name uri) = some uri := by
  rw [namespaceOf?, splitName?_qualified name h]
  rfl

end ContentSchema.Markup
