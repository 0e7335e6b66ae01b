/-!
# White space

The characters of Unicode's `White_Space` property, and trimming by it. The property has 25 members,
none of them beyond the basic plane.
-/
namespace ContentSchema.Text

/-- Membership in the `White_Space` property. -/
def isSpace (c : Char) : Bool :=
  let n := c.toNat
  (0x9 ≤ n && n ≤ 0xD) || n == 0x20 || n == 0x85 || n == 0xA0 || n == 0x1680 ||
    (0x2000 ≤ n && n ≤ 0x200A) || n == 0x2028 || n == 0x2029 || n == 0x202F || n == 0x205F ||
    n == 0x3000

/-- Core's four ASCII blanks have the property; it adds the line separators that core leaves out. -/
theorem isSpace_of_isWhitespace {c : Char} (h : c.isWhitespace = true) : isSpace c = true := by
  simp only [Char.isWhitespace, Bool.or_eq_true, decide_eq_true_eq] at h
  rcases h with ((rfl | rfl) | rfl) | rfl <;> decide

/-- The characters from the first one that is not white space. -/
def trimStart (cs : List Char) : List Char := cs.dropWhile isSpace

/-- The characters between the first and the last one that is not white space. -/
def trimChars (cs : List Char) : List Char :=
  (trimStart (trimStart cs).reverse).reverse

/-- A text without its leading and trailing white space. -/
def trim (s : String) : String := String.ofList (trimChars s.toList)

/-- Whether a text holds nothing but white space. -/
def isBlank (s : String) : Bool := s.toList.all isSpace

/-- The maximal runs of characters without white space, in order. -/
def words (s : String) : List String :=
  (go s.toList []).map String.ofList
where
  /-- Splits at each white space character; `word` holds the current run, reversed. -/
  go : List Char → List Char → List (List Char)
    | [], word => flush word
    | c :: cs, word => if isSpace c then flush word ++ go cs [] else go cs (c :: word)
  /-- The run as a list of at most one word. -/
  flush (word : List Char) : List (List Char) := if word.isEmpty then [] else [word.reverse]

end ContentSchema.Text
