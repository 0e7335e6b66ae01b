import ContentSchema.Markup.Reference
import ContentSchema.Markup.SyntaxError

/-!
# Tokens of markup

A document is a sequence of tokens: text, references, sections of character data, tags, and markup
without a meaning for the element tree. `nextToken` takes the first one off the characters of a
document; `tokens` gives them all, each with the byte offset at which it stops, and the error that
ends the sequence, if there is one.

White space in tags is the blank, tab, line feed and carriage return. Nothing is demanded of the
characters of names, texts and values.
-/
namespace ContentSchema.Markup

/-- The white space of tags. -/
def isTagSpace (c : Char) : Bool := c == ' ' || c == '\t' || c == '\n' || c == '\r'

/-- A token. Tags are given by the characters between their brackets. -/
inductive Token where
  /-- Text without references. -/
  | text (cs : List Char)
  /-- What stands between an ampersand and its semicolon. -/
  | reference (body : List Char)
  /-- The text of a section of character data. -/
  | cdata (cs : List Char)
  /-- A start tag. -/
  | opening (tag : List Char)
  /-- The tag of an empty element, without its slash. -/
  | empty (tag : List Char)
  /-- An end tag, without its slash. -/
  | closing (tag : List Char)
  /-- A comment, processing instruction, declaration or document type. -/
  | skipped
deriving DecidableEq, Repr

/-- What a document begins with. -/
inductive Step where
  /-- A token, and what follows it. -/
  | token (t : Token) (rest : List Char)
  /-- An error, and what follows the place where it is noticed. -/
  | failed (e : SyntaxError) (rest : List Char)
  /-- Nothing. -/
  | finished

/-! ## Scanners -/

/-- The characters before the first occurrence of a mark and those after it. -/
def cutAfter? (mark : List Char) : List Char → Option (List Char × List Char)
  | [] => if mark.isEmpty then some ([], []) else none
  | c :: cs =>
    if mark.isPrefixOf (c :: cs) then some ([], (c :: cs).drop mark.length)
    else (cutAfter? mark cs).map fun p => (c :: p.1, p.2)

theorem length_of_cutAfter? {mark cs before rest : List Char}
    (h : cutAfter? mark cs = some (before, rest)) : rest.length ≤ cs.length := by
  induction cs generalizing before rest with
  | nil =>
    simp only [cutAfter?] at h
    split at h <;> simp_all
  | cons c cs ih =>
    simp only [cutAfter?] at h
    split at h
    · simp only [Option.some.injEq, Prod.mk.injEq] at h
      rw [← h.2, List.length_drop]
      omega
    · obtain ⟨p, hp, he⟩ := Option.map_eq_some_iff.1 h
      simp only [Prod.mk.injEq] at he
      have : p.2.length ≤ cs.length := ih hp
      rw [← he.2, List.length_cons]
      omega

/-- Whether a character stands between quotes, and which. -/
inductive Quoting where
  /-- Outside quotes. -/
  | outside
  /-- Between single quotes. -/
  | single
  /-- Between double quotes. -/
  | double
deriving DecidableEq, Repr

/-- The quoting after a character. -/
def Quoting.after (q : Quoting) (c : Char) : Quoting :=
  match q with
  | .outside => if c == '\'' then .single else if c == '"' then .double else .outside
  | .single => if c == '\'' then .outside else .single
  | .double => if c == '"' then .outside else .double

/-- What lacks its end when a tag ends in this quoting. -/
def Quoting.unclosed : Quoting → Unclosed
  | .outside => .tag
  | .single => .singleQuoted
  | .double => .doubleQuoted

/-- The characters of a tag up to its bracket, which is the first one outside quotes, and what
follows. -/
def scanTag (q : Quoting) : List Char → Except Unclosed (List Char × List Char)
  | [] => .error q.unclosed
  | c :: cs =>
    if q == .outside && c == '>' then .ok ([], cs)
    else (scanTag (q.after c) cs).map fun p => (c :: p.1, p.2)

theorem length_of_scanTag {q : Quoting} {cs tag rest : List Char}
    (h : scanTag q cs = .ok (tag, rest)) : rest.length < cs.length := by
  induction cs generalizing q tag rest with
  | nil => cases h
  | cons c cs ih =>
    simp only [scanTag] at h
    split at h
    · simp only [Except.ok.injEq, Prod.mk.injEq] at h
      simp [h.2]
    · cases hs : scanTag (q.after c) cs with
      | error e => simp [hs, Except.map] at h
      | ok p =>
        simp only [hs, Except.map, Except.ok.injEq, Prod.mk.injEq] at h
        have : p.2.length < cs.length := ih hs
        rw [← h.2, List.length_cons]
        omega

/-- A place inside a document type. -/
inductive DoctypePlace where
  /-- Before the internal subset. -/
  | before (q : Quoting)
  /-- In the internal subset, outside its markup. -/
  | subset
  /-- Behind an opening bracket in the subset and characters that leave its markup open. -/
  | undecided (seen : List Char)
  /-- In markup that ends with the next bracket, wherever it stands. -/
  | plain
  /-- In a declaration that may hold quoted texts. -/
  | quoting (q : Quoting)
  /-- In a comment, behind so many hyphens. -/
  | comment (hyphens : Nat)
  /-- In a processing instruction, behind a question mark or not. -/
  | instruction (mark : Bool)
  /-- Behind the internal subset. -/
  | behind
deriving DecidableEq

/-- What the markup of the internal subset begins with that may hold a bracket before its end, and
the place behind that. -/
def DoctypePlace.markup : List (List Char × DoctypePlace) :=
  [(['?'], .instruction false),
    (['!', '-', '-'], .comment 0),
    (['!', 'E', 'N', 'T', 'I', 'T', 'Y'], .quoting .outside),
    (['!', 'A', 'T', 'T', 'L', 'I', 'S', 'T'], .quoting .outside),
    (['!', 'N', 'O', 'T', 'A', 'T', 'I', 'O', 'N'], .quoting .outside)]

/-- The place in the internal subset behind an opening bracket and further characters. -/
def DoctypePlace.behindBracket (seen : List Char) : DoctypePlace :=
  match markup.find? (·.1 == seen) with
  | some (_, place) => place
  | none =>
    if markup.any fun m => seen.isPrefixOf m.1 then .undecided seen
    else if seen.getLast? == some '>' then .subset else .plain

/-- The place after a character; `none` at the bracket that ends the document type. -/
def DoctypePlace.after (p : DoctypePlace) (c : Char) : Option DoctypePlace :=
  match p with
  | .before q =>
    if q == .outside && c == '>' then none
    else some (if q == .outside && c == '[' then .subset else .before (q.after c))
  | .behind => if c == '>' then none else some .behind
  | .subset => some (if c == ']' then .behind else if c == '<' then behindBracket [] else .subset)
  | .undecided seen => some (behindBracket (seen ++ [c]))
  | .plain => some (if c == '>' then .subset else .plain)
  | .quoting q => some (if q == .outside && c == '>' then .subset else .quoting (q.after c))
  | .comment hyphens =>
    some (if c == '-' then .comment (min 2 (hyphens + 1))
      else if c == '>' && hyphens == 2 then .subset else .comment 0)
  | .instruction mark => some (if mark && c == '>' then .subset else .instruction (c == '?'))

/-- The characters of a document type up to its bracket, and what follows. -/
def scanDoctype? (p : DoctypePlace) : List Char → Option (List Char × List Char)
  | [] => none
  | c :: cs =>
    match p.after c with
    | none => some ([], cs)
    | some p' => (scanDoctype? p' cs).map fun r => (c :: r.1, r.2)

theorem length_of_scanDoctype? {p : DoctypePlace} {cs body rest : List Char}
    (h : scanDoctype? p cs = some (body, rest)) : rest.length < cs.length := by
  induction cs generalizing p body rest with
  | nil => cases h
  | cons c cs ih =>
    simp only [scanDoctype?] at h
    split at h
    · simp only [Option.some.injEq, Prod.mk.injEq] at h
      simp [h.2]
    · obtain ⟨r, hr, he⟩ := Option.map_eq_some_iff.1 h
      simp only [Prod.mk.injEq] at he
      have : r.2.length < cs.length := ih hr
      rw [← he.2, List.length_cons]
      omega

/-! ## Markup -/

/-- The comment behind an exclamation mark. It begins with two hyphens and ends with the first
bracket behind two further ones. -/
def nextComment (cs : List Char) : Step :=
  match cutAfter? ['-', '-', '>'] (cs.drop 2) with
  | none => .failed (.unclosed .comment) []
  | some (_, rest) =>
    if ['-', '-'].isPrefixOf cs then .token .skipped rest
    else .failed (.unclosed .comment) rest

/-- The section of character data behind an exclamation mark. -/
def nextCdata (cs : List Char) : Step :=
  match cutAfter? [']', ']', '>'] cs with
  | none => .failed (.unclosed .cdata) []
  | some (body, rest) =>
    if ['[', 'C', 'D', 'A', 'T', 'A', '['].isPrefixOf body then .token (.cdata (body.drop 7)) rest
    else .failed (.unclosed .cdata) rest

/-- The document type behind an exclamation mark. Its keyword may be written in any case, and a name
has to follow. -/
def nextDoctype (cs : List Char) : Step :=
  match scanDoctype? (.before .outside) cs with
  | none => .failed (.unclosed .doctype) []
  | some (body, rest) =>
    if (body.take 7).map Char.toUpper != ['D', 'O', 'C', 'T', 'Y', 'P', 'E'] then
      .failed (.unclosed .doctype) rest
    else if (body.drop 7).all isTagSpace then .failed .namelessDoctype rest
    else .token .skipped rest

/-- What lacks its end when the rest `cs` of a document begins with a question mark behind a
bracket. -/
def unclosedInstruction (cs : List Char) : Unclosed :=
  if ['?', 'x', 'm', 'l'].isPrefixOf cs && (cs.drop 4).head?.all fun c => isTagSpace c || c == '?'
  then .declaration else .instruction

/-- The processing instruction or declaration that begins with the question mark of `cs`. -/
def nextInstruction (cs : List Char) : Step :=
  match cutAfter? ['?', '>'] cs with
  | none => .failed (.unclosed (unclosedInstruction cs)) []
  | some ([], rest) => .failed (.unclosed .instruction) rest
  | some (_ :: _, rest) => .token .skipped rest

/-- The start tag, or tag of an empty element, behind a bracket. -/
def nextTag (cs : List Char) : Step :=
  match scanTag .outside cs with
  | .error u => .failed (.unclosed u) []
  | .ok (tag, rest) =>
    if tag.getLast? == some '/' then .token (.empty tag.dropLast) rest
    else .token (.opening tag) rest

/-- The markup behind an opening bracket. Where its kind cannot be told, the error is noticed in
front of the bracket. -/
def nextMarkup : List Char → Step
  | [] => .failed (.unclosed .tag) ['<']
  | '!' :: '-' :: cs => nextComment ('-' :: cs)
  | '!' :: '[' :: cs => nextCdata ('[' :: cs)
  | '!' :: 'D' :: cs => nextDoctype ('D' :: cs)
  | '!' :: 'd' :: cs => nextDoctype ('d' :: cs)
  | '!' :: cs => .failed .unknownMarkup ('<' :: '!' :: cs)
  | '?' :: cs => nextInstruction ('?' :: cs)
  | '/' :: cs =>
    match scanTag .outside cs with
    | .error u => .failed (.unclosed u) []
    | .ok (tag, rest) => .token (.closing tag) rest
  | c :: cs => nextTag (c :: cs)

/-- Whether a character can stand in a reference. -/
def isReferenceChar (c : Char) : Bool := c != ';' && c != '&' && c != '<'

/-- The reference behind an ampersand. It reaches its semicolon before the next ampersand or
bracket. -/
def nextReference (cs : List Char) : Step :=
  match cs.dropWhile isReferenceChar with
  | ';' :: rest => .token (.reference (cs.takeWhile isReferenceChar)) rest
  | rest => .failed .unclosedReference rest

/-- Whether a character can stand in text. -/
def isTextChar (c : Char) : Bool := c != '<' && c != '&'

/-- The first token of a document, or the first error. -/
def nextToken : List Char → Step
  | [] => .finished
  | '<' :: cs => nextMarkup cs
  | '&' :: cs => nextReference cs
  | c :: cs => .token (.text (c :: cs.takeWhile isTextChar)) (cs.dropWhile isTextChar)

/-! ## Progress -/

section Progress

variable {cs rest : List Char} {t : Token}

theorem length_of_nextComment (h : nextComment cs = .token t rest) : rest.length ≤ cs.length := by
  unfold nextComment at h
  split at h
  · cases h
  · rename_i hc
    have := length_of_cutAfter? hc
    rw [List.length_drop] at this
    split at h <;> cases h
    omega

theorem length_of_nextCdata (h : nextCdata cs = .token t rest) : rest.length ≤ cs.length := by
  unfold nextCdata at h
  split at h
  · cases h
  · rename_i hc
    split at h <;> cases h
    exact length_of_cutAfter? hc

theorem length_of_nextDoctype (h : nextDoctype cs = .token t rest) : rest.length ≤ cs.length := by
  unfold nextDoctype at h
  split at h
  · cases h
  · rename_i hc
    split at h
    · cases h
    · split at h <;> cases h
      exact Nat.le_of_lt (length_of_scanDoctype? hc)

theorem length_of_nextInstruction (h : nextInstruction cs = .token t rest) :
    rest.length ≤ cs.length := by
  unfold nextInstruction at h
  split at h
  · cases h
  · cases h
  · rename_i hc
    cases h
    exact length_of_cutAfter? hc

theorem length_of_nextTag (h : nextTag cs = .token t rest) : rest.length < cs.length := by
  unfold nextTag at h
  split at h
  · cases h
  · rename_i hc
    have := length_of_scanTag hc
    split at h <;> cases h <;> exact this

theorem length_of_nextMarkup (h : nextMarkup cs = .token t rest) : rest.length ≤ cs.length := by
  unfold nextMarkup at h
  split at h
  · cases h
  · exact Nat.le_succ_of_le (length_of_nextComment h)
  · exact Nat.le_succ_of_le (length_of_nextCdata h)
  · exact Nat.le_succ_of_le (length_of_nextDoctype h)
  · exact Nat.le_succ_of_le (length_of_nextDoctype h)
  · cases h
  · exact length_of_nextInstruction h
  · split at h
    · cases h
    · rename_i hc
      cases h
      exact Nat.le_succ_of_le (Nat.le_of_lt (length_of_scanTag hc))
  · exact Nat.le_of_lt (length_of_nextTag h)

theorem length_of_nextReference (h : nextReference cs = .token t rest) :
    rest.length ≤ cs.length := by
  unfold nextReference at h
  split at h
  · rename_i hd
    cases h
    have := (List.dropWhile_suffix (l := cs) isReferenceChar).length_le
    rw [hd] at this
    exact Nat.le_of_succ_le this
  · cases h

/-- A token takes at least one character. -/
theorem length_of_nextToken (h : nextToken cs = .token t rest) : rest.length < cs.length := by
  unfold nextToken at h
  split at h
  · cases h
  · exact Nat.lt_succ_of_le (length_of_nextMarkup h)
  · exact Nat.lt_succ_of_le (length_of_nextReference h)
  · cases h
    exact Nat.lt_succ_of_le (List.dropWhile_suffix _).length_le

end Progress

/-! ## The tokens of a document -/

/-- The tokens of a document with the offsets where they stop, and the error behind them with the
offset where it is noticed. -/
structure Tokens where
  /-- The tokens, in document order. -/
  tokens : List (Token × Nat)
  /-- The error that ends them. -/
  failure : Option (SyntaxError × Nat)

/-- The bytes of `cs` in front of its suffix `rest`. -/
def bytesBefore (rest cs : List Char) : Nat := utf8Length (cs.take (cs.length - rest.length))

/-- The tokens of the rest of a document that begins at a byte offset. -/
def tokensFrom (offset : Nat) (cs : List Char) : Tokens :=
  match _h : nextToken cs with
  | .finished => ⟨[], none⟩
  | .failed e rest => ⟨[], some (e, offset + bytesBefore rest cs)⟩
  | .token t rest =>
    let stop := offset + bytesBefore rest cs
    let more := tokensFrom stop rest
    ⟨(t, stop) :: more.tokens, more.failure⟩
termination_by cs.length
decreasing_by exact length_of_nextToken _h

end ContentSchema.Markup
