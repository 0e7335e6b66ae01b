import ContentSchema.Proofs.Vocabulary.Token

/-!
# The grammar of tokens

A token spells a text (`Spells`): from the left, each backslash begins an escape, and every other
character stands for itself. An escape is a backslash, one of three letters, or a letter with a
fixed number of hexadecimal digits, which name a character (`Escape`).

Reading takes the characters behind such a letter as a number, and a number may begin with a plus
sign. So it accepts one more kind of escape (`SignedEscape`), and besides exactly the grammar
(`unescape?_eq_some_iff_spells`).
-/
namespace ContentSchema.Token

/-! ## Characters by their numbers -/

/-- Whether hexadecimal digits name a character. -/
structure Names (digits : List Char) (c : Char) : Prop where
  /-- There are only digits. -/
  isDigit : ∀ d ∈ digits, d.toLower ∈ hexDigits
  /-- Their number is that of the character. -/
  number : hexNumber digits = c.toNat

theorem scalar?_eq_some_iff {n : Nat} {c : Char} : Text.scalar? n = some c ↔ n = c.toNat := by
  have hvalid : c.toNat.isValidChar := c.valid
  unfold Text.scalar?
  constructor
  · intro h
    split at h
    · rename_i hn
      rw [← Option.some.inj h, Char.ofNat, dif_pos hn]
      rfl
    · cases h
  · rintro rfl
    rw [if_pos hvalid, Char.ofNat_toNat]

/-- A numbered escape has digits that name a character; in front of them may stand a plus sign. -/
theorem numberEscape?_eq_some_iff {ds : List Char} {c : Char} :
    numberEscape? ds = some c ↔ ∃ ds', ds' ≠ [] ∧ (ds = ds' ∨ ds = '+' :: ds') ∧ Names ds' c := by
  have hread : readWord32 16 ds = .ok c.toNat ↔ _ := readWord32_hex_iff c.val.toNat_lt
  unfold numberEscape?
  constructor
  · intro h
    split at h
    · rename_i n hn
      rw [scalar?_eq_some_iff.1 h, hread] at hn
      obtain ⟨ds', hne, hds, hdigits, hnumber⟩ := hn
      exact ⟨ds', hne, hds, hdigits, hnumber⟩
    · cases h
  · rintro ⟨ds', hne, hds, hdigits, hnumber⟩
    rw [hread.2 ⟨ds', hne, hds, hdigits, hnumber⟩]
    exact scalar?_eq_some_iff.2 rfl

/-! ## Escapes -/

/-- The letters of numbered escapes, with the number of digits behind them. -/
def numbered : List (Char × Nat) := [('x', 2), ('u', 4), ('U', 8)]

/-- What stands behind a backslash, and the character that it stands for. -/
inductive Escape : List Char → Char → Prop
  /-- A backslash is doubled. -/
  | backslash : Escape ['\\'] '\\'
  /-- A tab. -/
  | tab : Escape ['t'] '\t'
  /-- A line feed. -/
  | lineFeed : Escape ['n'] '\n'
  /-- A carriage return. -/
  | carriageReturn : Escape ['r'] '\r'
  /-- A character by its number. -/
  | number {letter : Char} {width : Nat} {digits : List Char} {c : Char}
    (hletter : (letter, width) ∈ numbered) (hwidth : digits.length = width)
    (hnames : Names digits c) : Escape (letter :: digits) c

/-- A numbered escape with a plus sign in the place of its first digit. -/
inductive SignedEscape : List Char → Char → Prop
  /-- The number has one digit less. -/
  | number {letter : Char} {width : Nat} {digits : List Char} {c : Char}
    (hletter : (letter, width) ∈ numbered) (hwidth : digits.length + 1 = width)
    (hnames : Names digits c) : SignedEscape (letter :: '+' :: digits) c

/-- Whether a token spells a text: from the left, each backslash begins one of the given escapes,
and every other character stands for itself. -/
inductive Spells (escapes : List Char → Char → Prop) : List Char → List Char → Prop
  /-- Nothing is spelled by nothing. -/
  | nil : Spells escapes [] []
  /-- A character that is no backslash. -/
  | plain {c : Char} {token text : List Char} (hc : c ≠ '\\') (h : Spells escapes token text) :
    Spells escapes (c :: token) (c :: text)
  /-- An escape. -/
  | escape {e : List Char} {c : Char} {token text : List Char} (he : escapes e c)
    (h : Spells escapes token text) : Spells escapes ('\\' :: (e ++ token)) (c :: text)

/-- The escapes that are read. -/
def Readable (e : List Char) (c : Char) : Prop := Escape e c ∨ SignedEscape e c

theorem digitCount?_eq_some_iff {letter : Char} {width : Nat} :
    digitCount? letter = some width ↔ (letter, width) ∈ numbered := by
  unfold digitCount?
  constructor
  · intro h
    split at h <;> cases h <;> decide
  · intro h
    simp only [numbered, List.mem_cons, Prod.mk.injEq, List.not_mem_nil, or_false] at h
    rcases h with ⟨rfl, rfl⟩ | ⟨rfl, rfl⟩ | ⟨rfl, rfl⟩ <;> rfl

/-- A letter with digits behind it stands for no character of its own. -/
theorem letterEscape?_of_numbered {letter : Char} {width : Nat} (h : (letter, width) ∈ numbered) :
    letterEscape? letter = none := by
  have key : ∀ p ∈ numbered, letterEscape? p.1 = none := by decide
  exact key _ h

theorem escape_of_letterEscape? {letter c : Char} (h : letterEscape? letter = some c) :
    Escape [letter] c := by
  unfold letterEscape? at h
  split at h <;> cases h
  · exact .backslash
  · exact .tab
  · exact .lineFeed
  · exact .carriageReturn

/-- A numbered escape is read if it has digits only, or digits behind a plus sign. -/
theorem readable_number_iff {letter : Char} {width : Nat} (hletter : (letter, width) ∈ numbered)
    {ds : List Char} (hwidth : ds.length = width) {c : Char} :
    Readable (letter :: ds) c ↔ numberEscape? ds = some c := by
  have hwide : ∀ p ∈ numbered, 2 ≤ p.2 := by decide
  rw [numberEscape?_eq_some_iff]
  constructor
  · rintro (h | h)
    · cases h with
      | number hletter' hwidth' hnames =>
        exact ⟨ds, List.ne_nil_of_length_pos (by have := hwide _ hletter'; omega), .inl rfl, hnames⟩
      | backslash | tab | lineFeed | carriageReturn => exact absurd hletter (by simp [numbered])
    · cases h with
      | @number _ _ digits _ hletter' hwidth' hnames =>
        exact ⟨digits, List.ne_nil_of_length_pos (by have := hwide _ hletter'; omega), .inr rfl,
          hnames⟩
  · rintro ⟨digits, -, rfl | rfl, hnames⟩
    · exact .inl (.number hletter hwidth hnames)
    · exact .inr (.number hletter hwidth hnames)

theorem unescapeChars?_of_readable_number {letter : Char} {width : Nat}
    (hletter : (letter, width) ∈ numbered) {ds : List Char} (hwidth : ds.length = width) {c : Char}
    (h : Readable (letter :: ds) c) (rest : List Char) :
    unescapeChars? ('\\' :: letter :: (ds ++ rest)) = (unescapeChars? rest).map (c :: ·) :=
  unescapeChars?_digits (letterEscape?_of_numbered hletter) (digitCount?_eq_some_iff.2 hletter)
    hwidth ((readable_number_iff hletter hwidth).1 h) rest

/-- An escape is read whatever follows it. -/
theorem unescapeChars?_readable {e : List Char} {c : Char} (he : Readable e c) (rest : List Char) :
    unescapeChars? ('\\' :: (e ++ rest)) = (unescapeChars? rest).map (c :: ·) := by
  rcases he with he | he
  · cases he with
    | backslash | tab | lineFeed | carriageReturn => exact unescapeChars?_letter rfl rest
    | number hletter hwidth hnames =>
      exact unescapeChars?_of_readable_number hletter hwidth
        (.inl (.number hletter hwidth hnames)) rest
  · cases he with
    | number hletter hwidth hnames =>
      exact unescapeChars?_of_readable_number hletter (by simpa using hwidth)
        (.inr (.number hletter hwidth hnames)) rest

/-- What a token is read as is what it spells. -/
theorem spells_of_unescapeChars? {token text : List Char} (h : unescapeChars? token = some text) :
    Spells Readable token text := by
  fun_induction unescapeChars? token generalizing text with
  | case1 =>
    cases h
    exact .nil
  | case2 c cs hc ih =>
    obtain ⟨text, htext, rfl⟩ := Option.map_eq_some_iff.1 h
    exact .plain (bne_iff_ne.1 hc) (ih htext)
  | case4 c hc letter cs e hletter ih =>
    obtain ⟨text, htext, rfl⟩ := Option.map_eq_some_iff.1 h
    rw [bne_iff_ne, not_not] at hc
    exact hc ▸ .escape (.inl (escape_of_letterEscape? hletter)) (ih htext)
  | case6 c hc letter cs width hwidth _ hlength e he ih =>
    obtain ⟨text, htext, rfl⟩ := Option.map_eq_some_iff.1 h
    rw [bne_iff_ne, not_not] at hc
    have hreadable := (readable_number_iff (digitCount?_eq_some_iff.1 hwidth)
      (List.length_take_of_le (Nat.not_lt.1 hlength))).2 he
    have hspells := Spells.escape hreadable (ih htext)
    rwa [List.cons_append, List.take_append_drop, ← hc] at hspells
  | case3 | case5 | case7 | case8 => cases h

theorem unescapeChars?_eq_some_iff {token text : List Char} :
    unescapeChars? token = some text ↔ Spells Readable token text := by
  refine ⟨spells_of_unescapeChars?, fun h => ?_⟩
  induction h with
  | nil => rw [unescapeChars?]
  | @plain c token text hc h ih =>
    rw [unescapeChars?.eq_def]
    simp only [bne_iff_ne, ne_eq, hc, not_false_eq_true, if_true, ih, Option.map_some]
  | escape he _ ih => rw [unescapeChars?_readable he, ih, Option.map_some]

/-! ## Signs -/

/-- Whether, from the left, a numbered escape begins with a plus sign. -/
def HasSign (token : List Char) : Prop :=
  ∃ before text letter width after, Spells Escape before text ∧ (letter, width) ∈ numbered ∧
    token = before ++ '\\' :: letter :: '+' :: after

theorem Spells.imp {escapes escapes' : List Char → Char → Prop} {token text : List Char}
    (h : Spells escapes token text) (himp : ∀ e c, escapes e c → escapes' e c) :
    Spells escapes' token text := by
  induction h with
  | nil => exact .nil
  | plain hc _ ih => exact .plain hc ih
  | escape he _ ih => exact .escape (himp _ _ he) ih

theorem Spells.of_plain {escapes : List Char → Char → Prop} {c : Char} {token text : List Char}
    (hc : c ≠ '\\') (h : Spells escapes (c :: token) text) :
    ∃ text', Spells escapes token text' := by
  cases h with
  | plain _ h => exact ⟨_, h⟩
  | escape => exact absurd rfl hc

theorem Spells.of_backslash {escapes : List Char → Char → Prop} {token text : List Char}
    (h : Spells escapes ('\\' :: token) text) :
    ∃ e c token' text', token = e ++ token' ∧ escapes e c ∧ Spells escapes token' text' := by
  cases h with
  | plain hc _ => exact absurd rfl hc
  | escape he h => exact ⟨_, _, _, _, rfl, he, h⟩

/-- The escapes of one letter, and the numbered ones. -/
theorem Escape.letter_or_number {e : List Char} {c : Char} (h : Escape e c) :
    (∃ letter, e = [letter] ∧ letterEscape? letter = some c) ∨
      ∃ letter width digits, e = letter :: digits ∧ (letter, width) ∈ numbered ∧
        digits.length = width := by
  cases h with
  | number hletter hwidth _ => exact .inr ⟨_, _, _, rfl, hletter, hwidth⟩
  | backslash | tab | lineFeed | carriageReturn => exact .inl ⟨_, rfl, rfl⟩

/-- An escape shows where it ends. -/
theorem Escape.eq_of_append {e e' cs cs' : List Char} {c c' : Char} (h : Escape e c)
    (h' : Escape e' c') (heq : e ++ cs = e' ++ cs') : e = e' := by
  rcases h.letter_or_number with ⟨l, rfl, hl⟩ | ⟨l, width, digits, rfl, hl, hwidth⟩ <;>
    rcases h'.letter_or_number with ⟨l', rfl, hl'⟩ | ⟨l', width', digits', rfl, hl', hwidth'⟩ <;>
    obtain ⟨rfl, htail⟩ := List.cons.inj heq
  · rfl
  · rw [letterEscape?_of_numbered hl'] at hl
    cases hl
  · rw [letterEscape?_of_numbered hl] at hl'
    cases hl'
  · have hsame := (digitCount?_eq_some_iff.2 hl).symm.trans (digitCount?_eq_some_iff.2 hl')
    rw [(List.append_inj htail (by rw [hwidth, hwidth', Option.some.inj hsame])).1]

/-- Behind the letter of a numbered escape stands a digit. -/
theorem Escape.append_ne_sign {e cs after : List Char} {c letter : Char} {width : Nat}
    (h : Escape e c) (hletter : (letter, width) ∈ numbered) : e ++ cs ≠ letter :: '+' :: after := by
  intro heq
  cases h with
  | @number letter' width' digits _ hletter' hwidth hnames =>
    have hwide : ∀ p ∈ numbered, 2 ≤ p.2 := by decide
    cases digits with
    | nil => exact absurd (hwide _ hletter') (by simp [← hwidth])
    | cons d ds =>
      obtain rfl := (List.cons.inj (List.cons.inj heq).2).1
      exact absurd (hnames.isDigit _ (.head _)) (by decide)
  | backslash | tab | lineFeed | carriageReturn =>
    obtain rfl := (List.cons.inj heq).1
    exact absurd hletter (by simp [numbered])

/-- No text is spelled without signs by a token with a sign. -/
theorem not_spells_of_hasSign {token text : List Char} (hsign : HasSign token) :
    ¬ Spells Escape token text := by
  obtain ⟨before, spelled, letter, width, after, hbefore, hletter, rfl⟩ := hsign
  intro h
  induction hbefore generalizing text with
  | nil =>
    obtain ⟨e, c, token, text, htoken, he, -⟩ := h.of_backslash
    exact he.append_ne_sign hletter htoken.symm
  | plain hc _ ih =>
    obtain ⟨text', h⟩ := h.of_plain hc
    exact ih h
  | @escape e c before text he _ ih =>
    rw [List.cons_append, List.append_assoc] at h
    obtain ⟨e', c', token, text', htoken, he', h⟩ := h.of_backslash
    obtain rfl := he.eq_of_append he' htoken
    rw [List.append_cancel_left htoken] at ih
    exact ih h

/-- What a token with signs spells it spells without them, unless it has one. -/
theorem spells_or_hasSign {token text : List Char} (h : Spells Readable token text) :
    Spells Escape token text ∨ HasSign token := by
  induction h with
  | nil => exact .inl .nil
  | plain hc _ ih =>
    refine ih.imp (.plain hc) ?_
    rintro ⟨before, text, letter, width, after, hbefore, hletter, rfl⟩
    exact ⟨_, _, letter, width, after, hbefore.plain hc, hletter, rfl⟩
  | escape he _ ih =>
    rcases he with he | he
    · refine ih.imp (.escape he) ?_
      rintro ⟨before, text, letter, width, after, hbefore, hletter, rfl⟩
      exact ⟨_, _, letter, width, after, hbefore.escape he, hletter, by simp⟩
    · cases he with
      | number hletter _ _ => exact .inr ⟨[], [], _, _, _, .nil, hletter, rfl⟩

/-! ## Tokens -/

/-- A token is read exactly as the text that it spells; the escapes are those of the grammar and,
which the grammar leaves out, numbered ones with a plus sign in the place of the first digit. So a
token that the grammar has is read, and one that is read is in the grammar unless it has such a
sign. -/
theorem unescape?_eq_some_iff_spells (token : String) :
    (∀ text, unescape? token = some text ↔ Spells Readable token.toList text.toList) ∧
      ((∃ text, Spells Escape token.toList text) ↔
        (unescape? token).isSome ∧ ¬ HasSign token.toList) := by
  have hread (text : String) :
      unescape? token = some text ↔ Spells Readable token.toList text.toList := by
    rw [← unescapeChars?_eq_some_iff, unescape?, Option.map_eq_some_iff]
    constructor
    · rintro ⟨cs, hcs, rfl⟩
      rw [hcs, String.toList_ofList]
    · intro h
      exact ⟨_, h, String.ofList_toList⟩
  refine ⟨hread, ?_, ?_⟩
  · rintro ⟨text, h⟩
    have hreadable := (hread (String.ofList text)).2 (by
      rw [String.toList_ofList]
      exact h.imp fun _ _ => .inl)
    exact ⟨by rw [hreadable]; rfl, fun hsign => not_spells_of_hasSign hsign h⟩
  · rintro ⟨hsome, hsign⟩
    obtain ⟨text, htext⟩ := Option.isSome_iff_exists.1 hsome
    exact ⟨_, (spells_or_hasSign ((hread text).1 htext)).resolve_right hsign⟩

/-- A sign in the place of a digit is read, although the grammar has no such escape. -/
theorem unescape?_signed :
    unescape? "\\x+1" = some "\x01" ∧ ¬ ∃ text, Spells Escape "\\x+1".toList text := by
  refine ⟨by decide +kernel, ?_⟩
  rintro ⟨text, h⟩
  exact not_spells_of_hasSign ⟨[], [], 'x', 2, ['1'], .nil, by decide, rfl⟩ h

end ContentSchema.Token
