import ContentSchema.Proofs.Number.Hexadecimal
import ContentSchema.Vocabulary.Token

/-!
# Tokens read back

A character is its own escape, or it is written with a letter or with its number (`EscapeOf`). This is
read without looking at what follows it (`unescapeChars?_escapeChar`), so every text reads back from its
token (`unescape?_escape`), and two texts never share a token (`escape_injective`).

A character is its own escape if it is printable and no backslash, and otherwise its escape is a
backslash with printable characters behind it (`escapeChar_cases`). So tokens are printable
(`isPrintable_of_mem_escape`), and a text is its own token if all its characters are their own escapes
(`escape_eq_self_iff`).
-/
namespace ContentSchema.Token

theorem unescapeChars?_letter {letter c : Char} (h : letterEscape? letter = some c)
    (rest : List Char) :
    unescapeChars? ('\\' :: letter :: rest) = (unescapeChars? rest).map (c :: ·) := by
  rw [unescapeChars?]
  simp only [bne_self_eq_false, Bool.false_eq_true, if_false, h]

/-- The digits of a numbered escape are taken as a whole. -/
theorem unescapeChars?_digits {letter : Char} {width : Nat} (hl : letterEscape? letter = none)
    (hd : digitCount? letter = some width) {ds : List Char} (hlen : ds.length = width) {c : Char}
    (hc : numberEscape? ds = some c) (rest : List Char) :
    unescapeChars? ('\\' :: letter :: (ds ++ rest)) = (unescapeChars? rest).map (c :: ·) := by
  rw [unescapeChars?]
  simp only [bne_self_eq_false, Bool.false_eq_true, if_false, hl, hd, List.length_append]
  rw [if_neg (by omega), List.take_left' hlen, List.drop_left' hlen, hc]

theorem unescapeChars?_number {letter : Char} {width : Nat} (hl : letterEscape? letter = none)
    (hd : digitCount? letter = some width) (hw : 0 < width) (c : Char)
    (hc : c.toNat < 16 ^ width) (rest : List Char) :
    unescapeChars? ('\\' :: letter :: (paddedDigits 16 width c.toNat ++ rest)) =
      (unescapeChars? rest).map (c :: ·) := by
  have hvalid : c.toNat.isValidChar := c.valid
  have hbound : c.toNat < word32Bound := c.val.toNat_lt
  refine unescapeChars?_digits hl hd (length_paddedDigits (show 1 < 16 by decide) hw hc) ?_ rest
  simp only [numberEscape?, readWord32_paddedDigits (show 1 < 16 by decide) (by decide) width
    hbound, Text.scalar?]
  rw [if_pos hvalid, Char.ofNat_toNat]

/-! ## The escape of a character -/

/-- Printable ASCII. -/
def IsPrintable (c : Char) : Prop := 0x20 ≤ c.toNat ∧ c.toNat ≤ 0x7E

/-- What a character is written as. -/
inductive EscapeOf (c : Char) : List Char → Prop
  /-- A printable character, unless it is a backslash, is its own escape. -/
  | self (hc : IsPrintable c) (hback : c ≠ '\\') : EscapeOf c [c]
  /-- Letters stand for the backslash and for white space. -/
  | letter {letter : Char} (hletter : letterEscape? letter = some c) : EscapeOf c ['\\', letter]
  /-- Other characters have their number, with digits enough for it. -/
  | number {letter : Char} {width : Nat} (hc : ¬ IsPrintable c)
    (hletter : digitCount? letter = some width) (hfits : c.toNat < 16 ^ width) :
    EscapeOf c ('\\' :: letter :: paddedDigits 16 width c.toNat)

theorem escapeOf_escapeChar (c : Char) : EscapeOf c (escapeChar c) := by
  have hvalid : c.toNat < 0xD800 ∨ 0xDFFF < c.toNat ∧ c.toNat < 0x110000 := c.valid
  simp only [escapeChar, beq_iff_eq]
  split
  · rename_i hc
    subst hc
    exact .letter rfl
  rename_i hback
  split
  · rename_i hc
    subst hc
    exact .letter rfl
  split
  · rename_i hc
    subst hc
    exact .letter rfl
  split
  · rename_i hc
    subst hc
    exact .letter rfl
  split
  · rename_i hc
    exact .self hc hback
  rename_i hc
  split
  · exact .number hc rfl (by omega)
  split
  · exact .number hc rfl (by omega)
  · exact .number hc rfl (by omega)

theorem of_letterEscape? {letter c : Char} (h : letterEscape? letter = some c) :
    IsPrintable letter ∧ ¬ (IsPrintable c ∧ c ≠ '\\') := by
  unfold letterEscape? at h
  unfold IsPrintable
  split at h <;> cases h <;> decide

theorem of_digitCount? {letter : Char} {width : Nat} (h : digitCount? letter = some width) :
    IsPrintable letter ∧ letterEscape? letter = none ∧ 0 < width := by
  unfold digitCount? at h
  unfold IsPrintable
  split at h <;> cases h <;> decide

/-- The escape of a character is read back whatever follows it. -/
theorem unescapeChars?_escapeChar (c : Char) (rest : List Char) :
    unescapeChars? (escapeChar c ++ rest) = (unescapeChars? rest).map (c :: ·) := by
  have hescape := escapeOf_escapeChar c
  generalize escapeChar c = e at hescape ⊢
  cases hescape with
  | self _ hback =>
    rw [List.singleton_append, unescapeChars?.eq_def]
    simp only [bne_iff_ne, ne_eq, hback, not_false_eq_true, if_true]
  | letter hletter => exact unescapeChars?_letter hletter rest
  | number _ hletter hfits =>
    obtain ⟨-, hnone, hwidth⟩ := of_digitCount? hletter
    exact unescapeChars?_number hnone hletter hwidth c hfits rest

theorem unescapeChars?_flatMap (cs : List Char) :
    unescapeChars? (cs.flatMap escapeChar) = some cs := by
  induction cs with
  | nil => rw [List.flatMap_nil, unescapeChars?]
  | cons c cs ih => rw [List.flatMap_cons, unescapeChars?_escapeChar, ih, Option.map_some]

/-- Every text reads back from its token. -/
theorem unescape?_escape (s : String) : unescape? (escape s) = some s := by
  rw [unescape?, escape, String.toList_ofList, unescapeChars?_flatMap, Option.map_some,
    String.ofList_toList]

/-- Texts with one token are one text. -/
theorem escape_injective {s t : String} (h : escape s = escape t) : s = t := by
  have hs := unescape?_escape s
  rw [h, unescape?_escape t] at hs
  exact (Option.some.inj hs).symm

/-! ## Printable characters -/

theorem isPrintable_of_hexDigit {d : Char} (h : d.toLower ∈ hexDigits) : IsPrintable d := by
  have key : ∀ n < 128, (Char.ofNat n).toLower ∈ hexDigits → 0x20 ≤ n ∧ n ≤ 0x7E := by decide
  refine key d.toNat (toNat_lt_of_hexDigit h) ?_
  rwa [Char.ofNat_toNat]

/-- Either a character is its own escape, or the escape is a backslash and printable characters. -/
theorem escapeChar_cases (c : Char) :
    ((IsPrintable c ∧ c ≠ '\\') ∧ escapeChar c = [c]) ∨
      (¬ (IsPrintable c ∧ c ≠ '\\') ∧
        ∃ d ds, escapeChar c = '\\' :: d :: ds ∧ ∀ e ∈ d :: ds, IsPrintable e) := by
  have hescape := escapeOf_escapeChar c
  generalize escapeChar c = e at hescape ⊢
  cases hescape with
  | self hc hback => exact .inl ⟨⟨hc, hback⟩, rfl⟩
  | letter hletter =>
    obtain ⟨hprintable, hc⟩ := of_letterEscape? hletter
    exact .inr ⟨hc, _, [], rfl, List.forall_mem_singleton.2 hprintable⟩
  | number hc hletter _ =>
    obtain ⟨hprintable, -, -⟩ := of_digitCount? hletter
    exact .inr ⟨fun h => hc h.1, _, _, rfl, List.forall_mem_cons.2
      ⟨hprintable, fun d hd => isPrintable_of_hexDigit (hexDigit_of_mem_paddedDigits hd)⟩⟩

theorem isPrintable_of_mem_escapeChar {c d : Char} (h : d ∈ escapeChar c) : IsPrintable d := by
  rcases escapeChar_cases c with ⟨⟨hc, -⟩, he⟩ | ⟨-, e, ds, he, hds⟩
  · rw [he, List.mem_singleton] at h
    exact h ▸ hc
  · rw [he, List.mem_cons] at h
    rcases h with rfl | h
    · exact ⟨by decide, by decide⟩
    · exact hds d h

/-- Tokens are printable. -/
theorem isPrintable_of_mem_escape {s : String} {d : Char} (h : d ∈ (escape s).toList) :
    IsPrintable d := by
  rw [escape, String.toList_ofList, List.mem_flatMap] at h
  obtain ⟨c, -, hd⟩ := h
  exact isPrintable_of_mem_escapeChar hd

/-- A token is at least as long as its text. -/
theorem length_le_length_flatMap (cs : List Char) :
    cs.length ≤ (cs.flatMap escapeChar).length := by
  induction cs with
  | nil => exact Nat.le_refl 0
  | cons c cs ih =>
    rw [List.flatMap_cons, List.length_append, List.length_cons]
    rcases escapeChar_cases c with ⟨-, he⟩ | ⟨-, d, ds, he, -⟩ <;>
      · rw [he]
        simp only [List.length_cons]
        omega

theorem flatMap_escapeChar_eq_self_iff {cs : List Char} :
    cs.flatMap escapeChar = cs ↔ ∀ c ∈ cs, IsPrintable c ∧ c ≠ '\\' := by
  induction cs with
  | nil => exact iff_of_true rfl nofun
  | cons c cs ih =>
    rw [List.flatMap_cons, List.forall_mem_cons]
    rcases escapeChar_cases c with ⟨hc, he⟩ | ⟨hc, d, ds, he, -⟩
    · rw [he, List.singleton_append, List.cons_inj_right, ih, and_iff_right hc]
    -- an escape is longer than its character, and the others do not make up for it
    · refine iff_of_false (fun h => ?_) fun h => hc h.1
      have hlength := congrArg List.length h
      have hle := length_le_length_flatMap cs
      rw [he] at hlength
      simp only [List.cons_append, List.length_cons, List.length_append] at hlength
      omega

/-- Exactly the texts of printable characters without a backslash are their own tokens. -/
theorem escape_eq_self_iff {s : String} :
    escape s = s ↔ ∀ c ∈ s.toList, IsPrintable c ∧ c ≠ '\\' := by
  rw [← flatMap_escapeChar_eq_self_iff, escape, ← String.toList_inj, String.toList_ofList]

end ContentSchema.Token
