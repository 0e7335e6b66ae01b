import ContentSchema.Proofs.Markup.Attribute

/-!
# Tokens of written documents

What a document is written with is cut into tokens again. Tags stand between brackets and hold no
other ones (`nextToken_opening`, `nextToken_empty`, `nextToken_closing`). In text every run of plain
characters is one token (`nextToken_text`), and so is every reference (`nextToken_reference`).
-/
namespace ContentSchema.Markup

/-! ## Tags -/

/-- Whether characters hold no closing bracket, and quotes in pairs. -/
def Balanced (cs : List Char) : Prop :=
  '>' ∉ cs ∧ cs.foldl Quoting.after .outside = .outside

theorem scanTag_append {cs : List Char} (h : '>' ∉ cs) (q : Quoting) (rest : List Char) :
    scanTag q (cs ++ rest) =
      (scanTag (cs.foldl Quoting.after q) rest).map fun p => (cs ++ p.1, p.2) := by
  induction cs generalizing q with
  | nil => cases hs : scanTag q rest <;> simp [hs, Except.map]
  | cons c cs ih =>
    rw [List.mem_cons, not_or] at h
    obtain ⟨hc, hcs⟩ := h
    have hne : (c == '>') = false := beq_eq_false_iff_ne.2 (Ne.symm hc)
    rw [List.cons_append, scanTag, hne, Bool.and_false, if_neg Bool.false_ne_true, ih hcs,
      List.foldl_cons]
    cases scanTag (cs.foldl Quoting.after (q.after c)) rest <;> rfl

/-- A tag ends with the bracket behind it. -/
theorem scanTag_of_balanced {cs : List Char} (h : Balanced cs) (rest : List Char) :
    scanTag .outside (cs ++ '>' :: rest) = .ok (cs, rest) := by
  obtain ⟨hmem, hfold⟩ := h
  rw [scanTag_append hmem, hfold, scanTag, if_pos (by decide)]
  simp [Except.map]

theorem Balanced.append {as bs : List Char} (ha : Balanced as) (hb : Balanced bs) :
    Balanced (as ++ bs) := by
  obtain ⟨ha, hafold⟩ := ha
  obtain ⟨hb, hbfold⟩ := hb
  exact ⟨fun h => (List.mem_append.1 h).elim ha hb, by rw [List.foldl_append, hafold, hbfold]⟩

theorem balanced_of_unquoted {cs : List Char} (h : ∀ c ∈ cs, c ≠ '"' ∧ c ≠ '\'' ∧ c ≠ '>') :
    Balanced cs := by
  refine ⟨fun hc => (h _ hc).2.2 rfl, ?_⟩
  induction cs with
  | nil => rfl
  | cons c cs ih =>
    obtain ⟨hdouble, hsingle, -⟩ := h c (.head _)
    have hafter : Quoting.outside.after c = .outside := by simp [Quoting.after, hdouble, hsingle]
    rw [List.foldl_cons, hafter]
    exact ih fun d hd => h d (.tail _ hd)

theorem balanced_of_key {cs : List Char} (h : ∀ c ∈ cs, isKeyChar c = true) : Balanced cs :=
  balanced_of_unquoted fun c hc => by
    obtain ⟨-, -, hdouble, hsingle, -, hgreater, -⟩ := ne_of_isKeyChar (h c hc)
    exact ⟨hdouble, hsingle, hgreater⟩

/-- Quotes around characters without them make a pair. -/
theorem balanced_quoted {cs : List Char} (hq : '"' ∉ cs) (hg : '>' ∉ cs) :
    Balanced ('"' :: (cs ++ ['"'])) := by
  refine ⟨by simp [hg], ?_⟩
  have hinside : cs.foldl Quoting.after .double = .double := by
    clear hg
    induction cs with
    | nil => rfl
    | cons c cs ih =>
      rw [List.mem_cons, not_or] at hq
      obtain ⟨hc, hcs⟩ := hq
      have hafter : Quoting.double.after c = .double := by simp [Quoting.after, Ne.symm hc]
      rw [List.foldl_cons, hafter, ih hcs]
  rw [List.foldl_cons, List.foldl_append]
  simp only [show Quoting.outside.after '"' = .double by decide, hinside]
  decide

theorem balanced_writtenAttributes {pairs : List (List Char × String)}
    (h : ∀ p ∈ pairs, IsKey p.1) : Balanced (writtenAttributes pairs) := by
  induction pairs with
  | nil => exact ⟨List.not_mem_nil, rfl⟩
  | cons p pairs ih =>
    obtain ⟨key, value⟩ := p
    obtain ⟨-, hkey⟩ := h _ (.head _)
    have hstart : Balanced [' '] := ⟨by decide, by decide⟩
    have hequals : Balanced ['='] := ⟨by decide, by decide⟩
    have hvalue : Balanced ('"' :: (escapedValue value ++ ['"'])) :=
      balanced_quoted (quote_notMem_escapedValue value) fun hg => (mem_escapeValue hg).2.1 rfl
    have hpair := ((hstart.append (balanced_of_key hkey)).append hequals).append hvalue
    rw [writtenAttributes_cons]
    simpa using hpair.append (ih fun q hq => h q (.tail _ hq))

section Tag

variable {name : List Char} (hname : IsKey name) {pairs : List (List Char × String)}
  (hpairs : ∀ p ∈ pairs, IsKey p.1)

include hname

theorem nextMarkup_name (cs : List Char) : nextMarkup (name ++ cs) = nextTag (name ++ cs) := by
  obtain ⟨hne, hkey⟩ := hname
  obtain ⟨c, k, rfl⟩ := List.exists_cons_of_ne_nil hne
  obtain ⟨-, -, -, -, -, -, hslash, hmark, hquestion⟩ := ne_of_isKeyChar (hkey c (.head _))
  rw [List.cons_append]
  unfold nextMarkup
  split <;> simp_all

theorem getLast_writtenTag :
    (name ++ writtenAttributes pairs).getLast? ≠ some '/' := by
  obtain ⟨hne, hkey⟩ := hname
  rcases List.eq_nil_or_concat pairs with rfl | ⟨front, p, rfl⟩
  · rw [show writtenAttributes [] = [] by rfl, List.append_nil]
    intro hlast
    have hmem := List.mem_of_getLast? hlast
    exact (ne_of_isKeyChar (hkey _ hmem)).2.2.2.2.2.2.1 rfl
  · have hend : name ++ writtenAttributes (front.concat p) =
        (name ++ writtenAttributes front ++
          ' ' :: p.1 ++ '=' :: '"' :: escapedValue p.2) ++ ['"'] := by
      simp [writtenAttributes, writtenAttribute, escapedValue]
    rw [hend, List.getLast?_concat]
    decide

include hpairs

theorem balanced_writtenTag : Balanced (name ++ writtenAttributes pairs) :=
  (balanced_of_key hname.2).append (balanced_writtenAttributes hpairs)

/-- The start tag of an element is one token. -/
theorem nextToken_opening (rest : List Char) :
    nextToken ('<' :: (name ++ writtenAttributes pairs ++ '>' :: rest)) =
      .token (.opening (name ++ writtenAttributes pairs)) rest := by
  have hmarkup := nextMarkup_name hname (writtenAttributes pairs ++ '>' :: rest)
  rw [← List.append_assoc] at hmarkup
  rw [nextToken, hmarkup, nextTag, scanTag_of_balanced (balanced_writtenTag hname hpairs)]
  simp only [beq_iff_eq, if_neg (getLast_writtenTag hname)]

/-- The tag of an empty element is one token. -/
theorem nextToken_empty (rest : List Char) :
    nextToken ('<' :: (name ++ writtenAttributes pairs ++ '/' :: '>' :: rest)) =
      .token (.empty (name ++ writtenAttributes pairs)) rest := by
  have hslash : Balanced ['/'] := ⟨by decide, by decide⟩
  have hscan := scanTag_of_balanced ((balanced_writtenTag hname hpairs).append hslash) rest
  rw [List.append_assoc _ ['/'], List.singleton_append] at hscan
  have hmarkup := nextMarkup_name hname (writtenAttributes pairs ++ '/' :: '>' :: rest)
  rw [← List.append_assoc] at hmarkup
  rw [nextToken, hmarkup, nextTag, hscan]
  simp only [List.getLast?_concat, List.dropLast_concat, BEq.rfl, if_true]

omit hpairs

/-- An end tag is one token. -/
theorem nextToken_closing (rest : List Char) :
    nextToken ('<' :: '/' :: (name ++ '>' :: rest)) = .token (.closing name) rest := by
  rw [nextToken, nextMarkup, scanTag_of_balanced (balanced_of_key hname.2)]

end Tag

/-! ## Text -/

/-- What is written for text begins with a bracket or an ampersand, unless a character of it stands
for itself. -/
theorem nextToken_text {c : Char} {cs rest : List Char} (hc : isTextChar c = true)
    (hcs : ∀ d ∈ cs, isTextChar d = true) (hrest : ∀ d, rest.head? = some d → isTextChar d = false) :
    nextToken (c :: (cs ++ rest)) = .token (.text (c :: cs)) rest := by
  have htake : (cs ++ rest).takeWhile isTextChar = cs := by
    rw [List.takeWhile_append_of_pos hcs]
    cases rest with
    | nil => rw [List.takeWhile_nil, List.append_nil]
    | cons d rest =>
      rw [List.takeWhile_cons_of_neg (by rw [hrest d rfl]; exact Bool.false_ne_true),
        List.append_nil]
  have hdrop : (cs ++ rest).dropWhile isTextChar = rest := by
    rw [List.dropWhile_append_of_pos hcs]
    cases rest with
    | nil => rw [List.dropWhile_nil]
    | cons d rest =>
      rw [List.dropWhile_cons_of_neg (by rw [hrest d rfl]; exact Bool.false_ne_true)]
  simp only [isTextChar, Bool.and_eq_true, bne_iff_ne, ne_eq] at hc
  unfold nextToken
  split
  · rename_i heq
    cases heq
  · rename_i heq
    cases heq
    exact absurd rfl hc.1
  · rename_i heq
    cases heq
    exact absurd rfl hc.2
  · rename_i heq
    cases heq
    rw [htake, hdrop]

/-- A reference is one token. -/
theorem nextToken_reference {body : List Char}
    (hbody : ∀ d ∈ body, d ≠ ';' ∧ d ≠ '&' ∧ d ≠ '<' ∧ d ≠ '>' ∧ d ≠ '"') (rest : List Char) :
    nextToken ('&' :: (body ++ ';' :: rest)) = .token (.reference body) rest := by
  have hpos : ∀ d ∈ body, isReferenceChar d = true := fun d hd => by
    obtain ⟨hsemicolon, hamp, hless, -⟩ := hbody d hd
    simp [isReferenceChar, hsemicolon, hamp, hless]
  have htake : (body ++ ';' :: rest).takeWhile isReferenceChar = body := by
    rw [List.takeWhile_append_of_pos hpos, List.takeWhile_cons_of_neg (by decide), List.append_nil]
  have hdrop : (body ++ ';' :: rest).dropWhile isReferenceChar = ';' :: rest := by
    rw [List.dropWhile_append_of_pos hpos, List.dropWhile_cons_of_neg (by decide)]
  rw [nextToken, nextReference, hdrop]
  simp only [htake]

/-! ## The sequence of tokens -/

theorem tokensFrom_token {cs more : List Char} {t : Token} (h : nextToken cs = .token t more)
    (start : Nat) :
    tokensFrom start cs =
      ⟨(t, start + bytesBefore more cs) :: (tokensFrom (start + bytesBefore more cs) more).tokens,
        (tokensFrom (start + bytesBefore more cs) more).failure⟩ := by
  rw [tokensFrom]
  split <;> rename_i heq <;> rw [h] at heq <;> cases heq
  rfl

theorem tokens_of_no_token {cs : List Char} (h : ∀ t more, nextToken cs ≠ .token t more)
    (start : Nat) : (tokensFrom start cs).tokens = [] := by
  rw [tokensFrom]
  split
  · rfl
  · rfl
  · rename_i htoken
    exact absurd htoken (h _ _)

end ContentSchema.Markup
