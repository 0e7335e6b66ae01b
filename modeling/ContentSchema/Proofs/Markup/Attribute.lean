import ContentSchema.Markup.Attribute
import ContentSchema.Proofs.Markup.Name
import ContentSchema.Proofs.Markup.Reference
import Mathlib.Data.List.Forall2

/-!
# Attributes of a tag read back

A tag is written as a name and attributes, each with a blank in front. Its name is read back
(`tagName_written`), and so are its attributes, one by one (`attributesOf_written`).
-/
namespace ContentSchema.Markup

/-- Whether a character can stand in the key of a written attribute. -/
def isKeyChar (c : Char) : Bool := isPlainChar c || c == ':'

/-- Whether characters are the key of a written attribute. -/
def IsKey (cs : List Char) : Prop := cs ≠ [] ∧ ∀ c ∈ cs, isKeyChar c = true

/-- The value of an attribute as it is written. -/
def escapedValue (value : String) : List Char := value.toList.flatMap escapeValueChar

/-- Attributes one after the other. -/
def writtenAttributes (pairs : List (List Char × String)) : List Char :=
  pairs.flatMap fun p => writtenAttribute p.1 p.2

theorem isKeyChar_of_plain {c : Char} (h : isPlainChar c = true) : isKeyChar c = true := by
  simp [isKeyChar, h]

/-- A key holds nothing that has a meaning in tags. -/
theorem ne_of_isKeyChar {c : Char} (h : isKeyChar c = true) :
    isTagSpace c = false ∧ c ≠ '=' ∧ c ≠ '"' ∧ c ≠ '\'' ∧ c ≠ '<' ∧ c ≠ '>' ∧ c ≠ '/' ∧ c ≠ '!' ∧
      c ≠ '?' := by
  have hne {d : Char} (hd : isKeyChar d = false) : c ≠ d := fun he => by
    rw [he, hd] at h
    cases h
  refine ⟨?_, hne rfl, hne rfl, hne rfl, hne rfl, hne rfl, hne rfl, hne rfl, hne rfl⟩
  simp [isTagSpace, hne (d := ' ') rfl, hne (d := '\t') rfl, hne (d := '\n') rfl,
    hne (d := '\r') rfl]

theorem writtenAttributes_cons (key : List Char) (value : String)
    (pairs : List (List Char × String)) :
    writtenAttributes ((key, value) :: pairs) =
      ' ' :: (key ++ '=' :: '"' :: (escapedValue value ++ '"' :: writtenAttributes pairs)) := by
  simp [writtenAttributes, writtenAttribute, escapedValue]

theorem readAttributeValue_written (tag rest : List Char) {value : List Char} (hv : '"' ∉ value) :
    readAttributeValue tag ('"' :: (value ++ '"' :: rest)) = .ok (value, rest) := by
  have hpos : ∀ d ∈ value, (d != '"') = true := fun d hd =>
    bne_iff_ne.2 fun he => hv (he ▸ hd)
  have htake : (value ++ '"' :: rest).takeWhile (· != '"') = value := by
    rw [List.takeWhile_append_of_pos hpos, List.takeWhile_cons_of_neg (by simp), List.append_nil]
  have hdrop : (value ++ '"' :: rest).dropWhile (· != '"') = '"' :: rest := by
    rw [List.dropWhile_append_of_pos hpos, List.dropWhile_cons_of_neg (by simp)]
  unfold readAttributeValue
  rw [List.dropWhile_cons_of_neg (by decide)]
  simp only [BEq.rfl, Bool.true_or, if_true, htake, hdrop]

/-- The first attribute is read, and then the others. -/
theorem readAttributes_written_cons (tag rest : List Char) {key value : List Char} (hk : IsKey key)
    (hv : '"' ∉ value) :
    ∃ position, readAttributes tag (' ' :: (key ++ '=' :: '"' :: (value ++ '"' :: rest))) =
      .attribute ⟨position, key, value⟩ :: readAttributes tag rest := by
  obtain ⟨hne, hkey⟩ := hk
  obtain ⟨c, k, rfl⟩ := List.exists_cons_of_ne_nil hne
  have hstart : (' ' :: (c :: k ++ '=' :: '"' :: (value ++ '"' :: rest))).dropWhile isTagSpace =
      c :: (k ++ '=' :: '"' :: (value ++ '"' :: rest)) := by
    rw [List.dropWhile_cons_of_pos (by decide), List.cons_append, List.dropWhile_cons_of_neg]
    rw [(ne_of_isKeyChar (hkey c (.head _))).1]
    exact Bool.false_ne_true
  have hpos : ∀ d ∈ k, (d != '=' && !isTagSpace d) = true := fun d hd => by
    obtain ⟨hspace, hequals, -⟩ := ne_of_isKeyChar (hkey d (.tail _ hd))
    simp [hspace, hequals]
  have htake : (k ++ '=' :: '"' :: (value ++ '"' :: rest)).takeWhile
      (fun d => d != '=' && !isTagSpace d) = k := by
    rw [List.takeWhile_append_of_pos hpos, List.takeWhile_cons_of_neg (by simp), List.append_nil]
  have hdrop : ((k ++ '=' :: '"' :: (value ++ '"' :: rest)).dropWhile
      (fun d => d != '=' && !isTagSpace d)).dropWhile isTagSpace =
        '=' :: '"' :: (value ++ '"' :: rest) := by
    rw [List.dropWhile_append_of_pos hpos, List.dropWhile_cons_of_neg (by simp),
      List.dropWhile_cons_of_neg (by decide)]
  have hvalue := readAttributeValue_written tag rest hv
  rw [readAttributes]
  split
  · rename_i h
    rw [hstart] at h
    cases h
  · rename_i d keyed h
    rw [hstart] at h
    cases h
    simp only [htake]
    split
    · rename_i valued h
      rw [hdrop] at h
      cases h
      split
      · rename_i e h
        rw [hvalue] at h
        cases h
      · rename_i value' rest' h
        rw [hvalue] at h
        cases h
        exact ⟨_, rfl⟩
    · rename_i h
      exact absurd hdrop (h _)

/-- Whether an item is an attribute with a key and a value. -/
def IsAttribute (p : List Char × String) (item : AttributeItem) : Prop :=
  ∃ position, item = .attribute ⟨position, p.1, escapedValue p.2⟩

theorem quote_notMem_escapedValue (value : String) : '"' ∉ escapedValue value := fun h =>
  (mem_escapeValue h).2.2 rfl

/-- Written attributes are read back one by one. -/
theorem readAttributes_written (tag : List Char) {pairs : List (List Char × String)}
    (h : ∀ p ∈ pairs, IsKey p.1) :
    List.Forall₂ IsAttribute pairs (readAttributes tag (writtenAttributes pairs)) := by
  induction pairs with
  | nil =>
    have hnil : readAttributes tag [] = [] := by
      rw [readAttributes]
      rfl
    rw [show writtenAttributes [] = [] by rfl, hnil]
    exact .nil
  | cons p pairs ih =>
    obtain ⟨key, value⟩ := p
    obtain ⟨position, hread⟩ := readAttributes_written_cons tag (writtenAttributes pairs)
      (h _ (.head _)) (quote_notMem_escapedValue value)
    rw [writtenAttributes_cons, hread]
    exact .cons ⟨position, rfl⟩ (ih fun q hq => h q (.tail _ hq))

theorem head_writtenAttributes (pairs : List (List Char × String)) :
    writtenAttributes pairs = [] ∨ ∃ rest, writtenAttributes pairs = ' ' :: rest := by
  cases pairs with
  | nil => exact .inl rfl
  | cons p pairs => exact .inr ⟨_, writtenAttributes_cons p.1 p.2 pairs⟩

section Tag

variable {name : List Char} (hname : ∀ c ∈ name, isKeyChar c = true)
  (pairs : List (List Char × String))

include hname

theorem not_tagSpace_of_name : ∀ c ∈ name, (!isTagSpace c) = true := fun c hc => by
  rw [(ne_of_isKeyChar (hname c hc)).1]
  rfl

theorem tagName_written : tagName (name ++ writtenAttributes pairs) = name := by
  rw [tagName, List.takeWhile_append_of_pos (not_tagSpace_of_name hname)]
  rcases head_writtenAttributes pairs with h | ⟨rest, h⟩ <;> rw [h]
  · rw [List.takeWhile_nil, List.append_nil]
  · rw [List.takeWhile_cons_of_neg (by decide), List.append_nil]

/-- The attributes of a written tag are read back one by one. -/
theorem attributesOf_written (h : ∀ p ∈ pairs, IsKey p.1) :
    List.Forall₂ IsAttribute pairs (attributesOf (name ++ writtenAttributes pairs)) := by
  have hdrop : (name ++ writtenAttributes pairs).dropWhile (!isTagSpace ·) =
      writtenAttributes pairs := by
    rw [List.dropWhile_append_of_pos (not_tagSpace_of_name hname)]
    rcases head_writtenAttributes pairs with h | ⟨rest, h⟩ <;> rw [h]
    · rw [List.dropWhile_nil]
    · rw [List.dropWhile_cons_of_neg (by decide)]
  rw [attributesOf, hdrop]
  exact readAttributes_written _ h

end Tag

/-- Whether an attribute with a key and a value has passed the check of keys. -/
def IsChecked (p : List Char × String) (a : Except AttributeError RawAttribute) : Prop :=
  ∃ position, a = .ok ⟨position, p.1, escapedValue p.2⟩

/-- Attributes with distinct keys are taken as they are. -/
theorem checkAttributes_written {pairs : List (List Char × String)} {items : List AttributeItem}
    (h : List.Forall₂ IsAttribute pairs items) (hd : (pairs.map (·.1)).Nodup)
    {seen : List (List Char × Nat)} (hseen : ∀ p ∈ pairs, p.1 ∉ seen.map (·.1)) :
    List.Forall₂ IsChecked pairs (checkAttributes seen items) := by
  induction h generalizing seen with
  | nil => exact .nil
  | @cons p item pairs items hitem _ ih =>
    obtain ⟨position, rfl⟩ := hitem
    obtain ⟨hp, hd⟩ := List.nodup_cons.1 hd
    have hnone : seen.find? (·.1 == p.1) = none := List.find?_eq_none.2 fun q hq heq =>
      hseen p (.head _) (List.mem_map.2 ⟨q, hq, by simpa using heq⟩)
    simp only [checkAttributes, hnone]
    refine .cons ⟨position, rfl⟩ (ih hd fun q hq hmem => ?_)
    rw [List.map_append, List.mem_append] at hmem
    rcases hmem with hmem | hmem
    · exact hseen q (.tail _ hq) hmem
    · exact hp (List.mem_map.2 ⟨q, hq, List.mem_singleton.1 hmem⟩)

end ContentSchema.Markup
