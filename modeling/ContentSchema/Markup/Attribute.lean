import ContentSchema.Markup.Token

/-!
# Attributes of a tag

A tag is a name and attributes. An attribute is a key, an equals sign and a value between two equal
quotes; white space may stand around the sign, and none has to stand between two attributes.
-/
namespace ContentSchema.Markup

/-- The name in a tag, which ends at white space. -/
def tagName (tag : List Char) : List Char := tag.takeWhile (!isTagSpace ·)

/-- An attribute as it is written. -/
structure RawAttribute where
  /-- The byte of the tag at which the key begins. -/
  position : Nat
  /-- The key. -/
  key : List Char
  /-- The value between the quotes, with its references. -/
  value : List Char
deriving DecidableEq, Repr

/-- What the reading of a tag finds, one attribute after the other. -/
inductive AttributeItem where
  /-- An attribute. -/
  | attribute (a : RawAttribute)
  /-- A key without a proper value. -/
  | badValue (position : Nat) (key : List Char) (e : AttributeError)
  /-- A key without an equals sign. -/
  | badKey (e : AttributeError)
deriving DecidableEq, Repr

/-- The value behind an equals sign, and what follows it. -/
def readAttributeValue (tag cs : List Char) : Except AttributeError (List Char × List Char) :=
  match cs.dropWhile isTagSpace with
  | [] => .error (.missingValue (utf8Length tag))
  | q :: body =>
    if q == '"' || q == '\'' then
      match body.dropWhile (· != q) with
      | [] => .error (.missingQuote (utf8Length tag) q)
      | _ :: rest => .ok (body.takeWhile (· != q), rest)
    else .error (.unquotedValue (bytesBefore (q :: body) tag))

theorem length_of_readAttributeValue {tag cs value rest : List Char}
    (h : readAttributeValue tag cs = .ok (value, rest)) : rest.length ≤ cs.length := by
  unfold readAttributeValue at h
  split at h
  · cases h
  · rename_i q body hq
    have hl := (List.dropWhile_suffix (l := cs) isTagSpace).length_le
    rw [hq] at hl
    split at h
    · split at h
      · cases h
      · rename_i hr
        have hb := (List.dropWhile_suffix (l := body) (· != q)).length_le
        rw [hr] at hb
        cases h
        simp only [List.length_cons] at hl hb
        omega
    · cases h

/-- The attributes in the rest `cs` of a tag, up to the first one that is malformed. -/
def readAttributes (tag cs : List Char) : List AttributeItem :=
  match _hk : cs.dropWhile isTagSpace with
  | [] => []
  | c :: keyed =>
    let isKey (d : Char) := d != '=' && !isTagSpace d
    let position := bytesBefore (c :: keyed) tag
    let key := c :: keyed.takeWhile isKey
    match _he : (keyed.dropWhile isKey).dropWhile isTagSpace with
    | '=' :: valued =>
      match _hv : readAttributeValue tag valued with
      | .error e => [.badValue position key e]
      | .ok (value, rest) => .attribute ⟨position, key, value⟩ :: readAttributes tag rest
    | rest => [.badKey (.missingEquals (bytesBefore rest tag))]
termination_by cs.length
decreasing_by
  have h₁ := (List.dropWhile_suffix (l := cs) isTagSpace).length_le
  have h₂ := (List.dropWhile_suffix (l := keyed) fun d => d != '=' && !isTagSpace d).length_le
  have h₃ := (List.dropWhile_suffix (l := keyed.dropWhile fun d => d != '=' && !isTagSpace d)
    isTagSpace).length_le
  have h₄ := length_of_readAttributeValue _hv
  rw [_hk, List.length_cons] at h₁
  rw [_he, List.length_cons] at h₃
  omega

/-- The attributes of a tag, up to the first one that is malformed. -/
def attributesOf (tag : List Char) : List AttributeItem :=
  readAttributes tag (tag.dropWhile (!isTagSpace ·))

/-- The attributes in turn, and in place of the first one that is malformed or has the key of an
earlier one, the error. A key that stands already is noticed before its value is read. -/
def checkAttributes (seen : List (List Char × Nat)) :
    List AttributeItem → List (Except AttributeError RawAttribute)
  | [] => []
  | .badKey e :: _ => [.error e]
  | .badValue position key e :: _ =>
    match seen.find? (·.1 == key) with
    | some earlier => [.error (.duplicated position earlier.2)]
    | none => [.error e]
  | .attribute a :: items =>
    match seen.find? (·.1 == a.key) with
    | some earlier => [.error (.duplicated a.position earlier.2)]
    | none => .ok a :: checkAttributes (seen ++ [(a.key, a.position)]) items

end ContentSchema.Markup
