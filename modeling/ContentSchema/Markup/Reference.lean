import ContentSchema.Number.Integer
import ContentSchema.Text.Scalar

/-!
# References

In attribute values and between tags a character can be written as a reference: by one of five
names, or by its number. `resolve` replaces every reference of a text.
-/
namespace ContentSchema.Markup

/-- The number of bytes that characters take in UTF-8. -/
def utf8Length : List Char → Nat
  | [] => 0
  | c :: cs => c.utf8Size + utf8Length cs

/-- Why a reference has no character. Positions count bytes. -/
inductive ReferenceError where
  /-- The name from `start` to `stop` is not one of the five. -/
  | unknownName (start stop : Nat) (name : String)
  /-- No semicolon follows the ampersand at `start`; the text ends at `stop`. -/
  | unterminated (start stop : Nat)
  /-- What follows the number sign is no number. -/
  | badNumber (cause : IntegerError)
  /-- A sign stands in front of the number. -/
  | signed
  /-- No character has the number. -/
  | noCharacter (number : Nat)
  /-- The number is zero. -/
  | zero
deriving DecidableEq, Repr

/-- The text of the error. -/
def ReferenceError.message : ReferenceError → String
  | .unknownName start stop name => s!"at {start}..{stop}: unrecognized entity `{name}`"
  | .unterminated start stop =>
    s!"Error while escaping character at range {start}..{stop}: Cannot find ';' after '&'"
  | .badNumber cause => s!"invalid character reference: {cause.message}"
  | .signed => "invalid character reference: unexpected number sign"
  | .noCharacter number => s!"invalid character reference: `{number}` is not a valid codepoint"
  | .zero => "invalid character reference: 0x0 character is not permitted in XML"

/-- The character that one of the five names stands for. -/
def namedCharacter? (name : List Char) : Option Char :=
  if name == ['l', 't'] then some '<'
  else if name == ['g', 't'] then some '>'
  else if name == ['a', 'm', 'p'] then some '&'
  else if name == ['a', 'p', 'o', 's'] then some '\''
  else if name == ['q', 'u', 'o', 't'] then some '"'
  else none

/-- The character with a number, given in decimal digits or in hexadecimal digits after an `x`. -/
def numberedCharacter (digits : List Char) : Except ReferenceError Char :=
  let (radix, digits) := match digits with
    | 'x' :: hex => (16, hex)
    | decimal => (10, decimal)
  match digits with
  | '+' :: _ | '-' :: _ => .error .signed
  | _ =>
    match readWord32 radix digits with
    | .error e => .error (.badNumber e)
    | .ok 0 => .error .zero
    | .ok n => match Text.scalar? n with
      | some c => .ok c
      | none => .error (.noCharacter n)

/-- The character of the reference with the given body, whose first byte is at `start`. -/
def referencedCharacter (start : Nat) (body : List Char) : Except ReferenceError Char :=
  match body with
  | '#' :: digits => numberedCharacter digits
  | _ => match namedCharacter? body with
    | some c => .ok c
    | none => .error (.unknownName start (start + utf8Length body) (String.ofList body))

/-- Replaces the references in the rest of a text, which begins at byte `start`. -/
def resolveFrom (start : Nat) (cs : List Char) : Except ReferenceError (List Char) :=
  match cs with
  | [] => .ok []
  | c :: rest =>
    if c != '&' then do return c :: (← resolveFrom (start + c.utf8Size) rest)
    else
      let body := rest.takeWhile fun d => d != ';' && d != '&'
      match h : rest.dropWhile fun d => d != ';' && d != '&' with
      | ';' :: after => do
        let d ← referencedCharacter (start + 1) body
        return d :: (← resolveFrom (start + 1 + utf8Length body + 1) after)
      | _ => .error (.unterminated start (start + utf8Length cs))
termination_by cs.length
decreasing_by
  · simp
  · have h₁ := (List.dropWhile_suffix (l := rest) fun d => d != ';' && d != '&').length_le
    rw [h] at h₁
    simp only [List.length_cons] at h₁ ⊢
    omega

/-- The text with a character for each reference. -/
def resolve (cs : List Char) : Except ReferenceError (List Char) := resolveFrom 0 cs

end ContentSchema.Markup
