import ContentSchema.Number.Integer
import ContentSchema.Text.Scalar

/-!
# Tokens

A token is a text in printable ASCII that stands for any text. Printable ASCII stands for itself, a
backslash is doubled, tab, line feed and carriage return have escapes of one letter, and every
other character is written by its number, in two, four or eight hexadecimal digits.
-/
namespace ContentSchema.Token

/-- The token of one character. -/
def escapeChar (c : Char) : List Char :=
  let n := c.toNat
  if c == '\\' then ['\\', '\\']
  else if c == '\t' then ['\\', 't']
  else if c == '\n' then ['\\', 'n']
  else if c == '\r' then ['\\', 'r']
  else if 0x20 ≤ n ∧ n ≤ 0x7E then [c]
  else if n < 0x100 then '\\' :: 'x' :: paddedDigits 16 2 n
  else if n < 0x10000 then '\\' :: 'u' :: paddedDigits 16 4 n
  else '\\' :: 'U' :: paddedDigits 16 8 n

/-- The token of a text. -/
def escape (s : String) : String := String.ofList (s.toList.flatMap escapeChar)

/-- The character that a letter stands for after a backslash. -/
def letterEscape? : Char → Option Char
  | '\\' => some '\\'
  | 't' => some '\t'
  | 'n' => some '\n'
  | 'r' => some '\r'
  | _ => none

/-- The number of digits that follow a letter after a backslash. -/
def digitCount? : Char → Option Nat
  | 'x' => some 2
  | 'u' => some 4
  | 'U' => some 8
  | _ => none

/-- The character whose number the hexadecimal digits give. A plus sign may stand for the first
digit. -/
def numberEscape? (digits : List Char) : Option Char :=
  match readWord32 16 digits with
  | .ok n => Text.scalar? n
  | .error _ => none

/-- The characters that a token stands for, unless one of its escapes is malformed. -/
def unescapeChars? : List Char → Option (List Char)
  | [] => some []
  | c :: cs =>
    if c != '\\' then (unescapeChars? cs).map (c :: ·)
    else match cs with
      | [] => none
      | d :: ds =>
        match letterEscape? d, digitCount? d with
        | some e, _ => (unescapeChars? ds).map (e :: ·)
        | none, some width =>
          if ds.length < width then none
          else match numberEscape? (ds.take width) with
            | some e => (unescapeChars? (ds.drop width)).map (e :: ·)
            | none => none
        | none, none => none
termination_by cs => cs.length
decreasing_by
  · exact Nat.lt_succ_self _
  · exact Nat.lt_succ_of_lt (Nat.lt_succ_self _)
  · exact Nat.lt_succ_of_le (Nat.le_succ_of_le (List.drop_sublist width ds).length_le)

/-- The text that a token stands for, unless one of its escapes is malformed. -/
def unescape? (token : String) : Option String :=
  (unescapeChars? token.toList).map String.ofList

end ContentSchema.Token
