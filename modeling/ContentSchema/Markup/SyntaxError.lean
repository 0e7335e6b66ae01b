/-!
# Errors of markup

What can be wrong with the tags, sections and references of a document. Positions count the bytes
of a tag from behind its opening bracket.
-/
namespace ContentSchema.Markup

/-- What is wrong with the attributes of a tag. -/
inductive AttributeError where
  /-- No equals sign follows a key; another character, or the end, stands at `position`. -/
  | missingEquals (position : Nat)
  /-- Nothing follows an equals sign; the tag ends at `position`. -/
  | missingValue (position : Nat)
  /-- The value at `position` does not begin with a quote. -/
  | unquotedValue (position : Nat)
  /-- The tag ends at `position`, inside a value. -/
  | missingQuote (position : Nat) (quote : Char)
  /-- The key at `position` stands at `previous` already. -/
  | duplicated (position previous : Nat)
deriving DecidableEq, Repr

/-- The text of the error. -/
def AttributeError.message : AttributeError → String
  | .missingEquals position =>
    s!"position {position}: attribute key must be directly followed by `=` or space"
  | .missingValue position => s!"position {position}: `=` must be followed by an attribute value"
  | .unquotedValue position =>
    s!"position {position}: attribute value must be enclosed in `\"` or `'`"
  | .missingQuote position quote =>
    s!"position {position}: missing closing quote `{quote}` in attribute value"
  | .duplicated position previous =>
    s!"position {position}: duplicated attribute, previous declaration at position {previous}"

/-- What kind of markup lacks its end. -/
inductive Unclosed where
  /-- A tag. -/
  | tag
  /-- A value in single quotes. -/
  | singleQuoted
  /-- A value in double quotes. -/
  | doubleQuoted
  /-- A comment. -/
  | comment
  /-- A section of character data. -/
  | cdata
  /-- A document type. -/
  | doctype
  /-- A processing instruction. -/
  | instruction
  /-- The declaration at the start of a document. -/
  | declaration
deriving DecidableEq, Repr

/-- What the markup is called, and the end that it lacks. -/
def Unclosed.parts : Unclosed → String × String
  | .tag => ("tag", ">")
  | .singleQuoted => ("attribute value", "'")
  | .doubleQuoted => ("attribute value", "\"")
  | .comment => ("comment", "-->")
  | .cdata => ("CDATA", "]]>")
  | .doctype => ("DOCTYPE", ">")
  | .instruction => ("processing instruction", "?>")
  | .declaration => ("XML declaration", "?>")

/-- What is wrong with the markup of a document. -/
inductive SyntaxError where
  /-- Markup runs to the end of the document. -/
  | unclosed (markup : Unclosed)
  /-- An exclamation mark begins no known markup. -/
  | unknownMarkup
  /-- An end tag names another element than the one that is open. -/
  | mismatchedEnd (expected found : String)
  /-- An end tag follows when no element is open. -/
  | unmatchedEnd (found : String)
  /-- A document type has no name. -/
  | namelessDoctype
  /-- A reference does not end with a semicolon. -/
  | unclosedReference
  /-- The attributes of a tag are wrong. -/
  | badAttribute (cause : AttributeError)
  /-- A reserved prefix is bound to another namespace. -/
  | reservedPrefix (name : String) (uri : ByteArray)
  /-- A reserved namespace is bound to another prefix. -/
  | reservedNamespace (name : ByteArray) (uri : String)
  /-- An error that was found elsewhere, in its own words. -/
  | reported (message : String)

/-- Bytes between double quotes: printable ASCII as it is, a quote behind a backslash, and other
bytes by their hexadecimal number. -/
def quotedBytes (bytes : ByteArray) : String :=
  let byte (b : UInt8) : List Char :=
    let n := b.toNat
    if n == 34 then ['\\', '"']
    else if 32 ≤ n && n ≤ 126 then [Char.ofNat n]
    else '0' :: 'x' :: (Nat.toDigits 16 n).map Char.toUpper
  String.ofList ('"' :: bytes.data.toList.flatMap byte ++ ['"'])

/-- The text of the error. -/
def SyntaxError.message : SyntaxError → String
  | .unclosed markup =>
    s!"syntax error: {markup.parts.1} not closed: `{markup.parts.2}` not found before end of input"
  | .unknownMarkup => "syntax error: unknown or missed symbol in markup"
  | .mismatchedEnd expected found =>
    s!"ill-formed document: expected `</{expected}>`, but `</{found}>` was found"
  | .unmatchedEnd found =>
    s!"ill-formed document: close tag `</{found}>` does not match any open tag"
  | .namelessDoctype =>
    "ill-formed document: `<!DOCTYPE>` declaration does not contain a name of a document type"
  | .unclosedReference =>
    "ill-formed document: entity or character reference not closed: " ++
      "`;` not found before end of input"
  | .badAttribute cause => cause.message
  | .reservedPrefix name uri =>
    s!"the namespace prefix '{name}' cannot be bound to '{quotedBytes uri}'"
  | .reservedNamespace name uri =>
    s!"the namespace prefix '{quotedBytes name}' cannot be bound to '{uri}'"
  | .reported message => message

end ContentSchema.Markup
