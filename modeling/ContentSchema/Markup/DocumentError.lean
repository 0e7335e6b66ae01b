import ContentSchema.Markup.Reference
import ContentSchema.Markup.SyntaxError

/-!
# Errors of documents

Why a text is no document, and why an element tree cannot be written as one.
-/
namespace ContentSchema.Markup

/-- Why a document cannot be read or written. -/
inductive DocumentError where
  /-- The markup is wrong on a line. -/
  | malformed (line : Nat) (cause : SyntaxError)
  /-- A reference has no character. -/
  | badReference (cause : ReferenceError)
  /-- A name has a prefix that no namespace is bound to. -/
  | undeclaredPrefix (name : String)
  /-- An element follows the root element. -/
  | severalRoots
  /-- There is no root element, or it is not closed. -/
  | noRoot
  /-- No prefix is declared for the namespace of a name that has to be written. -/
  | noPrefix (uri : String)

/-- The text of the error. -/
def DocumentError.message : DocumentError → String
  | .malformed line cause => s!"XML syntax error at line {line}: {cause.message}"
  | .badReference cause => s!"XML escape error: {cause.message}"
  | .undeclaredPrefix name =>
    s!"invalid model structure: namespace prefix '{name}' is not declared"
  | .severalRoots => "invalid model structure: document has more than one root element"
  | .noRoot => "invalid model structure: document has no root element"
  | .noPrefix uri => s!"invalid model structure: no prefix declared for namespace '{uri}'"

end ContentSchema.Markup
