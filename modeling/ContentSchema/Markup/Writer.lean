import ContentSchema.Markup.DocumentError
import ContentSchema.Markup.Element
import ContentSchema.Text.Space

/-!
# Writing documents

`Element.write` gives the text of an element tree. Names get the prefixes that the tree declares. In
the pretty form the children of an element without text stand on lines of their own, two blanks
deeper than it; no other text is changed.
-/
namespace ContentSchema.Markup

/-- A character of text as it is written. -/
def escapeTextChar (c : Char) : List Char :=
  if c == '&' then ['&', 'a', 'm', 'p', ';']
  else if c == '<' then ['&', 'l', 't', ';']
  else if c == '>' then ['&', 'g', 't', ';']
  else [c]

/-- A character of an attribute value as it is written. -/
def escapeValueChar (c : Char) : List Char :=
  if c == '"' then ['&', 'q', 'u', 'o', 't', ';']
  else if c == '\n' then ['&', '#', '1', '0', ';']
  else if c == '\r' then ['&', '#', '1', '3', ';']
  else if c == '\t' then ['&', '#', '9', ';']
  else escapeTextChar c

/-- The declarations of namespaces around a place, innermost first. -/
abbrev Declarations := List (Option String × String)

/-- The default namespace. -/
def Declarations.default? (ds : Declarations) : Option String :=
  (ds.find? (·.1.isNone)).map (·.2)

/-- The innermost prefix of a namespace. -/
def Declarations.prefixOf? (ds : Declarations) (uri : String) : Option String :=
  ds.findSome? fun d => if d.2 == uri then d.1 else none

/-- A name with its prefix. An element in the default namespace needs none. -/
def writtenName (ds : Declarations) (isElement : Bool) (name : String) :
    Except DocumentError (List Char) :=
  match splitName? name with
  | none => .ok name.toList
  | some (uri, rest) =>
    if uri == xmlNamespace then .ok ("xml:" ++ rest).toList
    else if isElement && ds.default? == some uri then .ok rest.toList
    else match ds.prefixOf? uri with
      | some p => .ok (p ++ ":" ++ rest).toList
      | none => .error (.noPrefix uri)

/-- An attribute with a blank in front of it. -/
def writtenAttribute (name : List Char) (value : String) : List Char :=
  ' ' :: name ++ '=' :: '"' :: value.toList.flatMap escapeValueChar ++ ['"']

/-- The declaration of a namespace. -/
def writtenDeclaration (d : Option String × String) : List Char :=
  writtenAttribute (match d.1 with
    | some p => ("xmlns:" ++ p).toList
    | none => "xmlns".toList) d.2

/-- A new line at a depth. -/
def indentation (depth : Nat) : List Char := '\n' :: List.replicate (2 * depth) ' '

/-- Whether the children of an element stand on lines of their own. -/
def indentsChildren (pretty : Bool) (text : Option String) (children : List Element) : Bool :=
  pretty && !children.isEmpty && text.all Text.isBlank

mutual

/-- The characters of an element inside declarations, at a depth. -/
def writeElement (pretty : Bool) (outer : Declarations) (depth : Nat) :
    Element → Except DocumentError (List Char)
  | ⟨tag, attributes, children, text, _, namespaces⟩ => do
    let ds : Declarations := namespaces.reverse ++ outer
    let name ← writtenName ds true tag
    let written ← attributes.mapM fun a => return writtenAttribute (← writtenName ds false a.1) a.2
    let start := name ++ namespaces.flatMap writtenDeclaration ++ written.flatten
    if children.isEmpty && text.isNone then return '<' :: start ++ ['/', '>']
    let indented := indentsChildren pretty text children
    let inside ← writeElements pretty indented ds (depth + 1) children
    let leading := if indented then [] else (text.getD "").toList.flatMap escapeTextChar
    let trailing := if indented then indentation depth else []
    return '<' :: start ++ '>' :: leading ++ inside ++ trailing ++ '<' :: '/' :: name ++ ['>']

/-- The characters of elements one after the other, each on a line of its own or not. -/
def writeElements (pretty indented : Bool) (outer : Declarations) (depth : Nat) :
    List Element → Except DocumentError (List Char)
  | [] => .ok []
  | e :: es => do
    let first ← writeElement pretty outer depth e
    let more ← writeElements pretty indented outer depth es
    return (if indented then indentation depth else []) ++ first ++ more

end

/-- The text of the document with a root element. -/
def Element.write (e : Element) (pretty : Bool) : Except DocumentError String :=
  (writeElement pretty [] 0 e).map String.ofList

end ContentSchema.Markup
