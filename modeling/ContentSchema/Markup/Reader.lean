import ContentSchema.Markup.Element
import ContentSchema.Markup.Namespace

/-!
# Reading documents

`Element.read` makes the element tree of a document from its tokens. The elements that are open are
a stack, and a token opens or closes one or adds to the text of the innermost.

The line of an element is that of the last opening bracket before the end of its start tag. Text
behind a child is dropped. Elements that are still open at the end are not an error of their own: a
document is without a root then, unless one was closed before.
-/
namespace ContentSchema.Markup

/-- The line of a byte offset: one, and one more for every line feed before it. -/
def lineAt (bytes : List UInt8) (offset : Nat) : Nat := 1 + (bytes.take offset).count 10

/-- The number of bytes before the last opening bracket. -/
def lastBracket (bytes : List UInt8) : Nat :=
  (bytes.reverse.dropWhile (· != 60)).length - 1

/-- The line of the start tag that ends at a byte offset. -/
def startLine (bytes : List UInt8) (stop : Nat) : Nat :=
  lineAt bytes (lastBracket (bytes.take stop))

/-- An element that is open. -/
structure OpenElement where
  /-- Its name as it is written. -/
  name : List Char
  /-- The namespaces that are bound inside it, innermost first. -/
  bindings : List Binding
  /-- The element so far. -/
  element : Element

/-- A document while it is read. -/
structure PartialDocument where
  /-- The open elements, innermost first. -/
  opened : List OpenElement := []
  /-- The root element, once it is closed. -/
  root : Option Element := none

namespace PartialDocument

/-- The namespaces that are bound at this place. -/
def bindings (d : PartialDocument) : List Binding :=
  match d.opened with
  | [] => Binding.initial
  | o :: _ => o.bindings

/-- Adds text to the innermost element, if that has no child yet. -/
def addText (d : PartialDocument) (cs : List Char) : PartialDocument :=
  match d.opened with
  | [] => d
  | o :: os =>
    if o.element.children.isEmpty then
      let text := o.element.text.getD "" ++ String.ofList cs
      { d with opened := { o with element := { o.element with text := some text } } :: os }
    else d

/-- Adds an element inside the innermost one, or as the root. -/
def addElement (d : PartialDocument) (e : Element) : Except DocumentError PartialDocument :=
  match d.opened, d.root with
  | o :: os, _ => .ok { d with opened := { o with element := o.element.push e } :: os }
  | [], none => .ok { d with root := some e }
  | [], some _ => .error .severalRoots

/-- The text that a reference stands for. -/
def resolveText (cs : List Char) : Except DocumentError (List Char) :=
  (resolve cs).mapError .badReference

/-- Puts an attribute of the start tag on `line` into an element, as a declaration of a namespace if
it is one. -/
def addAttribute (bindings : List Binding) (line : Nat) (e : Element)
    (a : Except AttributeError RawAttribute) : Except DocumentError Element := do
  let a ← a.mapError fun cause => .malformed line (.badAttribute cause)
  let value := String.ofList (← resolveText a.value)
  match boundPrefix? a.key with
  | some name => return { e with namespaces := e.namespaces ++ [(name.map String.ofList, value)] }
  | none =>
    let name ← resolveName bindings false a.key
    return { e with attributes := e.attributes ++ [(name, value)] }

/-- The element that a tag opens. -/
def openElement (d : PartialDocument) (bytes : List UInt8) (tag : List Char) (stop : Nat) :
    Except DocumentError OpenElement := do
  let items := attributesOf tag
  let bindings ← (bindNamespaces d.bindings items).mapError (.malformed (lineAt bytes stop))
  let line := startLine bytes stop
  let e ← (checkAttributes [] items).foldlM (addAttribute bindings line)
    { tag := "", line := some line }
  let name ← resolveName bindings true (tagName tag)
  return ⟨tagName tag, bindings, { e with tag := name }⟩

/-- An end tag's name: without the white space at its end, but all of it if it is blank. -/
def endName (tag : List Char) : List Char :=
  match (tag.reverse.dropWhile isTagSpace).reverse with
  | [] => tag
  | name => name

/-- Closes the innermost element. One without children and text has the empty text. -/
def close (d : PartialDocument) (bytes : List UInt8) (tag : List Char) (stop : Nat) :
    Except DocumentError PartialDocument :=
  let found := endName tag
  match d.opened with
  | [] => .error (.malformed (lineAt bytes stop) (.unmatchedEnd (String.ofList found)))
  | o :: os =>
    if o.name == found then
      let e := o.element
      let e := if e.children.isEmpty then { e with text := some (e.text.getD "") } else e
      addElement { d with opened := os } e
    else .error (.malformed (lineAt bytes stop)
      (.mismatchedEnd (String.ofList o.name) (String.ofList found)))

/-- Takes one token, which stops at a byte offset, into the document. -/
def add (bytes : List UInt8) (d : PartialDocument) :
    Token × Nat → Except DocumentError PartialDocument
  | (.text cs, _) | (.cdata cs, _) => .ok (d.addText cs)
  | (.reference body, _) => do return d.addText (← resolveText ('&' :: body ++ [';']))
  | (.opening tag, stop) => do
    return { d with opened := (← d.openElement bytes tag stop) :: d.opened }
  | (.empty tag, stop) => do d.addElement (← d.openElement bytes tag stop).element
  | (.closing tag, stop) => d.close bytes tag stop
  | (.skipped, _) => .ok d

end PartialDocument

/-- The characters of a document behind its byte order mark, if it has one. -/
def withoutMark : List Char → List Char
  | '\ufeff' :: cs => cs
  | cs => cs

/-- The root element of a document. -/
def Element.read (text : String) : Except DocumentError Element := do
  let bytes := text.toUTF8.data.toList
  let tokens := tokensFrom 0 (withoutMark text.toList)
  let d ← tokens.tokens.foldlM (PartialDocument.add bytes) {}
  match tokens.failure, d.root with
  | some (cause, stop), _ => .error (.malformed (lineAt bytes stop) cause)
  | none, some root => .ok root
  | none, none => .error .noRoot

end ContentSchema.Markup
