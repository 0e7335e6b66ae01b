import ContentSchema.Markup.Name

/-!
# Element trees

A document is a tree of elements. Of the text in an element only the part before its first child is
kept. Each element remembers the line of its start tag and its own namespace declarations.
-/
namespace ContentSchema.Markup

/-- An element. -/
structure Element where
  /-- The tag, a name. -/
  tag : String
  /-- The attributes in document order, by name. -/
  attributes : List (String × String) := []
  /-- The elements inside this one. -/
  children : List Element := []
  /-- The text before the first child. -/
  text : Option String := none
  /-- The line of the start tag. -/
  line : Option Nat := none
  /-- The namespaces declared here, by prefix; no prefix is the default namespace. -/
  namespaces : List (Option String × String) := []

namespace Element

instance : Inhabited Element := ⟨{ tag := "" }⟩

/-- The local part of the tag. -/
def localName (e : Element) : String := Markup.localName e.tag

/-- The value of an attribute. -/
def get? (e : Element) (name : String) : Option String :=
  (e.attributes.find? (·.1 == name)).map (·.2)

/-- Puts a pair in the place of the first one with the same key, or at the end. -/
def setPair {κ : Type} [BEq κ] (k : κ) (v : String) : List (κ × String) → List (κ × String)
  | [] => [(k, v)]
  | p :: ps => if p.1 == k then (p.1, v) :: ps else p :: setPair k v ps

/-- Sets an attribute; one that exists keeps its place. -/
def set (e : Element) (name value : String) : Element :=
  { e with attributes := setPair name value e.attributes }

/-- Removes an attribute. -/
def erase (e : Element) (name : String) : Element :=
  { e with attributes := e.attributes.eraseP (·.1 == name) }

/-- Adds a child at the end. -/
def push (e : Element) (child : Element) : Element := { e with children := e.children ++ [child] }

/-- Declares a namespace; a prefix that is declared already keeps its place. -/
def declare (e : Element) (xmlPrefix : Option String) (uri : String) : Element :=
  { e with namespaces := setPair xmlPrefix uri e.namespaces }

/-- Whether the element is in the model namespace or in none. -/
def isModelElement (e : Element) : Bool :=
  (namespaceOf? e.tag).all (· == modelNamespace)

/-- The children of the model that have the given local name. -/
def modelChildren (e : Element) (name : String) : List Element :=
  e.children.filter fun c => c.isModelElement && c.localName == name

/-- The children with a tag. -/
def childrenTagged (e : Element) (tag : String) : List Element :=
  e.children.filter (·.tag == tag)

mutual

/-- Applies a function to the element and then, in document order, to all elements inside it, with a
state that goes along. -/
def walk {σ : Type} (visit : Element → σ → Element × σ) (s : σ) : Element → Element × σ
  | ⟨tag, attributes, children, text, line, namespaces⟩ =>
    let (e, s) := visit ⟨tag, attributes, children, text, line, namespaces⟩ s
    let (children, s) := walkAll visit s children
    ({ e with children }, s)

/-- Walks through elements one after the other. -/
def walkAll {σ : Type} (visit : Element → σ → Element × σ) (s : σ) : List Element → List Element × σ
  | [] => ([], s)
  | e :: es =>
    let (e, s) := walk visit s e
    let (es, s) := walkAll visit s es
    (e :: es, s)

end

end Element
end ContentSchema.Markup
