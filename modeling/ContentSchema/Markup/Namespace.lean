import ContentSchema.Markup.Attribute
import ContentSchema.Markup.DocumentError
import ContentSchema.Markup.Name

/-!
# Namespaces of a document

The attributes `xmlns` and `xmlns:p` of a tag bind the default namespace and the prefix `p`. The
innermost binding counts. `resolveName` gives the name that a name with a prefix stands for.
-/
namespace ContentSchema.Markup

/-- A namespace bound in a document. -/
structure Binding where
  /-- The prefix; an empty one is the default namespace. -/
  name : List Char
  /-- The namespace as it is written, with its references; an empty one unbinds. -/
  uri : List Char
deriving DecidableEq, Repr

/-- The bindings that every document begins with. -/
def Binding.initial : List Binding :=
  [⟨['x', 'm', 'l', 'n', 's'], xmlnsNamespace.toList⟩, ⟨['x', 'm', 'l'], xmlNamespace.toList⟩]

/-- What the key of an attribute binds: a prefix, or with none the default namespace. -/
def boundPrefix? (key : List Char) : Option (Option (List Char)) :=
  if ['x', 'm', 'l', 'n', 's'].isPrefixOf key then
    match key.drop 5 with
    | [] => some none
    | ':' :: name => some (some name)
    | _ => none
  else none

/-- The namespace, as it is written, for a prefix that is bound to it. The prefix `xml` may only be
bound to its own namespace, `xmlns` not at all, and no other prefix to one of their namespaces. -/
def checkBinding (name uri : List Char) : Except SyntaxError Unit :=
  let bytes (cs : List Char) := (String.ofList cs).toUTF8
  if name == ['x', 'm', 'l'] then
    if uri == xmlNamespace.toList then .ok () else .error (.reservedPrefix "xml" (bytes uri))
  else if name == ['x', 'm', 'l', 'n', 's'] then .error (.reservedPrefix "xmlns" (bytes uri))
  else if uri == xmlNamespace.toList then .error (.reservedNamespace (bytes name) xmlNamespace)
  else if uri == xmlnsNamespace.toList then .error (.reservedNamespace (bytes name) xmlnsNamespace)
  else .ok ()

/-- The bindings of a tag in front of those around it, the last one first. Attributes count up to
the first malformed one. -/
def bindNamespaces (outer : List Binding) : List AttributeItem → Except SyntaxError (List Binding)
  | .attribute a :: items =>
    match boundPrefix? a.key with
    | none => bindNamespaces outer items
    | some none => bindNamespaces (⟨[], a.value⟩ :: outer) items
    | some (some name) => do
      checkBinding name a.value
      bindNamespaces (if name == ['x', 'm', 'l'] then outer else ⟨name, a.value⟩ :: outer) items
  | _ => .ok outer

/-- The prefix of a written name, up to its first colon, and its local part. -/
def splitPrefix (name : List Char) : Option (List Char) × List Char :=
  match name.dropWhile (· != ':') with
  | _ :: rest => (some (name.takeWhile (· != ':')), rest)
  | [] => (none, name)

/-- The local part in the namespace that a binding names. -/
def qualifiedBy (b : Binding) (rest : List Char) : Except DocumentError String :=
  match resolve b.uri with
  | .ok uri => .ok (qualified (String.ofList rest) (String.ofList uri))
  | .error e => .error (.badReference e)

/-- The name of an attribute, or of an element, that is written with a prefix or without one. Only
the name of an element without a prefix is in the default namespace. -/
def resolveName (bindings : List Binding) (isElement : Bool) (name : List Char) :
    Except DocumentError String :=
  match splitPrefix name with
  | (none, rest) =>
    match isElement, bindings.find? (·.name.isEmpty) with
    | true, some b => if b.uri.isEmpty then .ok (String.ofList rest) else qualifiedBy b rest
    | _, _ => .ok (String.ofList rest)
  | (some p, rest) =>
    match bindings.find? fun b => !p.isEmpty && b.name == p with
    | some b =>
      if b.uri.isEmpty then .error (.undeclaredPrefix (String.ofList p)) else qualifiedBy b rest
    | none => .error (.undeclaredPrefix (String.ofList p))

end ContentSchema.Markup
