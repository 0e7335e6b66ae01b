/-!
# Names of elements and attributes

A name is written with its namespace in braces in front of its local part. A text without a closed
pair of braces at its start is a name in no namespace.
-/
namespace ContentSchema.Markup

/-- The namespace of model documents. -/
def modelNamespace : String := "http://namespaces.plone.org/supermodel/schema"

/-- The namespace of the attributes of messages. -/
def i18nNamespace : String := "http://xml.zope.org/namespaces/i18n"

/-- The prefix under which written documents declare that namespace. -/
def i18nPrefix : String := "i18n"

/-- The namespace that is bound to `xml` in every document. -/
def xmlNamespace : String := "http://www.w3.org/XML/1998/namespace"

/-- The namespace that is bound to `xmlns` in every document. -/
def xmlnsNamespace : String := "http://www.w3.org/2000/xmlns/"

/-- The name with the given local part in a namespace. -/
def qualified (name : String) (namespaceUri : String) : String :=
  "\x7b" ++ namespaceUri ++ "\x7d" ++ name

/-- The parts of a name that starts with braces: what is inside and what follows. -/
def splitName? (name : String) : Option (String × String) :=
  match name.toList with
  | '\x7b' :: cs =>
    let inside := cs.takeWhile (· != '\x7d')
    match cs.dropWhile (· != '\x7d') with
    | _ :: rest => some (String.ofList inside, String.ofList rest)
    | [] => none
  | _ => none

/-- The local part of a name. -/
def localName (name : String) : String :=
  match splitName? name with
  | some (_, rest) => rest
  | none => name

/-- The namespace of a name, if it has one. -/
def namespaceOf? (name : String) : Option String := (splitName? name).map (·.1)

end ContentSchema.Markup
