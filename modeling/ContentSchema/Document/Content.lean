import ContentSchema.Field.Conversion
import ContentSchema.Markup.Element

/-!
# Values in elements

A scalar value is the text of its element. The items of a collection are elements inside it, and so
are the entries of a mapping, each with its key as an attribute. A message is told from a text by
attributes with its identifier and its domain.

An element without a value stands for the missing value of its field; an empty collection or mapping
is one without items.
-/
namespace ContentSchema.Document

open Markup (Element i18nNamespace qualified)

/-- The tag of items and entries. -/
def itemTag : String := "element"

/-- The attribute with the key of an entry. -/
def keyAttribute : String := "key"

/-- The attribute with the identifier of a message. -/
def translateAttribute : String := qualified "translate" i18nNamespace

/-- The attribute with the domain of a message. -/
def domainAttribute : String := qualified "domain" i18nNamespace

/-- Whether an element is an item or entry. -/
def isItem (e : Element) : Bool := e.isModelElement && e.localName == itemTag

/-- The field of items or keys; a line of text when there is none. -/
def itemField (f : Option Field) : Field := f.getD (Field.ofType .textLine)

/-- What surrounds the values of a document. -/
structure Surroundings where
  /-- What dotted names stand for. -/
  resolve : Resolver
  /-- The message domain of the document. -/
  domain : Option String

/-! ## Reading -/

/-- A text as a message, if the document has a message domain and the element of the text has the
identifier of a message. An empty identifier is that of the text itself. -/
def asMessage (domain : Option String) (e : Element) (v : Value) : Value :=
  match v, domain, e.get? translateAttribute with
  | .text text, some domain, some id =>
    let domain := (e.get? domainAttribute).getD domain
    .message (if id.isEmpty then ⟨text, none, some domain⟩ else ⟨id, some text, some domain⟩)
  | _, _, _ => v

/-- The scalar value of an element. -/
def decodeScalar (s : Surroundings) (validate : Bool) (f : Field) (e : Element) :
    Except Fault (Option Value) :=
  match e.text with
  | some text =>
    if text.isEmpty && !f.type.isTextual then .ok f.missingValue
    else do return some (asMessage s.domain e (← f.valueOfText s.resolve validate text))
  | none => .ok f.missingValue

/-- A collection of the type of a field. -/
def collectionOf (type : FieldType) (items : List Value) : Value :=
  match type with
  | .tuple => .tuple items
  | .set | .frozenSet => Value.setOf items
  | _ => .list items

/-- The value of an item, which has to be there. -/
def requireItem (f : Field) : Option Value → Except Fault Value
  | some v => .ok v
  | none => .error (f.invalidText "" .emptyItem)

mutual

/-- The value of an element for a field. -/
def decode (s : Surroundings) (validate : Bool) (f : Field) : Element → Except Fault (Option Value)
  | ⟨tag, attributes, children, text, line, namespaces⟩ =>
    if f.type = .dict then do
      let entries ← decodeEntries s validate (itemField f.keyType) (itemField f.valueType) children
      return some (← f.accept validate (Value.dictOf entries))
    else if f.type.isCollection then do
      let items ← decodeItems s validate (itemField f.valueType) children
      return some (← f.accept validate (collectionOf f.type items))
    else decodeScalar s validate f ⟨tag, attributes, children, text, line, namespaces⟩

/-- The values of the items among elements. -/
def decodeItems (s : Surroundings) (validate : Bool) (item : Field) :
    List Element → Except Fault (List Value)
  | [] => .ok []
  | e :: es =>
    if isItem e then do
      let v ← requireItem item (← decode s validate item e)
      return v :: (← decodeItems s validate item es)
    else decodeItems s validate item es

/-- The keys and values of the entries among elements. -/
def decodeEntries (s : Surroundings) (validate : Bool) (key item : Field) :
    List Element → Except Fault (List (Value × Value))
  | [] => .ok []
  | e :: es =>
    if isItem e then
      match e.get? keyAttribute with
      | none => .error (.missingAttribute itemTag keyAttribute)
      | some text => do
        let k ← key.valueOfText s.resolve validate text
        let v ← requireItem item (← decode s validate item e)
        return (k, v) :: (← decodeEntries s validate key item es)
    else decodeEntries s validate key item es

end

/-! ## Writing -/

/-- The element of a message. -/
def encodeMessage (tag : String) (m : Message) : Element :=
  let e : Element := { tag }
  let e := match m.domain with
    | some domain => e.set domainAttribute domain
    | none => e
  match m.default.filter (!·.isEmpty) with
  | some text => { e.set translateAttribute m.id with text := some text }
  | none => { e.set translateAttribute "" with text := some m.id }

mutual

/-- The element of a value for a field. Without `force` the missing value leaves the element
empty. -/
def encode (force : Bool) (f : Field) (tag : String) (v : Value) : Except Fault Element :=
  if !force && f.missingValue == some v then .ok { tag }
  else match v with
    | .dict entries => do
      let children ← encodeEntries force (itemField f.keyType) (itemField f.valueType) entries
      return { tag, children }
    | .list items => return { tag, children := ← encodeItems force (itemField f.valueType) items }
    | .tuple items => return { tag, children := ← encodeItems force (itemField f.valueType) items }
    | .set items => return { tag, children := ← encodeItems force (itemField f.valueType) items }
    | .message m => .ok (encodeMessage tag m)
    | v => return { tag, text := some (← f.textOfValue v) }

/-- The elements of items. -/
def encodeItems (force : Bool) (item : Field) : List Value → Except Fault (List Element)
  | [] => .ok []
  | v :: vs => do
    let e ← encode force item itemTag v
    return e :: (← encodeItems force item vs)

/-- The elements of entries. -/
def encodeEntries (force : Bool) (key item : Field) :
    List (Value × Value) → Except Fault (List Element)
  | [] => .ok []
  | (k, v) :: es => do
    let e ← encode force item itemTag v
    let e := e.set keyAttribute (← key.textOfValue k)
    return e :: (← encodeEntries force key item es)

end

/-- The element of a value that may be absent. -/
def encodeOptional (force : Bool) (f : Field) (tag : String) : Option Value → Except Fault Element
  | some v => encode force f tag v
  | none => .ok { tag }

end ContentSchema.Document
