import ContentSchema.Markup.Reader
import ContentSchema.Proofs.Lists

/-!
# What a token does

Reading takes one token after the other into a document that is not complete yet. Text goes into the
innermost open element, or is dropped (`TakesText`); a start tag opens an element; an end tag closes the
innermost one, which then goes into the element around it or becomes the root (`Adds`), and so does an
element without content. Nothing else is done (`step_of_add`).
-/
namespace ContentSchema.Markup

/-- Whether a token is a tag. -/
def Token.isTag : Token → Bool
  | .opening _ | .empty _ | .closing _ => true
  | _ => false

namespace PartialDocument

/-- Whether a document differs from another one in the text of the innermost open element at most. -/
inductive TakesText : PartialDocument → PartialDocument → Prop
  /-- The text is dropped, outside of elements or behind a first one. -/
  | dropped (d : PartialDocument) : TakesText d d
  /-- The innermost element gets the text. -/
  | text (o : OpenElement) (os : List OpenElement) (root : Option Element) (text : Option String) :
    TakesText ⟨o :: os, root⟩ ⟨{ o with element := { o.element with text } } :: os, root⟩

/-- Whether a document has an element more, which is complete. -/
inductive Adds (e : Element) : PartialDocument → PartialDocument → Prop
  /-- The element goes into the innermost open one. -/
  | inside (o : OpenElement) (os : List OpenElement) (root : Option Element) :
    Adds e ⟨o :: os, root⟩ ⟨{ o with element := o.element.push e } :: os, root⟩
  /-- The element becomes the root. -/
  | root : Adds e ⟨[], none⟩ ⟨[], some e⟩

/-- Whether a document comes out of another one by a token, which stops at an offset. -/
inductive Step (bytes : List UInt8) : PartialDocument → Token × Nat → PartialDocument → Prop
  /-- Tokens other than tags change texts at most. -/
  | text {d d' : PartialDocument} {t : Token} {stop : Nat} (ht : t.isTag = false)
    (h : TakesText d d') : Step bytes d (t, stop) d'
  /-- A start tag opens an element. -/
  | opening {d : PartialDocument} {tag : List Char} {stop : Nat} {o : OpenElement}
    (h : d.openElement bytes tag stop = .ok o) :
    Step bytes d (.opening tag, stop) ⟨o :: d.opened, d.root⟩
  /-- The tag of an element without content adds it. -/
  | empty {d d' : PartialDocument} {tag : List Char} {stop : Nat} {o : OpenElement}
    (h : d.openElement bytes tag stop = .ok o) (hadds : Adds o.element d d') :
    Step bytes d (.empty tag, stop) d'
  /-- An end tag adds the innermost open element, if it has that name. -/
  | closing {d' : PartialDocument} {tag : List Char} {stop : Nat} {o : OpenElement}
    {os : List OpenElement} {root : Option Element} {text : Option String}
    (hname : o.name = endName tag) (hadds : Adds { o.element with text } ⟨os, root⟩ d') :
    Step bytes ⟨o :: os, root⟩ (.closing tag, stop) d'

variable {bytes : List UInt8} {d d' : PartialDocument}

theorem takesText_addText (d : PartialDocument) (cs : List Char) : TakesText d (d.addText cs) := by
  obtain ⟨opened, root⟩ := d
  cases opened with
  | nil => exact .dropped _
  | cons o os =>
    rw [addText]
    dsimp only
    split
    · exact .text o os root _
    · exact .dropped _

theorem adds_of_addElement {e : Element} (h : d.addElement e = .ok d') : Adds e d d' := by
  obtain ⟨opened, root⟩ := d
  cases opened with
  | nil =>
    cases root with
    | none =>
      cases h
      exact .root
    | some root => cases h
  | cons o os =>
    cases h
    exact .inside o os root

theorem step_of_close {tag : List Char} {stop : Nat} (h : d.close bytes tag stop = .ok d') :
    Step bytes d (.closing tag, stop) d' := by
  obtain ⟨opened, root⟩ := d
  cases opened with
  | nil => cases h
  | cons o os =>
    rw [close] at h
    dsimp only at h
    split at h
    · rename_i hname
      split at h
      · exact .closing (eq_of_beq hname) (adds_of_addElement h)
      · have hsame : ({ o.element with text := o.element.text } : Element) = o.element := by
          cases o.element
          rfl
        rw [← hsame] at h
        exact .closing (eq_of_beq hname) (adds_of_addElement h)
    · cases h

/-- Whatever a token does is one of the steps. -/
theorem step_of_add {t : Token × Nat} (h : d.add bytes t = .ok d') : Step bytes d t d' := by
  obtain ⟨t, stop⟩ := t
  cases t with
  | text cs | cdata cs =>
    cases h
    exact .text rfl (takesText_addText d cs)
  | reference body =>
    obtain ⟨cs, -, h⟩ := exists_of_bind h
    cases h
    exact .text rfl (takesText_addText d cs)
  | skipped =>
    cases h
    exact .text rfl (.dropped d)
  | opening tag =>
    obtain ⟨o, ho, h⟩ := exists_of_bind h
    cases h
    exact .opening ho
  | empty tag =>
    obtain ⟨o, ho, h⟩ := exists_of_bind h
    exact .empty ho (adds_of_addElement h)
  | closing tag => exact step_of_close h

end PartialDocument

end ContentSchema.Markup
