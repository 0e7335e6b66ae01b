import ContentSchema.Markup.Element

/-!
# Markup of other namespaces

Elements in a namespace other than that of models may stand anywhere in a tree. `Enriched` puts them
in, and `Element.modelPart` takes them out again.

Result: what was put into a tree is not in its model part (`Enriched.modelPart_eq`).
-/
namespace ContentSchema.Markup

/-- Whether an element is in a namespace other than that of models. -/
def Element.IsForeign (e : Element) : Prop :=
  ∃ uri, namespaceOf? e.tag = some uri ∧ uri ≠ modelNamespace

mutual

/-- Whether a tree comes from another one by putting foreign elements among the children of its
elements. -/
inductive Enriched : Element → Element → Prop
  /-- The element itself stays as it is. -/
  | node {tag : String} {attributes : List (String × String)} {es es' : List Element}
    {text : Option String} {line : Option Nat} {namespaces : List (Option String × String)}
    (children : EnrichedAll es es') :
    Enriched ⟨tag, attributes, es, text, line, namespaces⟩
      ⟨tag, attributes, es', text, line, namespaces⟩

/-- Whether elements come from others by putting foreign elements among them and inside them. -/
inductive EnrichedAll : List Element → List Element → Prop
  /-- There are none. -/
  | nil : EnrichedAll [] []
  /-- The first one was there. -/
  | keep {e e' : Element} {es es' : List Element} (head : Enriched e e')
    (tail : EnrichedAll es es') : EnrichedAll (e :: es) (e' :: es')
  /-- The first one was put in. -/
  | insert {e : Element} {es es' : List Element} (head : e.IsForeign)
    (tail : EnrichedAll es es') : EnrichedAll es (e :: es')

end

theorem Element.isForeign_iff {e : Element} : e.IsForeign ↔ e.isModelElement = false := by
  unfold Element.IsForeign Element.isModelElement
  cases namespaceOf? e.tag with
  | none => simp
  | some uri => simp

namespace Element

/-! ## The model part of a tree -/

mutual

/-- The element without the foreign elements inside it. -/
def modelPart : Element → Element
  | ⟨tag, attributes, children, text, line, namespaces⟩ =>
    ⟨tag, attributes, modelParts children, text, line, namespaces⟩

/-- The elements of the model among others, without the foreign elements inside them. -/
def modelParts : List Element → List Element
  | [] => []
  | e :: es => if e.isModelElement then modelPart e :: modelParts es else modelParts es

end

@[simp] theorem modelPart_get? (e : Element) (name : String) :
    e.modelPart.get? name = e.get? name := by
  cases e
  rfl

@[simp] theorem modelPart_localName (e : Element) : e.modelPart.localName = e.localName := by
  cases e
  rfl

@[simp] theorem modelPart_isModelElement (e : Element) :
    e.modelPart.isModelElement = e.isModelElement := by
  cases e
  rfl

@[simp] theorem modelPart_text (e : Element) : e.modelPart.text = e.text := by
  cases e
  rfl

@[simp] theorem modelPart_line (e : Element) : e.modelPart.line = e.line := by
  cases e
  rfl

theorem modelPart_children (e : Element) : e.modelPart.children = modelParts e.children := by
  cases e
  rfl

theorem modelParts_eq (es : List Element) :
    modelParts es = (es.filter (·.isModelElement)).map modelPart := by
  induction es with
  | nil => rfl
  | cons e es ih =>
    rw [modelParts]
    split
    · rename_i h
      rw [List.filter_cons_of_pos h, List.map_cons, ih]
    · rename_i h
      rw [List.filter_cons_of_neg h, ih]

/-- A choice of elements of the model that looks at their names and attributes chooses the same ones
in the model part. -/
theorem filter_modelParts {q : Element → Bool} (model : ∀ e, q e = true → e.isModelElement = true)
    (inside : ∀ e, q e.modelPart = q e) (es : List Element) :
    (modelParts es).filter q = (es.filter q).map modelPart := by
  rw [modelParts_eq, List.filter_map, List.filter_filter]
  have hq : q ∘ modelPart = q := funext inside
  rw [hq]
  refine congrArg (List.map modelPart) (List.filter_congr fun e _ => ?_)
  cases h : q e with
  | false => rfl
  | true => rw [model e h, Bool.and_true]

theorem modelChildren_modelPart (e : Element) (name : String) :
    e.modelPart.modelChildren name = (e.modelChildren name).map modelPart := by
  rw [modelChildren, modelPart_children]
  refine filter_modelParts (fun c hc => (Bool.and_eq_true_iff.1 hc).1) (fun c => ?_) e.children
  rw [modelPart_isModelElement, modelPart_localName]

end Element

mutual

/-- Foreign elements are not in the model part. -/
theorem Enriched.modelPart_eq {e e' : Element} (h : Enriched e e') :
    e'.modelPart = e.modelPart := by
  cases h with
  | node children => rw [Element.modelPart, Element.modelPart, children.modelParts_eq]

theorem EnrichedAll.modelParts_eq {es es' : List Element} (h : EnrichedAll es es') :
    Element.modelParts es' = Element.modelParts es := by
  cases h with
  | nil => rfl
  | @keep e e' _ _ head tail =>
    have hmodel : e'.isModelElement = e.isModelElement := by
      rw [← Element.modelPart_isModelElement, head.modelPart_eq, Element.modelPart_isModelElement]
    rw [Element.modelParts, Element.modelParts, hmodel, head.modelPart_eq, tail.modelParts_eq]
  | insert head tail =>
    rw [Element.modelParts, Element.isForeign_iff.1 head, if_neg Bool.false_ne_true, tail.modelParts_eq]

end

end ContentSchema.Markup
