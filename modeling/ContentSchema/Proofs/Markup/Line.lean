import ContentSchema.Proofs.Markup.Element
import ContentSchema.Proofs.Markup.Step

/-!
# Lines of elements

The reader notes a line on every element that it opens, and takes no line away when it adds texts and
elements to it.

Result: all elements of a document that was read have lines (`Element.lined_of_read`).
-/
namespace ContentSchema.Markup

/-- Whether all elements of a tree have lines. -/
def Element.Lined (e : Element) : Prop := ∀ x, e.Inside x → x.line ≠ none

theorem Element.lined_iff {e : Element} :
    e.Lined ↔ e.line ≠ none ∧ ∀ c ∈ e.children, c.Lined := by
  constructor
  · intro h
    exact ⟨h e .self, fun c hc x hx => h x (encloses_of_mem hc |>.inside.trans hx)⟩
  · rintro ⟨hline, hchildren⟩ x hx
    rcases inside_iff.1 hx with rfl | ⟨c, hc, hcx⟩
    · exact hline
    · exact hchildren c hc x hcx

theorem Element.Lined.withText {e : Element} (h : e.Lined) (text : Option String) :
    ({ e with text } : Element).Lined := by
  obtain ⟨hline, hchildren⟩ := lined_iff.1 h
  exact lined_iff.2 ⟨hline, hchildren⟩

namespace PartialDocument

variable {bytes : List UInt8} {d d' : PartialDocument}

/-- Whether all elements so far have lines. -/
structure Lined (d : PartialDocument) : Prop where
  /-- The open elements. -/
  opened : ∀ o ∈ d.opened, o.element.Lined
  /-- The root. -/
  root : ∀ root, d.root = some root → root.Lined

theorem Lined.takesText (h : d.Lined) (htext : TakesText d d') : d'.Lined := by
  cases htext with
  | dropped => exact h
  | text o os root text =>
    obtain ⟨ho, hos⟩ := List.forall_mem_cons.1 h.opened
    exact ⟨List.forall_mem_cons.2 ⟨ho.withText _, hos⟩, h.root⟩

theorem Lined.adds (h : d.Lined) {e : Element} (he : e.Lined) (hadds : Adds e d d') : d'.Lined := by
  cases hadds with
  | inside o os root =>
    obtain ⟨ho, hos⟩ := List.forall_mem_cons.1 h.opened
    obtain ⟨hline, hchildren⟩ := Element.lined_iff.1 ho
    refine ⟨List.forall_mem_cons.2 ⟨Element.lined_iff.2 ⟨hline, ?_⟩, hos⟩, h.root⟩
    exact List.forall_mem_append.2 ⟨hchildren, List.forall_mem_singleton.2 he⟩
  | root => exact ⟨List.forall_mem_nil _, fun _ hroot => Option.some.inj hroot ▸ he⟩

/-- Whether an element is one that a start tag opens. -/
structure OpenedBy (bytes : List UInt8) (tag : List Char) (stop : Nat) (e : Element) : Prop where
  /-- Its name is what the name of the tag stands for. -/
  named : ∃ bindings, resolveName bindings true (tagName tag) = .ok e.tag
  /-- Its line is the one that is found for the tag. -/
  line : e.line = some (startLine bytes stop)
  /-- There are no elements inside it. -/
  children : e.children = []

theorem openedBy_of_openElement {tag : List Char} {stop : Nat} {o : OpenElement}
    (h : d.openElement bytes tag stop = .ok o) : OpenedBy bytes tag stop o.element := by
  obtain ⟨bindings, -, h⟩ := exists_of_bind h
  obtain ⟨e, he, h⟩ := exists_of_bind h
  obtain ⟨name, hname, h⟩ := exists_of_bind h
  cases h
  -- attributes change neither the line nor the children
  have hkept : e.line = some (startLine bytes stop) ∧ e.children = [] := by
    refine of_foldlM (P := fun e => e.line = some (startLine bytes stop) ∧ e.children = []) ?_ he
      ⟨rfl, rfl⟩
    intro a _ e e' hkept hadd
    obtain ⟨a, -, hadd⟩ := exists_of_bind hadd
    obtain ⟨cs, -, hadd⟩ := exists_of_bind hadd
    split at hadd
    · cases hadd
      exact hkept
    · obtain ⟨name, -, hadd⟩ := exists_of_bind hadd
      cases hadd
      exact hkept
  exact ⟨⟨bindings, hname⟩, hkept.1, hkept.2⟩

theorem OpenedBy.lined {tag : List Char} {stop : Nat} {e : Element}
    (h : OpenedBy bytes tag stop e) : e.Lined := by
  refine Element.lined_iff.2 ⟨h.line ▸ Option.some_ne_none _, ?_⟩
  rw [h.children]
  exact List.forall_mem_nil _

theorem Lined.add (h : d.Lined) {t : Token × Nat} (hadd : d.add bytes t = .ok d') : d'.Lined := by
  cases step_of_add hadd with
  | text _ htext => exact h.takesText htext
  | opening ho =>
    exact ⟨List.forall_mem_cons.2 ⟨(openedBy_of_openElement ho).lined, h.opened⟩, h.root⟩
  | empty ho hadds => exact h.adds (openedBy_of_openElement ho).lined hadds
  | @closing _ _ _ _ os root _ _ hadds =>
    obtain ⟨ho, hos⟩ := List.forall_mem_cons.1 h.opened
    have houter : Lined ⟨os, root⟩ := ⟨hos, h.root⟩
    exact houter.adds (ho.withText _) hadds

end PartialDocument

/-- All elements of a document that was read have lines. -/
theorem Element.lined_of_read {text : String} {root : Element} (h : Element.read text = .ok root) :
    root.Lined := by
  obtain ⟨d, hd, h⟩ := exists_of_bind h
  have hlined : d.Lined := of_foldlM (fun t _ _ _ hd hadd => PartialDocument.Lined.add hd hadd) hd
    ⟨List.forall_mem_nil _, nofun⟩
  split at h
  · cases h
  · rename_i hroot
    cases h
    exact hlined.root root hroot
  · cases h

end ContentSchema.Markup

