import ContentSchema.Proofs.Markup.Step

/-!
# Tags in accepted documents

The tags between a start tag and its end tag are balanced (`Content`). Reading a document keeps a
stack of the start tags that wait for an end tag (`LeftOpen`), and outside of these it has seen no
tags or those of the root element (`Outside`). Each token keeps this (`progress_add`).

At the end the stack is not looked at, once there is a root. Result: an accepted document has one
root element, and behind it no further element that is closed; but an element may begin there that
is left open (`rooted_of_read`).
-/
namespace ContentSchema.Markup

open PartialDocument (endName)

/-! ## Balanced tags -/

/-- Whether no token is a tag. -/
def NoTags (ts : List (Token × Nat)) : Prop := ∀ t ∈ ts, t.1.isTag = false

/-- Whether each start tag in the tokens has an end tag with its name, and these are nested. -/
inductive Content : List (Token × Nat) → Prop
  /-- No tokens. -/
  | nil : Content []
  /-- A token that is no tag. -/
  | plain {t : Token × Nat} {ts : List (Token × Nat)} (ht : t.1.isTag = false) (h : Content ts) :
    Content (t :: ts)
  /-- The tag of an empty element. -/
  | empty {tag : List Char} {stop : Nat} {ts : List (Token × Nat)} (h : Content ts) :
    Content ((.empty tag, stop) :: ts)
  /-- A start tag, what stands inside, and the end tag. -/
  | element {tag tag' : List Char} {start stop : Nat} {inside ts : List (Token × Nat)}
    (hname : tagName tag = endName tag') (hinside : Content inside) (h : Content ts) :
    Content ((.opening tag, start) :: (inside ++ (.closing tag', stop) :: ts))

/-- Whether the tokens are those of one element. -/
inductive IsElement : List (Token × Nat) → Prop
  /-- An empty element. -/
  | empty (tag : List Char) (stop : Nat) : IsElement [(.empty tag, stop)]
  /-- A start tag, what stands inside, and the end tag. -/
  | tags {tag tag' : List Char} {start stop : Nat} {inside : List (Token × Nat)}
    (hname : tagName tag = endName tag') (hinside : Content inside) :
    IsElement ((.opening tag, start) :: (inside ++ [(.closing tag', stop)]))

/-- Whether the tokens are those of one element, with no tags around it. -/
def SingleRooted (ts : List (Token × Nat)) : Prop :=
  ∃ before element after, ts = before ++ element ++ after ∧ NoTags before ∧ IsElement element ∧
    NoTags after

/-- Whether the tokens are start tags that are left open, each with content behind it. Their names
are listed, the innermost first. -/
inductive LeftOpen : List (List Char) → List (Token × Nat) → Prop
  /-- Nothing is left open. -/
  | nil : LeftOpen [] []
  /-- One more start tag. -/
  | tag {names : List (List Char)} {outer inside : List (Token × Nat)} {tag : List Char}
    {start : Nat} (h : LeftOpen names outer) (hinside : Content inside) :
    LeftOpen (tagName tag :: names) (outer ++ (.opening tag, start) :: inside)

theorem NoTags.content {ts : List (Token × Nat)} (h : NoTags ts) : Content ts := by
  induction ts with
  | nil => exact .nil
  | cons t ts ih => exact .plain (h t (.head _)) (ih fun u hu => h u (.tail _ hu))

theorem NoTags.append {ts us : List (Token × Nat)} (h : NoTags ts) (h' : NoTags us) :
    NoTags (ts ++ us) := by
  intro t ht
  exact (List.mem_append.1 ht).elim (h t) (h' t)

theorem Content.append {ts us : List (Token × Nat)} (h : Content ts) (h' : Content us) :
    Content (ts ++ us) := by
  induction h with
  | nil => exact h'
  | plain ht _ ih => exact .plain ht ih
  | empty _ ih => exact .empty ih
  | @element tag tag' start stop inside ts hname hinside _ _ ih =>
    rw [List.cons_append, List.append_assoc, List.cons_append]
    exact .element hname hinside ih

theorem IsElement.content {ts : List (Token × Nat)} (h : IsElement ts) : Content ts := by
  cases h with
  | empty => exact .empty .nil
  | tags hname hinside => exact .element hname hinside .nil

theorem SingleRooted.content {ts : List (Token × Nat)} (h : SingleRooted ts) : Content ts := by
  obtain ⟨before, element, after, rfl, hbefore, helement, hafter⟩ := h
  exact (hbefore.content.append helement.content).append hafter.content

/-- Content goes into the innermost tag that is left open. -/
theorem LeftOpen.append {name : List Char} {names : List (List Char)} {ts us : List (Token × Nat)}
    (h : LeftOpen (name :: names) ts) (h' : Content us) : LeftOpen (name :: names) (ts ++ us) := by
  cases h with
  | tag h hinside =>
    rw [List.append_assoc, List.cons_append]
    exact .tag h (hinside.append h')

/-- An end tag makes an element of the innermost tag that is left open. -/
theorem LeftOpen.close {name : List Char} {names : List (List Char)} {ts : List (Token × Nat)}
    (h : LeftOpen (name :: names) ts) {tag : List Char} (hname : name = endName tag) (stop : Nat) :
    ∃ outer element, ts ++ [(.closing tag, stop)] = outer ++ element ∧ LeftOpen names outer ∧
      IsElement element := by
  cases h with
  | @tag _ outer inside tag' start h hinside =>
    refine ⟨outer, (.opening tag', start) :: (inside ++ [(.closing tag, stop)]), ?_, h,
      .tags hname hinside⟩
    rw [List.append_assoc, List.cons_append]

/-! ## Counting tags -/

/-- The number of start tags. -/
def startTags (ts : List (Token × Nat)) : Nat := ts.countP fun t => t.1 matches .opening _

/-- The number of end tags. -/
def endTags (ts : List (Token × Nat)) : Nat := ts.countP fun t => t.1 matches .closing _

theorem Content.startTags_eq {ts : List (Token × Nat)} (h : Content ts) :
    startTags ts = endTags ts := by
  induction h with
  | nil => rfl
  | @plain t ts ht _ ih =>
    obtain ⟨t, stop⟩ := t
    cases t <;> simp_all [startTags, endTags, Token.isTag]
  | empty _ ih => simpa [startTags, endTags] using ih
  | element _ _ _ ih ih' =>
    simp [startTags, endTags] at ih ih' ⊢
    omega

theorem LeftOpen.startTags_eq {names : List (List Char)} {ts : List (Token × Nat)}
    (h : LeftOpen names ts) : startTags ts = endTags ts + names.length := by
  induction h with
  | nil => rfl
  | tag _ hinside ih =>
    have := hinside.startTags_eq
    simp [startTags, endTags] at this ih ⊢
    omega

/-- Behind content, there are as many start tags as end tags just if none is left open. -/
theorem startTags_eq_iff {names : List (List Char)} {outside rest : List (Token × Nat)}
    (houtside : Content outside) (hrest : LeftOpen names rest) :
    startTags (outside ++ rest) = endTags (outside ++ rest) ↔ names = [] := by
  have houtside := houtside.startTags_eq
  have hrest := hrest.startTags_eq
  rw [← List.length_eq_zero_iff]
  simp only [startTags, endTags, List.countP_append] at houtside hrest ⊢
  omega

/-! ## What a token does -/

namespace PartialDocument

variable {bytes : List UInt8} {d d' : PartialDocument}

/-- The names of the open elements, the innermost first. -/
def names (d : PartialDocument) : List (List Char) := d.opened.map (·.name)

theorem TakesText.names (h : TakesText d d') : d'.names = d.names ∧ d'.root = d.root := by
  cases h with
  | dropped => exact ⟨rfl, rfl⟩
  | text => exact ⟨rfl, rfl⟩

/-- Whether a complete element went into the innermost open one, or became the root. -/
def Placed (names : List (List Char)) (root : Option Element) (d' : PartialDocument) : Prop :=
  (names ≠ [] ∧ d'.names = names ∧ d'.root = root) ∨
    (names = [] ∧ root = none ∧ ∃ e, d' = ⟨[], some e⟩)

theorem Adds.placed {e : Element} (h : Adds e d d') : Placed d.names d.root d' := by
  cases h with
  | inside => exact .inl ⟨List.cons_ne_nil _ _, rfl, rfl⟩
  | root => exact .inr ⟨rfl, rfl, e, rfl⟩

theorem name_openElement {tag : List Char} {stop : Nat} {o : OpenElement}
    (h : d.openElement bytes tag stop = .ok o) : o.name = tagName tag := by
  obtain ⟨bindings, -, h⟩ := exists_of_bind h
  obtain ⟨e, -, h⟩ := exists_of_bind h
  obtain ⟨name, -, h⟩ := exists_of_bind h
  cases h
  rfl

/-- What one token does to the open elements and the root. -/
theorem add_cases {t : Token × Nat} (h : d.add bytes t = .ok d') :
    (t.1.isTag = false ∧ d'.names = d.names ∧ d'.root = d.root) ∨
      (∃ tag stop, t = (.opening tag, stop) ∧ d'.names = tagName tag :: d.names ∧
        d'.root = d.root) ∨
      (∃ tag stop, t = (.empty tag, stop) ∧ Placed d.names d.root d') ∨
      ∃ tag stop names, t = (.closing tag, stop) ∧ d.names = endName tag :: names ∧
        Placed names d.root d' := by
  cases step_of_add h with
  | text ht h => exact .inl ⟨ht, h.names⟩
  | @opening _ tag stop o ho =>
    refine .inr (.inl ⟨tag, stop, rfl, ?_, rfl⟩)
    rw [← name_openElement ho]
    rfl
  | @empty _ _ tag stop _ _ hadds => exact .inr (.inr (.inl ⟨tag, stop, rfl, hadds.placed⟩))
  | @closing _ tag stop o os root _ hname hadds =>
    exact .inr (.inr (.inr ⟨tag, stop, names ⟨os, root⟩, rfl, congrArg (· :: _) hname, hadds.placed⟩))

end PartialDocument

/-! ## What is read -/

/-- Whether the tokens outside of open elements are those that a document begins with: no tags
before there is a root, and otherwise those of the root element, which are read as the root. -/
inductive Outside (bytes : List UInt8) : Option Element → List (Token × Nat) → Prop
  /-- There is no root. -/
  | before {ts : List (Token × Nat)} (h : NoTags ts) : Outside bytes none ts
  /-- There is a root. -/
  | behind {root : Element} {before element after : List (Token × Nat)} (hbefore : NoTags before)
    (helement : IsElement element) (hafter : NoTags after)
    (hread : (before ++ element).foldlM (PartialDocument.add bytes) {} = .ok ⟨[], some root⟩) :
    Outside bytes (some root) (before ++ element ++ after)

/-- Whether a document is what the tokens so far are read as. -/
structure Progress (bytes : List UInt8) (ts : List (Token × Nat)) (d : PartialDocument) : Prop where
  /-- The tokens lead to it. -/
  read : ts.foldlM (PartialDocument.add bytes) {} = .ok d
  /-- The open elements are those that are left open, and the root is what stands outside. -/
  parts : ∃ outside inside, ts = outside ++ inside ∧ Outside bytes d.root outside ∧
    LeftOpen d.names inside

section Progress

variable {bytes : List UInt8} {d d' : PartialDocument} {ts : List (Token × Nat)}

theorem Outside.append {root : Option Element} (h : Outside bytes root ts) {us : List (Token × Nat)}
    (h' : NoTags us) : Outside bytes root (ts ++ us) := by
  cases h with
  | before h => exact .before (h.append h')
  | behind hbefore helement hafter hread =>
    rw [List.append_assoc]
    exact .behind hbefore helement (hafter.append h') hread

/-- An element that is complete is kept inside or is the root. -/
theorem progress_of_element {outside outer element : List (Token × Nat)} {root : Option Element}
    {names : List (List Char)} (houtside : Outside bytes root outside)
    (houter : LeftOpen names outer) (helement : IsElement element)
    (hplaced : PartialDocument.Placed names root d')
    (hread : (outside ++ (outer ++ element)).foldlM (PartialDocument.add bytes) {} = .ok d') :
    Progress bytes (outside ++ (outer ++ element)) d' := by
  refine ⟨hread, ?_⟩
  rcases hplaced with ⟨hne, hnames, hroot⟩ | ⟨rfl, rfl, e, rfl⟩
  · obtain ⟨name, names, rfl⟩ := List.exists_cons_of_ne_nil hne
    exact ⟨outside, outer ++ element, rfl, hroot ▸ houtside,
      hnames ▸ houter.append helement.content⟩
  -- nothing is open around it and there was no root, so that only text stands before it
  · cases houter
    cases houtside with
    | before hbefore =>
      rw [List.nil_append] at hread ⊢
      refine ⟨outside ++ element, [], (List.append_nil _).symm, ?_, .nil⟩
      have hafter := Outside.behind hbefore helement (List.forall_mem_nil _) hread
      rwa [List.append_nil] at hafter

/-- One more token. -/
theorem progress_add {t : Token × Nat} (h : Progress bytes ts d) (hadd : d.add bytes t = .ok d') :
    Progress bytes (ts ++ [t]) d' := by
  obtain ⟨hread, outside, inside, rfl, houtside, hinside⟩ := h
  have hread' : (outside ++ inside ++ [t]).foldlM (PartialDocument.add bytes) {} = .ok d' := by
    rw [List.foldlM_append, hread]
    change d.add bytes t >>= pure = .ok d'
    rw [hadd]
    rfl
  rw [List.append_assoc] at hread' ⊢
  rcases PartialDocument.add_cases hadd with ⟨hplain, hnames, hroot⟩ |
    ⟨tag, stop, rfl, hnames, hroot⟩ | ⟨tag, stop, rfl, hplaced⟩ |
    ⟨tag, stop, names, rfl, hnames, hplaced⟩
  -- without a tag the token belongs to the innermost open element, or stands outside
  · have hone : NoTags [t] := List.forall_mem_singleton.2 hplain
    refine ⟨hread', ?_⟩
    rw [hroot, hnames]
    cases hd : d.names with
    | nil =>
      rw [hd] at hinside
      cases hinside
      rw [List.nil_append]
      exact ⟨outside ++ [t], [], (List.append_nil _).symm, houtside.append hone, .nil⟩
    | cons name names =>
      rw [hd] at hinside
      exact ⟨outside, inside ++ [t], rfl, houtside, hinside.append hone.content⟩
  · exact ⟨hread', outside, _, rfl, hroot ▸ houtside, hnames ▸ .tag hinside .nil⟩
  · exact progress_of_element houtside hinside (.empty tag stop) hplaced hread'
  -- an end tag makes an element of what has been left open last
  · rw [hnames] at hinside
    obtain ⟨outer, element, helement', houter, helement⟩ := hinside.close rfl stop
    rw [helement'] at hread' ⊢
    exact progress_of_element houtside houter helement hplaced hread'

/-- All further tokens. -/
theorem progress_foldlM {more : List (Token × Nat)} (h : Progress bytes ts d)
    (hmore : more.foldlM (PartialDocument.add bytes) d = .ok d') :
    Progress bytes (ts ++ more) d' := by
  induction more generalizing ts d with
  | nil =>
    cases hmore
    rwa [List.append_nil]
  | cons t more ih =>
    rw [List.foldlM_cons] at hmore
    obtain ⟨e, he, hmore⟩ := exists_of_bind hmore
    rw [List.append_cons]
    exact ih (progress_add h he) hmore

end Progress

/-! ## Accepted documents -/

/-- The tokens of an accepted document are those of one element, which is read as the root, and no
tags around it; then there may be start tags that are left open, with content in between. Just if
there are none, all start tags have their end tags, and all elements are in the root element. -/
theorem rooted_of_read {text : String} {root : Element} (h : Element.read text = .ok root) :
    ∃ before element after names rest,
      tokensFrom 0 (withoutMark text.toList) = ⟨before ++ element ++ after ++ rest, none⟩ ∧
      NoTags before ∧ IsElement element ∧ NoTags after ∧ LeftOpen names rest ∧
      (before ++ element).foldlM (PartialDocument.add text.toUTF8.data.toList) {} =
        .ok ⟨[], some root⟩ ∧
      (Content (before ++ element ++ after ++ rest) ↔ names = []) ∧
      (SingleRooted (before ++ element ++ after ++ rest) ↔ names = []) ∧
      (startTags (before ++ element ++ after ++ rest) =
        endTags (before ++ element ++ after ++ rest) ↔ names = []) := by
  generalize htokens : tokensFrom 0 (withoutMark text.toList) = tokens
  obtain ⟨tokens, failure⟩ := tokens
  rw [Element.read, htokens] at h
  obtain ⟨d, hd, h⟩ := exists_of_bind h
  have hstart : Progress text.toUTF8.data.toList [] {} :=
    ⟨rfl, [], [], rfl, .before (List.forall_mem_nil _), .nil⟩
  obtain ⟨-, outside, rest, hparts, houtside, hrest⟩ := progress_foldlM hstart hd
  cases failure with
  | some failure => cases h
  | none =>
    rw [List.nil_append] at hparts
    subst hparts
    cases hroot : d.root with
    | none =>
      rw [hroot] at h
      cases h
    | some found =>
      rw [hroot] at h houtside
      cases h
      cases houtside with
      | @behind _ before element after hbefore helement hafter hread =>
        have hsingle : SingleRooted (before ++ element ++ after) :=
          ⟨before, element, after, rfl, hbefore, helement, hafter⟩
        have hnames := startTags_eq_iff hsingle.content hrest
        have hclosed : d.names = [] → SingleRooted (before ++ element ++ after ++ rest) := by
          intro hnil
          rw [hnil] at hrest
          cases hrest
          rwa [List.append_nil]
        exact ⟨before, element, after, d.names, rest, rfl, hbefore, helement, hafter, hrest, hread,
          ⟨fun h => hnames.1 h.startTags_eq, fun h => (hclosed h).content⟩,
          ⟨fun h => hnames.1 h.content.startTags_eq, hclosed⟩, hnames⟩

/-- A document with something around and inside its root element. -/
theorem rooted_of_read_around :
    ∃ root, Element.read "<?xml?><a>x<b/></a> " = .ok root ∧ root.tag = "a" ∧
      Content (tokensFrom 0 (withoutMark "<?xml?><a>x<b/></a> ".toList)).tokens ∧
      SingleRooted (tokensFrom 0 (withoutMark "<?xml?><a>x<b/></a> ".toList)).tokens := by
  have hcount : startTags (tokensFrom 0 (withoutMark "<?xml?><a>x<b/></a> ".toList)).tokens =
      endTags (tokensFrom 0 (withoutMark "<?xml?><a>x<b/></a> ".toList)).tokens := by decide +kernel
  have hroot : (Element.read "<?xml?><a>x<b/></a> ").toOption.map (·.tag) = some "a" := by
    decide +kernel
  obtain ⟨root, hread, htag⟩ := exists_of_toOption_map hroot
  obtain ⟨before, element, after, names, rest, htokens, -, -, -, -, -, hcontent, hsingle, hiff⟩ :=
    rooted_of_read hread
  rw [htokens] at hcount ⊢
  have hnames := hiff.1 hcount
  exact ⟨root, hread, htag, hcontent.2 hnames, hsingle.2 hnames⟩

/-- A document with a second element behind its root element, which is left open and not seen. -/
theorem not_singleRooted_of_read :
    ∃ root, Element.read "<a/><b>" = .ok root ∧ root.tag = "a" ∧ root.children = [] ∧
      ¬ Content (tokensFrom 0 (withoutMark "<a/><b>".toList)).tokens ∧
      ¬ SingleRooted (tokensFrom 0 (withoutMark "<a/><b>".toList)).tokens := by
  have hroot : (Element.read "<a/><b>").toOption.map
      (fun root => (root.tag, root.children.length)) = some ("a", 0) := by decide +kernel
  have hcount : startTags (tokensFrom 0 (withoutMark "<a/><b>".toList)).tokens ≠
      endTags (tokensFrom 0 (withoutMark "<a/><b>".toList)).tokens := by decide +kernel
  obtain ⟨root, hread, hparts⟩ := exists_of_toOption_map hroot
  obtain ⟨htag, hchildren⟩ := Prod.mk.inj hparts
  exact ⟨root, hread, htag, List.length_eq_zero_iff.1 hchildren, fun h => hcount h.startTags_eq,
    fun h => hcount h.content.startTags_eq⟩

end ContentSchema.Markup
