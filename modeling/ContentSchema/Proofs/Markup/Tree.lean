import ContentSchema.Proofs.Markup.Reader

/-!
# Element trees read back

The characters that are written for an element tree are read as a tree with the same names,
attributes, declarations and texts. Only the pretty form changes texts: where children stand on
lines of their own, the indentation of the first of them is read.

Each element is read back when the elements inside it are (`readsBack_of_children`), whatever is to
be said of those; so a fact about trees is carried over by induction. The result for whole trees is
`Element.read_of_write`.
-/
namespace ContentSchema.Markup

/-- Whether the names of an element can be written inside declarations, and its own declarations
too. -/
structure Nameable (outer : Declarations) (e : Element) : Prop where
  /-- The tag is plain. -/
  tag : isPlainName (localName e.tag) = true
  /-- The names of the attributes are plain, and none declares a namespace. -/
  names : ∀ a ∈ e.attributes, isPlainName (localName a.1) = true ∧ a.1 ≠ "xmlns"
  /-- No attribute is repeated. -/
  distinct : (e.attributes.map (·.1)).Nodup
  /-- No declaration is repeated. -/
  prefixes : (e.namespaces.map (·.1)).Nodup
  /-- Inside the element, the declarations are proper. -/
  proper : (outer.inside e.namespaces).Proper

/-- The text that is read for an element at a depth. Children on lines of their own have the
indentation of the first one in front of them; an empty text in front of children is not seen. -/
def textRead (pretty : Bool) (depth : Nat) (e : Element) : Option String :=
  if indentsChildren pretty e.text e.children then some (String.ofList (indentation (depth + 1)))
  else if e.children.isEmpty then e.text
  else e.text.filter (!·.isEmpty)

theorem textRead_of_childless {e : Element} (h : e.children = []) (pretty : Bool) (depth : Nat) :
    textRead pretty depth e = e.text := by
  simp [textRead, indentsChildren, h]

/-- Whether an element is what is read for another one that was written inside declarations, at a
depth, when the elements inside are what `R` says. -/
structure ReadFor (R : Element → Element → Prop) (pretty : Bool) (outer : Declarations)
    (depth : Nat) (e e' : Element) : Prop where
  /-- The tag is in a namespace. -/
  tag : e'.tag = (outer.inside e.namespaces).tagInside e.tag
  /-- The attributes are the same. -/
  attributes : e'.attributes = e.attributes
  /-- The declarations are the same. -/
  namespaces : e'.namespaces = e.namespaces
  /-- The text is the same, as far as it is kept. -/
  text : e'.text = textRead pretty depth e
  /-- The elements inside. -/
  children : List.Forall₂ R e.children e'.children

/-- Whether the characters that are written for an element inside declarations are read, in the
place of one element, as another one that `R` relates it to. -/
def ReadsBack (R : Element → Element → Prop) (pretty : Bool) (outer : Declarations) (depth : Nat)
    (e : Element) : Prop :=
  ∀ written, writeElement pretty outer depth e = .ok written →
    ∃ cs, written = '<' :: cs ∧
      ∀ (bytes : List UInt8) (start : Nat) (rest : List Char) (d : PartialDocument),
        d.bindings = outer.bindings → (d.opened = [] → d.root = none) →
          ∃ stop e' d', R e e' ∧ d.addElement e' = .ok d' ∧
            Takes bytes start ('<' :: (cs ++ rest)) d stop rest d'

theorem ReadsBack.imp {R S : Element → Element → Prop} {pretty : Bool} {outer : Declarations}
    {depth : Nat} {e : Element} (h : ReadsBack R pretty outer depth e)
    (hRS : ∀ e', R e e' → S e e') : ReadsBack S pretty outer depth e := by
  intro written hwritten
  obtain ⟨cs, hcs, hread⟩ := h written hwritten
  refine ⟨cs, hcs, fun bytes start rest d hb hroot => ?_⟩
  obtain ⟨stop, e', d', he, hrest⟩ := hread bytes start rest d hb hroot
  exact ⟨stop, e', d', hRS e' he, hrest⟩

/-! ## What is written -/

/-- What stands in front of the elements inside an element. -/
def leadingText (indented : Bool) (text : Option String) : List Char :=
  if indented then [] else (text.getD "").toList.flatMap escapeTextChar

/-- What stands behind the elements inside an element. -/
def trailingText (indented : Bool) (depth : Nat) : List Char :=
  if indented then indentation depth else []

/-- Attributes are written with keys for their names. -/
theorem exists_pairs {ds : Declarations} {attributes : List (String × String)}
    {written : List (List Char)}
    (h : attributes.mapM (fun a => do
      return writtenAttribute (← writtenName ds false a.1) a.2) = .ok written) :
    ∃ pairs, written.flatten = writtenAttributes pairs ∧
      List.Forall₂ (fun a p => writtenName ds false a.1 = .ok p.1 ∧ p.2 = a.2) attributes pairs := by
  have hall := forall₂_of_mapM h
  clear h
  induction hall with
  | nil => exact ⟨[], rfl, .nil⟩
  | @cons a w attributes written haw _ ih =>
    obtain ⟨pairs, hwritten, hpairs⟩ := ih
    obtain ⟨key, hkey, hw⟩ := exists_of_bind haw
    cases hw
    refine ⟨(key, a.2) :: pairs, ?_, .cons ⟨hkey, rfl⟩ hpairs⟩
    rw [List.flatten_cons, hwritten]
    rfl

/-- The characters of an element: a start tag with its declarations and attributes, alone or with
what stands inside and an end tag. -/
theorem writeElement_cases {pretty : Bool} {outer : Declarations} {depth : Nat} {e : Element}
    {written : List Char} (h : writeElement pretty outer depth e = .ok written) :
    ∃ name pairs, writtenName (outer.inside e.namespaces) true e.tag = .ok name ∧
      List.Forall₂ (fun a p => writtenName (outer.inside e.namespaces) false a.1 = .ok p.1 ∧ p.2 = a.2)
        e.attributes pairs ∧
      ((e.children = [] ∧ e.text = none ∧ written =
          '<' :: (name ++ writtenAttributes (declarationPairs e.namespaces ++ pairs) ++ ['/', '>'])) ∨
        ((e.children = [] → e.text ≠ none) ∧ ∃ inside,
          writeElements pretty (indentsChildren pretty e.text e.children)
            (outer.inside e.namespaces) (depth + 1) e.children = .ok inside ∧
          written = '<' :: (name ++ writtenAttributes (declarationPairs e.namespaces ++ pairs) ++ '>' ::
            (leadingText (indentsChildren pretty e.text e.children) e.text ++ (inside ++
              (trailingText (indentsChildren pretty e.text e.children) depth ++
                '<' :: '/' :: (name ++ ['>']))))))) := by
  obtain ⟨tag, attributes, children, text, line, namespaces⟩ := e
  rw [writeElement] at h
  obtain ⟨name, hname, h⟩ := exists_of_bind h
  obtain ⟨attributes', hattributes, h⟩ := exists_of_bind h
  obtain ⟨pairs, hpairs, hkeys⟩ := exists_pairs hattributes
  refine ⟨name, pairs, hname, hkeys, ?_⟩
  have hstart : name ++ namespaces.flatMap writtenDeclaration ++ attributes'.flatten =
      name ++ writtenAttributes (declarationPairs namespaces ++ pairs) := by
    rw [hpairs, flatMap_writtenDeclaration, writtenAttributes, writtenAttributes, writtenAttributes,
      List.flatMap_append, List.append_assoc]
  simp only [hstart] at h
  split at h
  · rename_i hempty
    cases h
    simp only [Bool.and_eq_true, List.isEmpty_iff, Option.isNone_iff_eq_none] at hempty
    exact .inl ⟨hempty.1, hempty.2, rfl⟩
  · rename_i hempty
    obtain ⟨inside, hinside, h⟩ := exists_of_bind h
    cases h
    refine .inr ⟨fun hnil hnone => hempty ?_, inside, hinside, ?_⟩
    · simp only at hnil hnone
      rw [hnil, hnone]
      rfl
    · simp [leadingText, trailingText]

/-! ## What is read -/

theorem PartialDocument.exists_addElement {d : PartialDocument} (h : d.opened = [] → d.root = none)
    (e : Element) : ∃ d', d.addElement e = .ok d' := by
  obtain ⟨opened, root⟩ := d
  cases opened with
  | nil =>
    cases h rfl
    exact ⟨_, rfl⟩
  | cons o os => exact ⟨_, rfl⟩

/-- Indentation is text without references. -/
theorem exists_takes_indentation (depth : Nat) (rest : List Char) (bytes : List UInt8)
    (d : PartialDocument) (start : Nat) :
    ∃ stop, Takes bytes start (indentation depth ++ '<' :: rest) d stop ('<' :: rest)
      (d.addText (indentation depth)) := by
  have hplain : (indentation depth).flatMap escapeTextChar = indentation depth := by
    refine flatMap_escapeTextChar_of_plain fun c hc => ?_
    rcases List.mem_cons.1 hc with rfl | hc
    · decide
    · rw [List.eq_of_mem_replicate hc]
      decide
  have hne : indentation depth ≠ [] := List.cons_ne_nil _ _
  have htakes := exists_takes_text hne rest bytes d start
  rwa [hplain] at htakes

/-- An open element with a text and children. -/
def OpenElement.fill (o : OpenElement) (text : Option String) (children : List Element) :
    OpenElement :=
  { o with element := { o.element with text, children } }

theorem OpenElement.fill_self (o : OpenElement) :
    o.fill o.element.text o.element.children = o := by
  obtain ⟨name, bindings, element⟩ := o
  cases element
  rfl

/-- Text goes into the innermost element, unless that has children already. -/
theorem OpenElement.addText_eq (o : OpenElement) (os : List OpenElement) (root : Option Element)
    (cs : List Char) :
    PartialDocument.addText ⟨o :: os, root⟩ cs =
      ⟨o.fill (if o.element.children.isEmpty then some (o.element.text.getD "" ++ String.ofList cs)
        else o.element.text) o.element.children :: os, root⟩ := by
  obtain ⟨name, bindings, element⟩ := o
  cases element with
  | mk tag attributes children text line namespaces =>
    cases children with
    | nil => rfl
    | cons c children => rfl

/-- The text of an open element once further elements stand inside it, on lines of their own or
not. -/
def OpenElement.textBefore (o : OpenElement) (indented : Bool) (depth : Nat) (es : List Element) :
    Option String :=
  if indented && !es.isEmpty && o.element.children.isEmpty then
    some (o.element.text.getD "" ++ String.ofList (indentation depth))
  else o.element.text

/-- Elements are read back one by one, on lines of their own or not. -/
theorem exists_takes_elements {R : Element → Element → Prop} {pretty indented : Bool}
    {outer : Declarations} {depth : Nat} {es : List Element}
    (h : ∀ e ∈ es, ReadsBack R pretty outer depth e) {cs : List Char}
    (hcs : writeElements pretty indented outer depth es = .ok cs) :
    (indented = false → ∀ rest, ∃ more, cs ++ '<' :: rest = '<' :: more) ∧
      ∀ (bytes : List UInt8) (start : Nat) (rest : List Char) (o : OpenElement)
        (os : List OpenElement) (root : Option Element), o.bindings = outer.bindings →
          ∃ stop es', List.Forall₂ R es es' ∧
            Takes bytes start (cs ++ rest) ⟨o :: os, root⟩ stop rest
              ⟨o.fill (o.textBefore indented depth es) (o.element.children ++ es') :: os, root⟩ := by
  induction es generalizing cs with
  | nil =>
    cases hcs
    refine ⟨fun _ rest => ⟨rest, rfl⟩, fun bytes start rest o os root _ => ⟨start, [], .nil, ?_⟩⟩
    have hfill : o.fill (o.textBefore indented depth []) (o.element.children ++ []) = o := by
      rw [OpenElement.textBefore, List.isEmpty_nil, Bool.not_true, Bool.and_false, Bool.false_and,
        List.append_nil]
      exact o.fill_self
    rw [hfill]
    exact .refl _ _ _
  | cons e es ih =>
    rw [writeElements] at hcs
    obtain ⟨written, hwritten, hcs⟩ := exists_of_bind hcs
    obtain ⟨more, hmore, hcs⟩ := exists_of_bind hcs
    cases hcs
    obtain ⟨first, rfl, hread⟩ := h e (.head _) written hwritten
    obtain ⟨-, hreadMore⟩ := ih (fun c hc => h c (.tail _ hc)) hmore
    refine ⟨?_, fun bytes start rest o os root ho => ?_⟩
    · rintro rfl rest
      exact ⟨first ++ more ++ '<' :: rest, rfl⟩
    · -- the line of the first element, which only counts in front of all elements
      have hlead : ∃ place, Takes bytes start ((if indented then indentation depth else []) ++
          '<' :: (first ++ (more ++ rest))) ⟨o :: os, root⟩ place ('<' :: (first ++ (more ++ rest)))
            ⟨o.fill (o.textBefore indented depth (e :: es)) o.element.children :: os, root⟩ := by
        cases indented with
        | false => exact ⟨start, o.fill_self.symm ▸ .refl _ _ _⟩
        | true =>
          have hindentation := exists_takes_indentation depth (first ++ (more ++ rest)) bytes
            ⟨o :: os, root⟩ start
          rwa [OpenElement.addText_eq] at hindentation
      obtain ⟨place, htakes⟩ := hlead
      generalize o.textBefore indented depth (e :: es) = lead at htakes ⊢
      obtain ⟨next, e', d', he, hadd, htakesFirst⟩ := hread bytes place (more ++ rest)
        ⟨o.fill lead o.element.children :: os, root⟩ ho nofun
      cases hadd
      obtain ⟨stop, es', hes, htakesMore⟩ := hreadMore bytes next rest
        (o.fill lead (o.element.children ++ [e'])) os root ho
      refine ⟨stop, e' :: es', .cons he hes, ?_⟩
      have htext : (o.fill lead (o.element.children ++ [e'])).textBefore indented depth es = lead := by
        simp [OpenElement.textBefore, OpenElement.fill]
      have hfill : (o.fill lead (o.element.children ++ [e'])).fill lead
          ((o.fill lead (o.element.children ++ [e'])).element.children ++ es') =
            o.fill lead (o.element.children ++ e' :: es') := by
        simp [OpenElement.fill]
      have hcs : (if indented then indentation depth else []) ++ '<' :: first ++ more ++ rest =
          (if indented then indentation depth else []) ++ '<' :: (first ++ (more ++ rest)) := by simp
      rw [htext, hfill] at htakesMore
      rw [hcs]
      exact htakes.trans (htakesFirst.trans htakesMore)

/-- The text in front of the elements inside an element is read, unless it is empty. -/
theorem exists_takes_leading {o : OpenElement} (hchildren : o.element.children = [])
    (htext : o.element.text = none) (text : Option String) (rest : List Char) (bytes : List UInt8)
    (os : List OpenElement) (root : Option Element) (start : Nat) :
    ∃ stop, Takes bytes start ((text.getD "").toList.flatMap escapeTextChar ++ '<' :: rest)
      ⟨o :: os, root⟩ stop ('<' :: rest) ⟨o.fill (text.filter (!·.isEmpty)) [] :: os, root⟩ := by
  by_cases hempty : text.getD "" = ""
  · have hnone : text.filter (!·.isEmpty) = none := by
      cases text with
      | none => rfl
      | some t =>
        rw [show t = "" from hempty]
        rfl
    rw [hempty, hnone, ← hchildren, ← htext, OpenElement.fill_self]
    exact ⟨start, .refl _ _ _⟩
  · obtain ⟨t, rfl⟩ : ∃ t, text = some t := Option.ne_none_iff_exists'.1 fun hnone =>
      hempty (by rw [hnone]; rfl)
    have hne : t ≠ "" := hempty
    have hread := exists_takes_text (fun he => hne (String.toList_eq_nil_iff.1 he)) rest bytes
      ⟨o :: os, root⟩ start
    have hlead : (some t).filter (!·.isEmpty) =
        some (o.element.text.getD "" ++ String.ofList t.toList) := by
      rw [htext, String.ofList_toList]
      simp [Option.filter, hne]
    rw [OpenElement.addText_eq, hchildren, List.isEmpty_nil, if_pos rfl, ← hlead] at hread
    exact hread

/-- What stands inside an element that has just been opened is read. -/
theorem exists_takes_content {R : Element → Element → Prop} {pretty : Bool} {ds : Declarations}
    {depth : Nat} {e : Element} (hc : ∀ c ∈ e.children, ReadsBack R pretty ds (depth + 1) c)
    {inside : List Char} (hinside : writeElements pretty (indentsChildren pretty e.text e.children) ds
      (depth + 1) e.children = .ok inside) (bytes : List UInt8) (start : Nat) (rest : List Char)
    {o : OpenElement} (os : List OpenElement) (root : Option Element) (ho : o.bindings = ds.bindings)
    (hchildren : o.element.children = []) (htext : o.element.text = none) :
    ∃ stop es', List.Forall₂ R e.children es' ∧
      Takes bytes start (leadingText (indentsChildren pretty e.text e.children) e.text ++ (inside ++
        (trailingText (indentsChildren pretty e.text e.children) depth ++ '<' :: rest)))
          ⟨o :: os, root⟩ stop ('<' :: rest)
          ⟨o.fill (if indentsChildren pretty e.text e.children then
            some (String.ofList (indentation (depth + 1))) else e.text.filter (!·.isEmpty)) es' :: os,
            root⟩ := by
  obtain ⟨hstart, hread⟩ := exists_takes_elements hc hinside
  cases hindents : indentsChildren pretty e.text e.children with
  | false =>
    rw [hindents] at hstart hread
    obtain ⟨more, hmore⟩ := hstart rfl rest
    obtain ⟨place, htakes⟩ := exists_takes_leading hchildren htext e.text more bytes os root start
    rw [← hmore] at htakes
    obtain ⟨stop, es', hes, htakesInside⟩ := hread bytes place ('<' :: rest)
      (o.fill (e.text.filter (!·.isEmpty)) []) os root ho
    exact ⟨stop, es', hes, htakes.trans htakesInside⟩
  | true =>
    rw [hindents] at hread
    have hne : e.children ≠ [] := fun hnil => by simp [indentsChildren, hnil] at hindents
    obtain ⟨place, es', hes, htakes⟩ := hread bytes start (indentation depth ++ '<' :: rest) o os
      root ho
    have hlead : o.textBefore true (depth + 1) e.children =
        some (String.ofList (indentation (depth + 1))) := by
      simp [OpenElement.textBefore, hchildren, htext, hne]
    rw [hchildren, List.nil_append, hlead] at htakes
    obtain ⟨stop, htrailing⟩ := exists_takes_indentation depth rest bytes
      ⟨o.fill (some (String.ofList (indentation (depth + 1)))) es' :: os, root⟩ place
    have hfilled : es' ≠ [] := fun hnil => by
      rw [hnil] at hes
      exact hne (List.forall₂_nil_right_iff.1 hes)
    rw [PartialDocument.addText_of_children rfl hfilled] at htrailing
    exact ⟨stop, es', hes, htakes.trans htrailing⟩

theorem closed_others (e : Element) :
    (closed e).tag = e.tag ∧ (closed e).attributes = e.attributes ∧
      (closed e).namespaces = e.namespaces ∧ (closed e).children = e.children := by
  unfold closed
  split <;> exact ⟨rfl, rfl, rfl, rfl⟩

/-- The text of an element that is closed behind what stands inside it. -/
theorem text_closed {pretty : Bool} {depth : Nat} {e e' : Element}
    (hfilled : e.children = [] → e.text ≠ none) (hnil : e'.children = [] ↔ e.children = [])
    (htext : e'.text = if indentsChildren pretty e.text e.children then
      some (String.ofList (indentation (depth + 1))) else e.text.filter (!·.isEmpty)) :
    (closed e').text = textRead pretty depth e := by
  unfold closed textRead
  by_cases hchildren : e.children = []
  · obtain ⟨t, ht⟩ := Option.ne_none_iff_exists'.1 (hfilled hchildren)
    have hindents : indentsChildren pretty e.text e.children = false := by
      simp [indentsChildren, hchildren]
    rw [hindents] at htext ⊢
    simp only [hnil.2 hchildren, hchildren, htext, ht, List.isEmpty_nil, if_true,
      Bool.false_eq_true, if_false]
    by_cases hempty : t = "" <;> simp [Option.filter, hempty]
  · have hchildren' : e'.children ≠ [] := fun he => hchildren (hnil.1 he)
    simp only [List.isEmpty_eq_false_iff.2 hchildren', List.isEmpty_eq_false_iff.2 hchildren,
      Bool.false_eq_true, if_false, htext]

/-- An element that has just been opened by the start tag that is written for another one. -/
def opened (outer : Declarations) (e : Element) (line : Option Nat) : Element :=
  { tag := (outer.inside e.namespaces).tagInside e.tag, attributes := e.attributes, line
    namespaces := e.namespaces }

/-- What a start tag is written with: a name that stands for the tag, and keys for the names of the
attributes. -/
structure TagOf (outer : Declarations) (e : Element) (name : List Char)
    (pairs : List (List Char × String)) : Prop where
  /-- The name can be read. -/
  key : IsKey name
  /-- It stands for the tag. -/
  tag : resolveName (outer.inside e.namespaces).bindings true name =
    .ok ((outer.inside e.namespaces).tagInside e.tag)
  /-- The keys stand for the names of the attributes. -/
  attributes : List.Forall₂ (KeyOf (outer.inside e.namespaces)) e.attributes pairs

/-- The characters of a start tag between its brackets. -/
def startTag (e : Element) (name : List Char) (pairs : List (List Char × String)) : List Char :=
  name ++ writtenAttributes (declarationPairs e.namespaces ++ pairs)

section Element

variable {outer : Declarations} {e : Element} (he : Nameable outer e) {name : List Char}
  {pairs : List (List Char × String)}

include he

theorem tagOf_written (hname : writtenName (outer.inside e.namespaces) true e.tag = .ok name)
    (hpairs : List.Forall₂ (fun a p =>
      writtenName (outer.inside e.namespaces) false a.1 = .ok p.1 ∧ p.2 = a.2) e.attributes pairs) :
    TagOf outer e name pairs := by
  obtain ⟨tag, names, -, -, proper⟩ := he
  refine ⟨isKey_written tag hname proper, resolveName_written tag hname proper, ?_⟩
  refine ((List.forall₂_and_left _ _).2 ⟨names, hpairs⟩).imp fun a p hap => ?_
  obtain ⟨⟨hlocal, hne⟩, hkey, hvalue⟩ := hap
  exact ⟨hvalue, isKey_written hlocal hkey proper, boundPrefix?_written hlocal hkey proper rfl hne,
    resolveName_written hlocal hkey proper⟩

variable (ht : TagOf outer e name pairs)

include ht

theorem TagOf.isKey : ∀ p ∈ declarationPairs e.namespaces ++ pairs, IsKey p.1 :=
  isKey_of_pairs ht.attributes he.proper fun _ hd => Declarations.mem_inside.2 (.inl hd)

theorem TagOf.openElement {d : PartialDocument} (hb : d.bindings = outer.bindings)
    (bytes : List UInt8) (stop : Nat) :
    ∃ line, d.openElement bytes (startTag e name pairs) stop =
      .ok ⟨name, (outer.inside e.namespaces).bindings, opened outer e line⟩ :=
  openElement_written ht.key he.proper he.prefixes ht.tag ht.attributes he.distinct hb bytes stop

variable {R : Element → Element → Prop} {pretty : Bool} {depth : Nat} (bytes : List UInt8)
  (start : Nat) (rest : List Char) {d : PartialDocument} (hb : d.bindings = outer.bindings)
  (hroot : d.opened = [] → d.root = none)

include hb hroot

/-- An element without text and children is read from its tag. -/
theorem exists_takes_empty (hnil : e.children = []) (hnone : e.text = none) :
    ∃ stop e' d', ReadFor R pretty outer depth e e' ∧ d.addElement e' = .ok d' ∧
      Takes bytes start ('<' :: (startTag e name pairs ++ '/' :: '>' :: rest)) d stop rest d' := by
  have htoken := nextToken_empty ht.key (ht.isKey he) rest
  obtain ⟨line, hopen⟩ := ht.openElement he hb bytes (start + bytesBefore rest
    ('<' :: (startTag e name pairs ++ '/' :: '>' :: rest)))
  obtain ⟨d', hadd⟩ := PartialDocument.exists_addElement hroot (opened outer e line)
  have hadded : d.add bytes (.empty (startTag e name pairs), start + bytesBefore rest
      ('<' :: (startTag e name pairs ++ '/' :: '>' :: rest))) = .ok d' := by
    rw [PartialDocument.add, hopen]
    exact hadd
  have htext : (opened outer e line).text = textRead pretty depth e := by
    simp [opened, textRead, indentsChildren, hnil, hnone]
  have hchildren : List.Forall₂ R e.children (opened outer e line).children := by
    rw [hnil]
    exact .nil
  exact ⟨_, opened outer e line, d', ⟨rfl, rfl, rfl, htext, hchildren⟩, hadd,
    .step htoken hadded (.refl _ _ _)⟩

/-- Any other element is read from its tags and from what stands between them. -/
theorem exists_takes_filled (hfilled : e.children = [] → e.text ≠ none)
    (hc : ∀ c ∈ e.children, ReadsBack R pretty (outer.inside e.namespaces) (depth + 1) c)
    {inside : List Char} (hinside : writeElements pretty (indentsChildren pretty e.text e.children)
      (outer.inside e.namespaces) (depth + 1) e.children = .ok inside) :
    ∃ stop e' d', ReadFor R pretty outer depth e e' ∧ d.addElement e' = .ok d' ∧
      Takes bytes start ('<' :: (startTag e name pairs ++ '>' ::
        (leadingText (indentsChildren pretty e.text e.children) e.text ++ (inside ++
          (trailingText (indentsChildren pretty e.text e.children) depth ++
            '<' :: '/' :: (name ++ '>' :: rest)))))) d stop rest d' := by
  generalize hcontent : leadingText (indentsChildren pretty e.text e.children) e.text ++ (inside ++
    (trailingText (indentsChildren pretty e.text e.children) depth ++
      '<' :: '/' :: (name ++ '>' :: rest))) = content
  have htoken := nextToken_opening ht.key (ht.isKey he) content
  let place := start + bytesBefore content ('<' :: (startTag e name pairs ++ '>' :: content))
  obtain ⟨line, hopen⟩ := ht.openElement he hb bytes place
  let o : OpenElement := ⟨name, (outer.inside e.namespaces).bindings, opened outer e line⟩
  have hopened : d.add bytes (.opening (startTag e name pairs), place) =
      .ok ⟨o :: d.opened, d.root⟩ := by
    rw [PartialDocument.add, hopen]
    rfl
  obtain ⟨next, es', hes, htakes⟩ := exists_takes_content hc hinside bytes place
    ('/' :: (name ++ '>' :: rest)) (o := o) d.opened d.root rfl rfl rfl
  rw [hcontent] at htakes
  let filled := o.fill (if indentsChildren pretty e.text e.children then
    some (String.ofList (indentation (depth + 1))) else e.text.filter (!·.isEmpty)) es'
  obtain ⟨d', hadd⟩ := PartialDocument.exists_addElement hroot (closed filled.element)
  have hclosed (stop : Nat) : PartialDocument.add bytes ⟨filled :: d.opened, d.root⟩
      (.closing name, stop) = .ok d' := by
    rw [PartialDocument.add, close_written ht.key rfl]
    exact hadd
  obtain ⟨stop, hend⟩ := exists_takes_token (nextToken_closing ht.key rest) hclosed next
  have hempty : filled.element.children = [] ↔ e.children = [] := by
    change es' = [] ↔ e.children = []
    rw [← List.length_eq_zero_iff, ← hes.length_eq, List.length_eq_zero_iff]
  obtain ⟨htag, hattributes, hnamespaces, hchildren⟩ := closed_others filled.element
  exact ⟨stop, closed filled.element, d',
    ⟨htag, hattributes, hnamespaces, text_closed hfilled hempty rfl, hchildren ▸ hes⟩, hadd,
    .step htoken hopened (htakes.trans hend)⟩

end Element

/-- An element is read back when the elements inside it are. -/
theorem readsBack_of_children {R : Element → Element → Prop} {pretty : Bool} {outer : Declarations}
    {depth : Nat} {e : Element} (he : Nameable outer e)
    (hc : ∀ c ∈ e.children, ReadsBack R pretty (outer.inside e.namespaces) (depth + 1) c) :
    ReadsBack (ReadFor R pretty outer depth) pretty outer depth e := by
  intro written hwritten
  obtain ⟨name, pairs, hname, hpairs, hways⟩ := writeElement_cases hwritten
  have ht := tagOf_written he hname hpairs
  rcases hways with ⟨hnil, hnone, rfl⟩ | ⟨hfilled, inside, hinside, rfl⟩
  · refine ⟨_, rfl, fun bytes start rest d hb hroot => ?_⟩
    simpa [startTag] using exists_takes_empty he ht bytes start rest hb hroot hnil hnone
  · refine ⟨_, rfl, fun bytes start rest d hb hroot => ?_⟩
    simpa [startTag] using exists_takes_filled he ht bytes start rest hb hroot hfilled hc hinside

/-! ## Whole trees -/

/-- What is read from the document of an element that is read back. -/
theorem exists_read_of_write {R : Element → Element → Prop} {pretty : Bool} {root : Element}
    (h : ReadsBack R pretty [] 0 root) {text : String} (hwrite : root.write pretty = .ok text) :
    ∃ root', Element.read text = .ok root' ∧ R root root' := by
  unfold Element.write at hwrite
  cases hwritten : writeElement pretty [] 0 root with
  | error e =>
    rw [hwritten] at hwrite
    cases hwrite
  | ok written =>
    rw [hwritten] at hwrite
    cases hwrite
    obtain ⟨cs, rfl, hread⟩ := h written hwritten
    obtain ⟨stop, root', d, hroot, hadd, htakes⟩ :=
      hread (String.ofList ('<' :: cs)).toUTF8.data.toList 0 [] {} rfl fun _ => rfl
    cases hadd
    refine ⟨root', ?_, hroot⟩
    rw [List.append_nil] at htakes
    obtain ⟨hfold, hfailure⟩ := htakes.foldlM_tokens
    have hchars : withoutMark (String.ofList ('<' :: cs)).toList = '<' :: cs := by
      rw [String.toList_ofList]
      rfl
    unfold Element.read
    simp only [hchars, hfold, hfailure, bind, Except.bind]

/-- Whether an element inside declarations keeps to the rules of names and namespaces. The prefixes
that it declares have to be among the `allowed` ones. -/
structure ProperElement (allowed : String → Bool) (outer : Declarations) (e : Element) : Prop where
  /-- The local part of the tag is an XML name without a colon. -/
  tag : isXmlName (localName e.tag) = true
  /-- So are those of the attributes, and no attribute declares a namespace. -/
  names : ∀ a ∈ e.attributes, isXmlName (localName a.1) = true ∧ a.1 ≠ "xmlns"
  /-- No attribute is repeated. -/
  distinct : (e.attributes.map (·.1)).Nodup
  /-- No declaration is repeated. -/
  prefixes : (e.namespaces.map (·.1)).Nodup
  /-- A declared prefix is allowed, and is not reserved. -/
  unreserved : ∀ d ∈ e.namespaces, ∀ p ∈ d.1, allowed p = true ∧ p ≠ "xml" ∧ p ≠ "xmlns"
  /-- A declared namespace is not empty, holds no closing brace and is not reserved. -/
  uris : ∀ d ∈ e.namespaces,
    d.2 ≠ "" ∧ '\x7d' ∉ d.2.toList ∧ d.2 ≠ xmlNamespace ∧ d.2 ≠ xmlnsNamespace
  /-- A prefix that is declared further out already stands for the same namespace there. -/
  consistent : ∀ d ∈ e.namespaces, ∀ d' ∈ outer, d.1 ≠ none → d.1 = d'.1 → d.2 = d'.2
  /-- The text in front of children is not empty. -/
  text : e.children ≠ [] → e.text ≠ some ""

/-- Whether all elements of a tree inside declarations keep to the rules. -/
inductive ProperTree (allowed : String → Bool) : Declarations → Element → Prop
  /-- The element does, and so do those inside it. -/
  | intro {outer : Declarations} {e : Element} (here : ProperElement allowed outer e)
    (children : ∀ c ∈ e.children, ProperTree allowed (outer.inside e.namespaces) c) :
    ProperTree allowed outer e

/-- Whether a tree is what is read for another one that was written inside declarations, at a
depth. -/
inductive SameTree (pretty : Bool) : Declarations → Nat → Element → Element → Prop
  /-- A tag without a namespace is in the default one. Attributes, declarations and children are the
  same, and so is the text, unless the children stand on lines of their own: then it is the
  indentation of the first one. -/
  | intro {outer : Declarations} {depth : Nat} {e e' : Element}
    (tag : e'.tag = (outer.inside e.namespaces).tagInside e.tag)
    (attributes : e'.attributes = e.attributes)
    (namespaces : e'.namespaces = e.namespaces)
    (text : e'.text = if indentsChildren pretty e.text e.children then
      some (String.ofList (indentation (depth + 1))) else e.text)
    (length : e.children.length = e'.children.length)
    (children : ∀ c c', (c, c') ∈ e.children.zip e'.children →
      SameTree pretty (outer.inside e.namespaces) (depth + 1) c c') :
    SameTree pretty outer depth e e'

theorem textRead_of_ne {e : Element} (h : e.children ≠ [] → e.text ≠ some "") (pretty : Bool)
    (depth : Nat) : textRead pretty depth e =
      if indentsChildren pretty e.text e.children then
        some (String.ofList (indentation (depth + 1))) else e.text := by
  unfold textRead
  by_cases hnil : e.children = []
  · rw [hnil, List.isEmpty_nil, if_pos rfl]
  · have hfilter : e.text.filter (!·.isEmpty) = e.text := by
      cases ht : e.text with
      | none => rfl
      | some t =>
        have hne : t ≠ "" := fun he => h hnil (ht.trans (congrArg some he))
        simp [Option.filter, hne]
    rw [hfilter, ite_self]

section Proper

variable {outer : Declarations} {e : Element}

/-- The declarations inside a proper element are proper. -/
theorem ProperElement.proper_inside (h : ProperElement isXmlName outer e) (houter : outer.Proper) :
    (outer.inside e.namespaces).Proper := by
  refine ⟨fun {p uri} hp => ?_, fun {p uri} hp => ?_, fun {p uri uri'} hp hq => ?_⟩
  · rcases Declarations.mem_inside.1 hp with hp | hp
    · obtain ⟨hname, hxml⟩ := h.unreserved _ hp p rfl
      exact ⟨isPlainName_of_isXmlName hname, hxml⟩
    · exact houter.prefixes hp
  · rcases Declarations.mem_inside.1 hp with hp | hp
    · obtain ⟨hempty, -, hreserved⟩ := h.uris _ hp
      exact ⟨hempty, hreserved⟩
    · exact houter.uris hp
  · rcases Declarations.mem_inside.1 hp with hp | hp <;>
      rcases Declarations.mem_inside.1 hq with hq | hq
    · exact congrArg Prod.snd (List.inj_on_of_nodup_map h.prefixes hp hq rfl)
    · exact h.consistent _ hp _ hq nofun rfl
    · exact (h.consistent _ hq _ hp nofun rfl).symm
    · exact houter.consistent hp hq

theorem ProperElement.nameable (h : ProperElement isXmlName outer e) (houter : outer.Proper) :
    Nameable outer e :=
  ⟨isPlainName_of_isXmlName h.tag,
    fun a ha => ⟨isPlainName_of_isXmlName (h.names a ha).1, (h.names a ha).2⟩, h.distinct,
    h.prefixes, h.proper_inside houter⟩

/-- A proper tree is read back. -/
theorem ProperTree.readsBack (h : ProperTree isXmlName outer e) (houter : outer.Proper)
    (pretty : Bool) (depth : Nat) :
    ReadsBack (SameTree pretty outer depth) pretty outer depth e := by
  induction h generalizing depth with
  | @intro outer e here children ih =>
    have hback := readsBack_of_children (here.nameable houter) fun c hc =>
      ih c hc (here.proper_inside houter) (depth + 1)
    refine hback.imp fun e' hread => ?_
    obtain ⟨htag, hattributes, hnamespaces, htext, hchildren⟩ := hread
    obtain ⟨hlength, hpairs⟩ := List.forall₂_iff_zip.1 hchildren
    exact .intro htag hattributes hnamespaces (htext.trans (textRead_of_ne here.text pretty depth))
      hlength fun c c' hc => hpairs hc

end Proper

/-- The document of a proper tree is read as the same tree, if the prefixes that the tree declares are
XML names without a colon. -/
theorem Element.read_of_write {root : Element} (h : ProperTree isXmlName [] root) {pretty : Bool}
    {text : String} (hwrite : root.write pretty = .ok text) :
    ∃ root', Element.read text = .ok root' ∧ SameTree pretty [] 0 root root' := by
  have hempty : Declarations.Proper [] := ⟨nofun, nofun, nofun⟩
  exact exists_read_of_write (h.readsBack hempty pretty 0) hwrite

/-- A tree with prefixes, two default namespaces, characters that have to be escaped, an empty text
and a blank one. -/
def catalogue : Element where
  tag := "\x7burn:a\x7dlist"
  namespaces := [(some "p", "urn:p"), (none, "urn:a")]
  attributes := [("\x7burn:p\x7dk", "1 < \"2\""), ("k", "")]
  text := some " \n"
  children := [{ tag := "item", text := some "" },
    { tag := "\x7burn:p\x7ditem", namespaces := [(none, "urn:b&c")], text := some "a > b",
      children := [{ tag := "last" }] }]

theorem properTree_catalogue : ProperTree isXmlName [] catalogue := by
  refine .intro ⟨by decide, by decide, by decide, by decide, by decide, by decide, by decide,
    by decide⟩ (List.forall_mem_cons.2 ⟨?_, List.forall_mem_cons.2 ⟨?_, nofun⟩⟩)
  · exact .intro ⟨by decide, by decide, by decide, by decide, by decide, by decide, by decide,
      by decide⟩ nofun
  · refine .intro ⟨by decide, by decide, by decide, by decide, by decide, by decide, by decide,
      by decide⟩ (List.forall_mem_cons.2 ⟨?_, nofun⟩)
    exact .intro ⟨by decide, by decide, by decide, by decide, by decide, by decide, by decide,
      by decide⟩ nofun

theorem read_of_write_catalogue :
    ∃ text root', catalogue.write true = .ok text ∧ ProperTree isXmlName [] catalogue ∧
      Element.read text = .ok root' ∧ SameTree true [] 0 catalogue root' := by
  have hsome : (catalogue.write true).toOption.isSome = true := by decide +kernel
  cases hwrite : catalogue.write true with
  | error e =>
    rw [hwrite] at hsome
    cases hsome
  | ok text =>
    obtain ⟨root', hread, hroot⟩ := Element.read_of_write properTree_catalogue hwrite
    exact ⟨text, root', rfl, properTree_catalogue, hread, hroot⟩

/-- A prefix that is no XML name is written as it is, and what is written cannot be read. -/
theorem unreadable_of_spaced_prefix :
    let root : Element := { tag := "a", namespaces := [(some "p q", "u")] }
    ProperTree (fun _ => true) [] root ∧ root.write false = .ok "<a xmlns:p q=\"u\"/>" ∧
      ∀ root', Element.read "<a xmlns:p q=\"u\"/>" ≠ .ok root' := by
  refine ⟨.intro ⟨by decide, by decide, by decide, by decide, by decide, by decide, by decide,
    by decide⟩ nofun, rfl, fun root' hread => ?_⟩
  have hnone : (Element.read "<a xmlns:p q=\"u\"/>").toOption.isNone = true := by decide +kernel
  rw [hread] at hnone
  cases hnone

end ContentSchema.Markup
