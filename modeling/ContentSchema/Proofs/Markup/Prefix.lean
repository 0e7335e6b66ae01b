import ContentSchema.Fault
import ContentSchema.Proofs.Markup.Element
import ContentSchema.Proofs.Markup.Tree

/-!
# Prefixes in written documents

A prefix stands for the namespace that the nearest declaration gives it (`Declarations.Binds`). The
writer goes the other way: for a namespace it takes the prefix of the nearest declaration of that
namespace (`Declarations.Chooses`), and it does not look whether a declaration that is nearer still
gives the prefix away. Where one does, the prefix is hidden (`Hidden`).

The text of a tree is laid out around the keys that its names are written with (`layout`). Result: a
tree is written just if all its names can be, and a written name means what it meant just if its
prefix is not hidden (`Element.prefixes_of_write`).
-/
namespace ContentSchema.Markup

/-! ## Two searches -/

namespace Declarations

variable {ds : Declarations} {isElement : Bool} {uri : String} {p q : Option String}

/-- The namespace that the nearest declaration gives a prefix, or the lack of one. -/
def nearest? (ds : Declarations) (p : Option String) : Option String :=
  (ds.find? (·.1 == p)).map (·.2)

/-- Whether a prefix, or the lack of one, stands for a namespace. Without a declaration `xml` stands
for its own. -/
def Binds (ds : Declarations) (p : Option String) (uri : String) : Prop :=
  ds.nearest? p = some uri ∨ (ds.nearest? p = none ∧ p = some "xml" ∧ uri = xmlNamespace)

/-- The prefix that names in a namespace are written with. -/
inductive Chooses (ds : Declarations) (isElement : Bool) (uri : String) : Option String → Prop
  /-- Names in the namespace of `xml` have that prefix. -/
  | xml (h : uri = xmlNamespace) : Chooses ds isElement uri (some "xml")
  /-- The names of elements in the default namespace have none. -/
  | default (h : uri ≠ xmlNamespace) (he : isElement = true) (hd : ds.nearest? none = some uri) :
    Chooses ds isElement uri none
  /-- Other names have the prefix of the nearest declaration of their namespace. -/
  | nearest {p : String} (h : uri ≠ xmlNamespace)
    (hd : ¬ (isElement = true ∧ ds.nearest? none = some uri)) (hp : ds.prefixOf? uri = some p) :
    Chooses ds isElement uri (some p)

/-- Whether names in a namespace can be written: it is that of `xml`, or the default one, or some
declaration around the place has a prefix for it. -/
def Declares (ds : Declarations) (isElement : Bool) (uri : String) : Prop :=
  uri = xmlNamespace ∨ (isElement = true ∧ ds.nearest? none = some uri) ∨ ∃ p, (some p, uri) ∈ ds

theorem default?_eq (ds : Declarations) : ds.default? = ds.nearest? none := by
  rw [default?, nearest?]
  congr 2
  funext d
  obtain ⟨p, uri⟩ := d
  cases p <;> rfl

theorem exists_nearest? (h : (p, uri) ∈ ds) : ∃ uri', ds.nearest? p = some uri' := by
  have hsome : (ds.find? (·.1 == p)).isSome = true :=
    List.find?_isSome.2 ⟨(p, uri), h, beq_self_eq_true p⟩
  obtain ⟨d, hd⟩ := Option.isSome_iff_exists.1 hsome
  exact ⟨d.2, by rw [nearest?, hd, Option.map_some]⟩

theorem mem_of_nearest? (h : ds.nearest? p = some uri) : (p, uri) ∈ ds := by
  obtain ⟨⟨q, uri'⟩, hfind, rfl⟩ := Option.map_eq_some_iff.1 h
  obtain rfl : q = p := by simpa using List.find?_some hfind
  exact List.mem_of_find?_eq_some hfind

theorem prefixOf?_eq_none_iff : ds.prefixOf? uri = none ↔ ∀ p, (some p, uri) ∉ ds := by
  rw [prefixOf?, List.findSome?_eq_none_iff]
  constructor
  · intro h p hp
    have hnone := h _ hp
    simp at hnone
  · intro h d hd
    obtain ⟨p, uri'⟩ := d
    simp only [ite_eq_right_iff, beq_iff_eq]
    rintro rfl
    cases p with
    | none => rfl
    | some p => exact absurd hd (h p)

theorem Chooses.unique (hp : ds.Chooses isElement uri p) (hq : ds.Chooses isElement uri q) :
    p = q := by
  cases hp with
  | xml h =>
    cases hq with
    | xml => rfl
    | default h' => exact absurd h h'
    | nearest h' => exact absurd h h'
  | default h he hd =>
    cases hq with
    | xml h' => exact absurd h' h
    | default => rfl
    | nearest _ hd' => exact absurd ⟨he, hd⟩ hd'
  | nearest h hd hp =>
    cases hq with
    | xml h' => exact absurd h' h
    | default _ he hd' => exact absurd ⟨he, hd'⟩ hd
    | nearest _ _ hq => rw [← hp, hq]

theorem declares_iff : ds.Declares isElement uri ↔ ∃ p, ds.Chooses isElement uri p := by
  constructor
  · intro h
    by_cases hxml : uri = xmlNamespace
    · exact ⟨_, .xml hxml⟩
    by_cases hdefault : isElement = true ∧ ds.nearest? none = some uri
    · exact ⟨_, .default hxml hdefault.1 hdefault.2⟩
    obtain ⟨p, hp⟩ := (h.resolve_left hxml).resolve_left hdefault
    cases hprefix : ds.prefixOf? uri with
    | none => exact absurd hp (prefixOf?_eq_none_iff.1 hprefix p)
    | some q => exact ⟨_, .nearest hxml hdefault hprefix⟩
  · rintro ⟨p, h⟩
    cases h with
    | xml h => exact .inl h
    | default _ he hd => exact .inr (.inl ⟨he, hd⟩)
    | nearest _ _ hp => exact .inr (.inr ⟨_, mem_of_prefixOf? hp⟩)

/-- The prefix that is chosen stands for the namespace, unless the nearest declaration of the prefix
is another one. -/
theorem Chooses.binds_iff (h : ds.Chooses isElement uri p) :
    ds.Binds p uri ↔ ¬ ∃ uri', uri' ≠ uri ∧ ds.nearest? p = some uri' := by
  constructor
  · rintro (hbinds | ⟨hnone, -⟩) ⟨uri', hne, hother⟩
    · rw [hbinds] at hother
      exact hne (Option.some.inj hother).symm
    · rw [hnone] at hother
      cases hother
  · intro hclear
    cases hnearest : ds.nearest? p with
    | some uri' =>
      have huri : uri' = uri := Classical.not_not.1 fun hne => hclear ⟨uri', hne, hnearest⟩
      exact .inl (huri ▸ hnearest)
    | none =>
      cases h with
      | xml h => exact .inr ⟨hnearest, rfl, h⟩
      | default _ _ hd => exact .inl hd
      | nearest _ _ hp =>
        obtain ⟨uri', huri'⟩ := exists_nearest? (mem_of_prefixOf? hp)
        rw [hnearest] at huri'
        cases huri'

end Declarations

/-! ## Names and keys -/

/-- A local part behind a prefix, or alone. -/
def spelled (p : Option String) (rest : String) : List Char :=
  match p with
  | some p => p.toList ++ ':' :: rest.toList
  | none => rest.toList

theorem spelled_injective (rest : String) : Function.Injective (spelled · rest) := by
  intro p q h
  cases p with
  | none =>
    cases q with
    | none => rfl
    | some q =>
      have hlength := congrArg List.length h
      simp only [spelled, List.length_append, List.length_cons] at hlength
      omega
  | some p =>
    cases q with
    | none =>
      have hlength := congrArg List.length h
      simp only [spelled, List.length_append, List.length_cons] at hlength
      omega
    | some q => exact congrArg some (String.toList_inj.1 (List.append_cancel_right h))

section Names

variable {ds : Declarations} {isElement : Bool} {name uri rest : String} {key : List Char}

theorem writtenName_of_chooses {p : Option String} (hsplit : splitName? name = some (uri, rest))
    (h : ds.Chooses isElement uri p) : writtenName ds isElement name = .ok (spelled p rest) := by
  rw [writtenName, hsplit]
  cases h with
  | xml h =>
    subst h
    simp [spelled]
  | default h he hd => simp [h, he, Declarations.default?_eq, hd, spelled]
  | nearest h hd hp =>
    have hdefault : (isElement && ds.default? == some uri) = false := by
      rw [Declarations.default?_eq, ← Bool.not_eq_true]
      simpa using hd
    simp [h, hdefault, hp, spelled]

/-- A name can be written if it has no namespace, or one that is declared. -/
theorem writtenName_result (ds : Declarations) (isElement : Bool) (name : String) :
    (splitName? name = none ∧ writtenName ds isElement name = .ok name.toList) ∨
      ∃ uri rest, splitName? name = some (uri, rest) ∧
        ((∃ p, ds.Chooses isElement uri p ∧
            writtenName ds isElement name = .ok (spelled p rest)) ∨
          (¬ ds.Declares isElement uri ∧
            writtenName ds isElement name = .error (.noPrefix uri))) := by
  cases hsplit : splitName? name with
  | none => exact .inl ⟨rfl, by rw [writtenName, hsplit]⟩
  | some parts =>
    obtain ⟨uri, rest⟩ := parts
    refine .inr ⟨uri, rest, rfl, ?_⟩
    by_cases hdeclares : ds.Declares isElement uri
    · obtain ⟨p, hp⟩ := Declarations.declares_iff.1 hdeclares
      exact .inl ⟨p, hp, writtenName_of_chooses hsplit hp⟩
    · refine .inr ⟨hdeclares, ?_⟩
      simp only [Declarations.Declares, not_or, not_exists, ← Declarations.prefixOf?_eq_none_iff]
        at hdeclares
      obtain ⟨hxml, hdefault, hprefix⟩ := hdeclares
      have hdefault' : (isElement && ds.default? == some uri) = false := by
        rw [Declarations.default?_eq, ← Bool.not_eq_true]
        simpa using hdefault
      rw [writtenName, hsplit]
      simp [hxml, hdefault', hprefix]

/-- A written name is as it is, or has the prefix that is chosen for its namespace. -/
theorem key_of_writtenName (h : writtenName ds isElement name = .ok key) :
    (splitName? name = none → key = name.toList) ∧
      ∀ uri rest, splitName? name = some (uri, rest) →
        ∃ p, ds.Chooses isElement uri p ∧ key = spelled p rest := by
  rcases writtenName_result ds isElement name with
    ⟨hsplit, hself⟩ | ⟨uri, rest, hsplit, ⟨p, hp, hkey⟩ | ⟨-, herror⟩⟩
  · refine ⟨fun _ => Except.ok.inj (h.symm.trans hself), fun uri rest hsome => ?_⟩
    rw [hsplit] at hsome
    cases hsome
  · refine ⟨fun hnone => ?_, fun uri' rest' hsome => ?_⟩
    · rw [hsplit] at hnone
      cases hnone
    · rw [hsplit] at hsome
      cases hsome
      exact ⟨p, hp, Except.ok.inj (h.symm.trans hkey)⟩
  · rw [herror] at h
    cases h

/-- A name that cannot be written has a namespace that is not declared. -/
theorem not_declares_of_writtenName {e : DocumentError}
    (h : writtenName ds isElement name = .error e) :
    ∃ uri rest, splitName? name = some (uri, rest) ∧ ¬ ds.Declares isElement uri ∧
      e = .noPrefix uri := by
  rcases writtenName_result ds isElement name with
    ⟨-, hself⟩ | ⟨uri, rest, hsplit, ⟨p, -, hkey⟩ | ⟨hdeclares, herror⟩⟩
  · rw [hself] at h
    cases h
  · rw [hkey] at h
    cases h
  · exact ⟨uri, rest, hsplit, hdeclares, Except.error.inj (h.symm.trans herror)⟩

/-- Whether what a name is written with means it: a prefix that stands for its namespace, or for the
name of an element no prefix in the default namespace. Names without a namespace mean themselves. -/
def Means (ds : Declarations) (isElement : Bool) (name : String) (key : List Char) : Prop :=
  ∀ uri rest, splitName? name = some (uri, rest) →
    ∃ p, key = spelled p rest ∧ (p = none → isElement = true) ∧ ds.Binds p uri

/-- Whether a declaration gives away the prefix that is chosen for a name: that prefix is nearest to
another namespace. -/
def Hidden (ds : Declarations) (isElement : Bool) (name : String) : Prop :=
  ∃ uri rest p uri', splitName? name = some (uri, rest) ∧ ds.Chooses isElement uri p ∧
    uri' ≠ uri ∧ ds.nearest? p = some uri'

theorem means_iff (h : writtenName ds isElement name = .ok key) :
    Means ds isElement name key ↔ ¬ Hidden ds isElement name := by
  obtain ⟨-, hprefix⟩ := key_of_writtenName h
  cases hsplit : splitName? name with
  | none =>
    refine ⟨fun _ hhidden => ?_, fun _ uri rest hsome => ?_⟩
    · obtain ⟨uri, rest, p, uri', hsome, -⟩ := hhidden
      rw [hsplit] at hsome
      cases hsome
    · rw [hsplit] at hsome
      cases hsome
  | some parts =>
    obtain ⟨uri, rest⟩ := parts
    obtain ⟨p, hp, rfl⟩ := hprefix uri rest hsplit
    have hmeans : Means ds isElement name (spelled p rest) ↔ ds.Binds p uri := by
      constructor
      · intro hmeans
        obtain ⟨q, hq, -, hbinds⟩ := hmeans uri rest hsplit
        exact spelled_injective rest hq ▸ hbinds
      · intro hbinds uri' rest' hsplit'
        rw [hsplit] at hsplit'
        cases hsplit'
        refine ⟨p, rfl, ?_, hbinds⟩
        rintro rfl
        cases hp with
        | default _ he => exact he
    have hhidden : Hidden ds isElement name ↔ ∃ uri', uri' ≠ uri ∧ ds.nearest? p = some uri' := by
      constructor
      · rintro ⟨uri', rest', q, other, hsplit', hq, hne, hother⟩
        rw [hsplit] at hsplit'
        cases hsplit'
        exact ⟨other, hne, hq.unique hp ▸ hother⟩
      · rintro ⟨other, hne, hother⟩
        exact ⟨uri, rest, p, other, hsplit, hp, hne, hother⟩
    rw [hmeans, hhidden, hp.binds_iff]

end Names

/-! ## The layout of a tree -/

/-- Whether a name is that of an element, or of an attribute, at a place of a tree with declarations
around it. -/
inductive NameIn : Declarations → Element → Declarations → Bool → String → Prop
  /-- The tag. -/
  | tag {outer : Declarations} {e : Element} :
    NameIn outer e (outer.inside e.namespaces) true e.tag
  /-- The name of an attribute. -/
  | key {outer : Declarations} {e : Element} {a : String × String} (ha : a ∈ e.attributes) :
    NameIn outer e (outer.inside e.namespaces) false a.1
  /-- A name inside a child. -/
  | child {outer ds : Declarations} {e c : Element} {isElement : Bool} {name : String}
    (hc : c ∈ e.children) (h : NameIn (outer.inside e.namespaces) c ds isElement name) :
    NameIn outer e ds isElement name

mutual

/-- The characters of an element inside declarations, at a depth, when names have the given keys. -/
def layout (key : Declarations → Bool → String → List Char) (pretty : Bool) (outer : Declarations)
    (depth : Nat) : Element → List Char
  | ⟨tag, attributes, children, text, _, namespaces⟩ =>
    let ds := outer.inside namespaces
    let start := key ds true tag ++ namespaces.flatMap writtenDeclaration ++
      (attributes.map fun a => writtenAttribute (key ds false a.1) a.2).flatten
    if children.isEmpty && text.isNone then '<' :: start ++ ['/', '>']
    else
      let indented := indentsChildren pretty text children
      '<' :: start ++ '>' :: leadingText indented text ++
        layouts key pretty indented ds (depth + 1) children ++ trailingText indented depth ++
        '<' :: '/' :: key ds true tag ++ ['>']

/-- The characters of elements one after the other, each on a line of its own or not. -/
def layouts (key : Declarations → Bool → String → List Char) (pretty indented : Bool)
    (outer : Declarations) (depth : Nat) : List Element → List Char
  | [] => []
  | e :: es => (if indented then indentation depth else []) ++ layout key pretty outer depth e ++
      layouts key pretty indented outer depth es

end

theorem writeElements_eq_layouts {key : Declarations → Bool → String → List Char}
    {pretty indented : Bool} {outer : Declarations} {depth : Nat} {es : List Element}
    (h : ∀ e ∈ es, writeElement pretty outer depth e = .ok (layout key pretty outer depth e)) :
    writeElements pretty indented outer depth es =
      .ok (layouts key pretty indented outer depth es) := by
  induction es with
  | nil => rw [writeElements, layouts]
  | cons e es ih =>
    rw [writeElements, layouts, h e (.head _), ih fun c hc => h c (.tail _ hc)]
    rfl

/-- What is written for a tree whose names can be written is its layout. -/
theorem writeElement_eq_layout {key : Declarations → Bool → String → List Char} {pretty : Bool}
    {outer : Declarations} {depth : Nat} {e : Element}
    (h : ∀ ds isElement name, NameIn outer e ds isElement name →
      writtenName ds isElement name = .ok (key ds isElement name)) :
    writeElement pretty outer depth e = .ok (layout key pretty outer depth e) := by
  have htag := h _ _ _ .tag
  have hattributes : ∀ a ∈ e.attributes, (do
      return writtenAttribute (← writtenName (outer.inside e.namespaces) false a.1) a.2 :
        Except DocumentError (List Char)) =
          .ok (writtenAttribute (key (outer.inside e.namespaces) false a.1) a.2) := by
    intro a ha
    rw [h _ _ _ (.key ha)]
    rfl
  -- the elements inside are smaller; their names are names in the tree
  have hchildren : ∀ c ∈ e.children,
      writeElement pretty (outer.inside e.namespaces) (depth + 1) c =
        .ok (layout key pretty (outer.inside e.namespaces) (depth + 1) c) := by
    intro c hc
    have := Element.sizeOf_child_lt hc
    exact writeElement_eq_layout fun ds isElement name hn => h ds isElement name (.child hc hn)
  obtain ⟨tag, attributes, children, text, line, namespaces⟩ := e
  rw [Declarations.inside] at htag hattributes hchildren
  simp only at htag hattributes hchildren
  rw [writeElement, layout]
  simp only [htag, bind, Except.bind, pure, Except.pure] at hattributes ⊢
  rw [mapM_of_forall hattributes, writeElements_eq_layouts hchildren]
  cases hempty : children.isEmpty && text.isNone with
  | true => rfl
  | false => rfl
termination_by sizeOf e

theorem exists_of_writeElements {pretty indented : Bool} {outer : Declarations} {depth : Nat}
    {es : List Element} {written : List Char}
    (h : writeElements pretty indented outer depth es = .ok written) {e : Element} (he : e ∈ es) :
    ∃ cs, writeElement pretty outer depth e = .ok cs := by
  induction es generalizing written with
  | nil => cases he
  | cons d es ih =>
    rw [writeElements] at h
    obtain ⟨first, hfirst, h⟩ := exists_of_bind h
    obtain ⟨more, hmore, -⟩ := exists_of_bind h
    rcases List.mem_cons.1 he with rfl | he
    · exact ⟨first, hfirst⟩
    · exact ih hmore he

/-- In a tree that is written every name has a key. -/
theorem exists_key_of_writeElement {outer ds : Declarations} {e : Element} {isElement : Bool}
    {name : String} (hn : NameIn outer e ds isElement name) {pretty : Bool} {depth : Nat}
    {written : List Char} (h : writeElement pretty outer depth e = .ok written) :
    ∃ key, writtenName ds isElement name = .ok key := by
  induction hn generalizing depth written with
  | tag =>
    obtain ⟨key, pairs, hkey, -⟩ := writeElement_cases h
    exact ⟨key, hkey⟩
  | key ha =>
    obtain ⟨-, pairs, -, hpairs, -⟩ := writeElement_cases h
    obtain ⟨pair, -, hkey, -⟩ := exists_of_forall₂_right hpairs.flip ha
    exact ⟨pair.1, hkey⟩
  | child hc _ ih =>
    obtain ⟨key, pairs, -, -, hways⟩ := writeElement_cases h
    rcases hways with ⟨hnil, -⟩ | ⟨-, inside, hinside, -⟩
    · rw [hnil] at hc
      cases hc
    · obtain ⟨cs, hcs⟩ := exists_of_writeElements hinside hc
      exact ih hcs

theorem exists_error_of_writeElements {pretty indented : Bool} {outer : Declarations} {depth : Nat}
    {es : List Element} {error : DocumentError}
    (h : writeElements pretty indented outer depth es = .error error) :
    ∃ e ∈ es, writeElement pretty outer depth e = .error error := by
  induction es with
  | nil =>
    rw [writeElements] at h
    cases h
  | cons e es ih =>
    rw [writeElements] at h
    rcases error_of_bind h with he | ⟨first, -, h⟩
    · exact ⟨e, .head _, he⟩
    · rcases error_of_bind h with hmore | ⟨more, -, h⟩
      · obtain ⟨c, hc, he⟩ := ih hmore
        exact ⟨c, .tail _ hc, he⟩
      · cases h

/-- A tree that is not written has a name that cannot be. -/
theorem exists_name_of_error {pretty : Bool} {outer : Declarations} {depth : Nat} {e : Element}
    {error : DocumentError} (h : writeElement pretty outer depth e = .error error) :
    ∃ ds isElement name, NameIn outer e ds isElement name ∧
      writtenName ds isElement name = .error error := by
  have hchildren : ∀ c ∈ e.children,
      writeElement pretty (outer.inside e.namespaces) (depth + 1) c = .error error →
        ∃ ds isElement name, NameIn outer e ds isElement name ∧
          writtenName ds isElement name = .error error := by
    intro c hc herror
    have := Element.sizeOf_child_lt hc
    obtain ⟨ds, isElement, name, hn, hname⟩ := exists_name_of_error herror
    exact ⟨ds, isElement, name, .child hc hn, hname⟩
  obtain ⟨tag, attributes, children, text, line, namespaces⟩ := e
  rw [writeElement] at h
  rcases error_of_bind h with htag | ⟨name, -, h⟩
  · exact ⟨_, _, _, .tag, htag⟩
  rcases error_of_bind h with hattributes | ⟨written, -, h⟩
  · obtain ⟨a, ha, hwritten⟩ := exists_error_of_mapM hattributes
    rcases error_of_bind hwritten with hkey | ⟨key, -, hkey⟩
    · exact ⟨_, _, _, .key ha, hkey⟩
    · cases hkey
  simp only at h
  split at h
  · cases h
  · rcases error_of_bind h with hinside | ⟨inside, -, h⟩
    · obtain ⟨c, hc, herror⟩ := exists_error_of_writeElements hinside
      exact hchildren c hc herror
    · cases h
termination_by sizeOf e

/-! ## Documents -/

/-- A tree is written just if all its names can be: each is written as it is, or with the prefix
that is chosen for its namespace, and that means the name unless a declaration hides the prefix.
Otherwise the structure is invalid: the namespace of some name is not declared. -/
theorem Element.prefixes_of_write (root : Element) (pretty : Bool) :
    (∀ text, root.write pretty = .ok text →
      ∃ key : Declarations → Bool → String → List Char,
        text.toList = layout key pretty [] 0 root ∧
        ∀ ds isElement name, NameIn [] root ds isElement name →
          (splitName? name = none → key ds isElement name = name.toList) ∧
          (∀ uri rest, splitName? name = some (uri, rest) →
            ∃ p, ds.Chooses isElement uri p ∧ key ds isElement name = spelled p rest) ∧
          (Means ds isElement name (key ds isElement name) ↔ ¬ Hidden ds isElement name)) ∧
    ∀ e, root.write pretty = .error e →
      (Fault.markup e).code = "InvalidStructure" ∧
        ∃ ds isElement name uri rest, NameIn [] root ds isElement name ∧
          splitName? name = some (uri, rest) ∧ ¬ ds.Declares isElement uri ∧ e = .noPrefix uri := by
  refine ⟨fun text htext => ?_, fun e he => ?_⟩
  · rw [Element.write] at htext
    cases hwritten : writeElement pretty [] 0 root with
    | error e =>
      rw [hwritten] at htext
      cases htext
    | ok written =>
      rw [hwritten] at htext
      obtain rfl := Except.ok.inj htext
      have hkeys : ∀ ds isElement name, ∃ key, NameIn [] root ds isElement name →
          writtenName ds isElement name = .ok key := by
        intro ds isElement name
        by_cases hn : NameIn [] root ds isElement name
        · obtain ⟨key, hkey⟩ := exists_key_of_writeElement hn hwritten
          exact ⟨key, fun _ => hkey⟩
        · exact ⟨[], fun h => absurd h hn⟩
      choose key hkey using hkeys
      refine ⟨key, ?_, fun ds isElement name hn => ?_⟩
      · rw [writeElement_eq_layout hkey] at hwritten
        rw [String.toList_ofList, Except.ok.inj hwritten]
      · have hname := hkey ds isElement name hn
        obtain ⟨hself, hprefix⟩ := key_of_writtenName hname
        exact ⟨hself, hprefix, means_iff hname⟩
  · rw [Element.write] at he
    cases hwritten : writeElement pretty [] 0 root with
    | ok written =>
      rw [hwritten] at he
      cases he
    | error e' =>
      rw [hwritten] at he
      obtain rfl := Except.error.inj he
      obtain ⟨ds, isElement, name, hn, hname⟩ := exists_name_of_error hwritten
      obtain ⟨uri, rest, hsplit, hdeclares, rfl⟩ := not_declares_of_writtenName hname
      exact ⟨rfl, ds, isElement, name, uri, rest, hn, hsplit, hdeclares, rfl⟩

/-- A tree that gives a prefix to another namespace further down, and uses it there for that one. -/
def regrouped : Element where
  tag := "\x7bu\x7da"
  namespaces := [(some "p", "u")]
  attributes := [("\x7bu\x7dk", "1")]
  children := [{ tag := "\x7bv\x7db", namespaces := [(some "p", "v")] }]

theorem prefixes_of_write_regrouped :
    (∃ text key, regrouped.write false = .ok text ∧ text.toList = layout key false [] 0 regrouped ∧
      NameIn [] regrouped [(some "p", "v"), (some "p", "u")] true "\x7bv\x7db" ∧
      Means [(some "p", "v"), (some "p", "u")] true "\x7bv\x7db"
        (key [(some "p", "v"), (some "p", "u")] true "\x7bv\x7db")) ∧
    ∃ e, Element.write { tag := "\x7bu\x7da" } false = .error e ∧
      (Fault.markup e).code = "InvalidStructure" := by
  constructor
  · obtain ⟨key, htext, hnames⟩ := (Element.prefixes_of_write regrouped false).1
      "<p:a xmlns:p=\"u\" p:k=\"1\"><p:b xmlns:p=\"v\"/></p:a>" rfl
    have hn : NameIn [] regrouped [(some "p", "v"), (some "p", "u")] true "\x7bv\x7db" :=
      .child (.head _) .tag
    refine ⟨_, key, rfl, htext, hn, (hnames _ _ _ hn).2.2.2 ?_⟩
    rintro ⟨uri, rest, p, uri', hsplit, hp, hne, hother⟩
    have hname : splitName? "\x7bv\x7db" = some ("v", "b") := by decide
    rw [hname] at hsplit
    cases hsplit
    obtain rfl := hp.unique (.nearest (p := "p") (by decide) (by decide) (by decide))
    exact hne (Option.some.inj hother).symm
  · obtain ⟨hcode, -⟩ :=
      (Element.prefixes_of_write { tag := "\x7bu\x7da" } false).2 (.noPrefix "u") rfl
    exact ⟨_, rfl, hcode⟩

/-- A tree that declares two prefixes for a namespace and gives one of them to another namespace
further down, where it uses the first one. -/
def rebound : Element where
  tag := "\x7bu\x7da"
  namespaces := [(some "q", "u"), (some "p", "u")]
  children := [{ tag := "\x7bu\x7db", namespaces := [(some "p", "v")] }]

/-- The prefix that was given away is written, so that the element is read in the other namespace.
-/
theorem not_means_rebound :
    ∃ text root, rebound.write false = .ok text ∧ Element.read text = .ok root ∧
      root.children.map (·.tag) = ["\x7bv\x7db"] ∧
      ¬ ∃ key : Declarations → Bool → String → List Char,
        text.toList = layout key false [] 0 rebound ∧
          ∀ ds isElement name, NameIn [] rebound ds isElement name →
            Means ds isElement name (key ds isElement name) := by
  have htags : (Element.read
      "<p:a xmlns:q=\"u\" xmlns:p=\"u\"><p:b xmlns:p=\"v\"/></p:a>").toOption.map
        (·.children.map (·.tag)) = some ["\x7bv\x7db"] := by decide +kernel
  obtain ⟨root, hread, htags⟩ := exists_of_toOption_map htags
  refine ⟨_, root, rfl, hread, htags, ?_⟩
  rintro ⟨key, htext, hmeans⟩
  have hown : "u" ≠ xmlNamespace := by decide
  obtain ⟨p, houter, -, hp | ⟨-, -, hxml⟩⟩ := hmeans _ _ _ .tag "u" "a" (by decide)
  · obtain ⟨q, hinner, -, hq | ⟨-, -, hxml⟩⟩ :=
      hmeans _ _ _ (.child (.head _) .tag) "u" "b" (by decide)
    · have hp : p = some "p" ∨ p = some "q" := by
        simpa [rebound, Declarations.inside] using Declarations.mem_of_nearest? hp
      -- of the two prefixes that are declared for the namespace, `p` means another one inside
      have hq : q = some "q" := by
        have hmem : q = some "p" ∨ q = some "q" := by
          simpa [rebound, Declarations.inside] using Declarations.mem_of_nearest? hq
        refine hmem.resolve_left ?_
        rintro rfl
        exact absurd hq (by decide)
      subst hq
      simp only [rebound, Declarations.inside, List.reverse_cons, List.reverse_nil,
        List.nil_append, List.cons_append] at houter hinner
      simp only [layout, layouts, rebound, Declarations.inside, List.reverse_cons,
        List.reverse_nil, List.nil_append, List.cons_append, List.map_nil, houter, hinner] at htext
      rcases hp with rfl | rfl
      · exact absurd htext (by decide)
      · exact absurd htext (by decide)
    · exact absurd hxml hown
  · exact absurd hxml hown

end ContentSchema.Markup
