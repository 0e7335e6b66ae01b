import ContentSchema.Markup.Namespace
import ContentSchema.Markup.Writer
import ContentSchema.Proofs.Markup.Attribute
import Mathlib.Data.List.TakeWhile

/-!
# Names in written documents

The declarations of namespaces around a place in a written document are read as bindings
(`bindNamespaces_written`). Inside them a written name has the characters of a key
(`isKey_written`), declares nothing (`boundPrefix?_written`), and stands for the name
(`resolveName_written`), as long as the declarations are proper: a prefix has one meaning only.
-/
namespace ContentSchema.Markup

/-! ## Plain names -/

section Plain

variable {name : String} (h : isPlainName name = true)

include h

theorem ne_nil_of_plain : name.toList ≠ [] := by
  simp only [isPlainName, Bool.and_eq_true, Bool.not_eq_true', String.isEmpty_eq_false_iff] at h
  exact fun he => h.1 (String.toList_eq_nil_iff.1 he)

theorem isPlainChar_of_mem {c : Char} (hc : c ∈ name.toList) : isPlainChar c = true := by
  simp only [isPlainName, Bool.and_eq_true] at h
  exact List.all_eq_true.1 h.2 c hc

theorem isKey_of_plain : IsKey name.toList :=
  ⟨ne_nil_of_plain h, fun _ hc => isKeyChar_of_plain (isPlainChar_of_mem h hc)⟩

theorem isKey_append_colon {rest : String} (hrest : isPlainName rest = true) :
    IsKey (name.toList ++ ':' :: rest.toList) := by
  refine ⟨by simp, fun c hc => ?_⟩
  rcases List.mem_append.1 hc with hc | hc
  · exact (isKey_of_plain h).2 c hc
  · rcases List.mem_cons.1 hc with rfl | hc
    · rfl
    · exact (isKey_of_plain hrest).2 c hc

theorem ne_colon_of_plain : ∀ c ∈ name.toList, (c != ':') = true := fun c hc => by
  refine bne_iff_ne.2 fun he => ?_
  have hplain := isPlainChar_of_mem h hc
  rw [he] at hplain
  exact absurd hplain (by decide)

theorem splitPrefix_of_plain : splitPrefix name.toList = (none, name.toList) := by
  have hdrop : name.toList.dropWhile (· != ':') = [] :=
    List.dropWhile_eq_nil_iff.2 (ne_colon_of_plain h)
  unfold splitPrefix
  rw [hdrop]

theorem splitPrefix_append_colon (rest : List Char) :
    splitPrefix (name.toList ++ ':' :: rest) = (some name.toList, rest) := by
  have hne := ne_colon_of_plain h
  have htake : (name.toList ++ ':' :: rest).takeWhile (· != ':') = name.toList := by
    rw [List.takeWhile_append_of_pos hne, List.takeWhile_cons_of_neg (by decide), List.append_nil]
  have hdrop : (name.toList ++ ':' :: rest).dropWhile (· != ':') = ':' :: rest := by
    rw [List.dropWhile_append_of_pos hne, List.dropWhile_cons_of_neg (by decide)]
  unfold splitPrefix
  rw [hdrop]
  simp only [htake]

end Plain

theorem writtenName_plain {name : String} (h : isPlainName name = true) (ds : Declarations)
    (isElement : Bool) : writtenName ds isElement name = .ok name.toList := by
  rw [writtenName, splitName?_of_plain h]

/-- A key declares a namespace only as `xmlns` or under the prefix `xmlns`. -/
theorem boundPrefix?_eq_none {key : List Char} (hkey : key ≠ "xmlns".toList)
    (hplain : (splitPrefix key).1 ≠ some "xmlns".toList) : boundPrefix? key = none := by
  unfold boundPrefix?
  split
  · rename_i hstart
    obtain ⟨rest, rfl⟩ := List.isPrefixOf_iff_prefix.1 hstart
    cases rest with
    | nil => exact absurd rfl hkey
    | cons c rest =>
      by_cases hc : c = ':'
      · subst hc
        exact absurd rfl hplain
      · simp only [List.cons_append, List.nil_append, List.drop_succ_cons, List.drop_zero]
        split
        · rename_i heq
          cases heq
        · rename_i heq
          cases heq
          exact absurd rfl hc
        · rfl
  · rfl

/-! ## Values of declarations -/

theorem escapedValue_injective : Function.Injective escapedValue := fun u v h => by
  have hu := resolve_value u.toList
  rw [← escapedValue, h, escapedValue, resolve_value] at hu
  exact (String.toList_inj.1 (Except.ok.inj hu)).symm

theorem escapedValue_xmlNamespace : escapedValue xmlNamespace = xmlNamespace.toList := by decide

theorem escapedValue_xmlnsNamespace : escapedValue xmlnsNamespace = xmlnsNamespace.toList := by
  decide

theorem escapedValue_isEmpty {uri : String} (h : uri ≠ "") : (escapedValue uri).isEmpty = false := by
  refine List.isEmpty_eq_false_iff.2 fun he => h (escapedValue_injective ?_)
  rw [he]
  rfl

theorem qualifiedBy_escapedValue (name : List Char) (uri rest : String) :
    qualifiedBy ⟨name, escapedValue uri⟩ rest.toList = .ok (qualified rest uri) := by
  unfold qualifiedBy
  rw [escapedValue, resolve_value]
  simp only [String.ofList_toList]

/-! ## Declarations -/

namespace Declarations

/-- Whether declarations around a place have one meaning only, and can be written. -/
structure Proper (ds : Declarations) : Prop where
  /-- Prefixes are plain, and none is reserved. -/
  prefixes {p uri : String} : (some p, uri) ∈ ds → isPlainName p = true ∧ p ≠ "xml" ∧ p ≠ "xmlns"
  /-- No namespace is empty or reserved. -/
  uris {p : Option String} {uri : String} : (p, uri) ∈ ds →
    uri ≠ "" ∧ uri ≠ xmlNamespace ∧ uri ≠ xmlnsNamespace
  /-- A prefix stands for one namespace. -/
  consistent {p uri uri' : String} : (some p, uri) ∈ ds → (some p, uri') ∈ ds → uri = uri'

/-- The bindings that are read for declarations. -/
def bindings (ds : Declarations) : List Binding :=
  ds.map (fun d => ⟨(d.1.getD "").toList, escapedValue d.2⟩) ++ Binding.initial

/-- The declarations around what stands inside an element. -/
def inside (outer namespaces : Declarations) : Declarations := namespaces.reverse ++ outer

theorem inside_cons (outer namespaces : Declarations) (d : Option String × String) :
    outer.inside (d :: namespaces) = inside (d :: outer) namespaces := by
  simp [inside]

theorem mem_inside {outer namespaces : Declarations} {d : Option String × String} :
    d ∈ outer.inside namespaces ↔ d ∈ namespaces ∨ d ∈ outer := by
  simp [inside]

/-- The tag that is read for one: without a namespace it is in the default one. -/
def tagInside (ds : Declarations) (tag : String) : String :=
  match namespaceOf? tag, ds.default? with
  | none, some uri => qualified tag uri
  | _, _ => tag

theorem Proper.tail {d : Option String × String} {ds : Declarations} (h : Proper (d :: ds)) :
    Proper ds :=
  ⟨fun hp => h.prefixes (.tail _ hp), fun hp => h.uris (.tail _ hp),
    fun hp hq => h.consistent (.tail _ hp) (.tail _ hq)⟩

theorem mem_of_default? {ds : Declarations} {uri : String} (h : ds.default? = some uri) :
    (none, uri) ∈ ds := by
  obtain ⟨⟨p, uri'⟩, hfind, rfl⟩ := Option.map_eq_some_iff.1 h
  have hnone : p = none := by simpa using List.find?_some hfind
  exact hnone ▸ List.mem_of_find?_eq_some hfind

theorem mem_of_prefixOf? {ds : Declarations} {uri p : String} (h : ds.prefixOf? uri = some p) :
    (some p, uri) ∈ ds := by
  obtain ⟨⟨q, uri'⟩, hmem, hq⟩ := List.exists_of_findSome?_eq_some h
  dsimp only at hq
  split at hq
  · rename_i huri
    rwa [← eq_of_beq huri, ← hq]
  · cases hq

variable {ds : Declarations} (h : ds.Proper)

include h

/-- The default namespace is bound to the empty name. -/
theorem find?_default :
    ds.bindings.find? (·.name.isEmpty) = ds.default?.map fun uri => ⟨[], escapedValue uri⟩ := by
  induction ds with
  | nil => rfl
  | cons d ds ih =>
    obtain ⟨p, uri⟩ := d
    cases p with
    | none => rfl
    | some p =>
      have hne : (some p, uri).1.isNone = false := rfl
      have hempty : p.toList.isEmpty = false :=
        List.isEmpty_eq_false_iff.2 (ne_nil_of_plain (h.prefixes (.head _)).1)
      rw [default?, List.find?_cons_of_neg (by simp), ← default?, ← ih h.tail, bindings,
        List.map_cons, List.cons_append, List.find?_cons_of_neg (by simpa using hempty), ← bindings]

/-- A prefix is bound to its namespace. -/
theorem find?_prefix {p uri : String} (hmem : (some p, uri) ∈ ds) :
    ds.bindings.find? (fun b => !p.toList.isEmpty && b.name == p.toList) =
      some ⟨p.toList, escapedValue uri⟩ := by
  have hp : p.toList ≠ [] := ne_nil_of_plain (h.prefixes hmem).1
  induction ds with
  | nil => cases hmem
  | cons d ds ih =>
    obtain ⟨q, uri'⟩ := d
    rw [bindings, List.map_cons, List.cons_append]
    by_cases hq : q = some p
    · subst hq
      rw [List.find?_cons_of_pos (by simpa using hp), h.consistent hmem (.head _)]
      rfl
    · have hname : (q.getD "").toList ≠ p.toList := by
        cases q with
        | none => exact fun he => hp he.symm
        | some q => exact fun he => hq (congrArg some (String.toList_inj.1 he))
      have hrest : (some p, uri) ∈ ds := by
        rcases List.mem_cons.1 hmem with he | hrest
        · exact absurd (congrArg Prod.fst he).symm hq
        · exact hrest
      rw [List.find?_cons_of_neg (by simpa using fun _ => hname), ← bindings]
      exact ih h.tail hrest

/-- The prefix `xml` keeps its namespace. -/
theorem find?_xml :
    ds.bindings.find? (fun b => !"xml".toList.isEmpty && b.name == "xml".toList) =
      some ⟨"xml".toList, escapedValue xmlNamespace⟩ := by
  induction ds with
  | nil =>
    rw [escapedValue_xmlNamespace]
    rfl
  | cons d ds ih =>
    obtain ⟨q, uri⟩ := d
    have hname : (q.getD "").toList ≠ "xml".toList := by
      cases q with
      | none => decide
      | some q => exact fun he => (h.prefixes (.head _)).2.1 (String.toList_inj.1 he)
    rw [bindings, List.map_cons, List.cons_append,
      List.find?_cons_of_neg (by simpa using hname), ← bindings]
    exact ih h.tail

end Declarations

/-! ## Written names -/

section Written

variable {ds : Declarations} {isElement : Bool} {name : String} {key : List Char}

/-- The ways to write a name: as it is, in the default namespace, or with a prefix. -/
theorem writtenName_cases (h : writtenName ds isElement name = .ok key) :
    (splitName? name = none ∧ key = name.toList) ∨
      ∃ uri rest, splitName? name = some (uri, rest) ∧
        ((isElement = true ∧ ds.default? = some uri ∧ key = rest.toList) ∨
          ∃ p, key = p.toList ++ ':' :: rest.toList ∧
            ((p = "xml" ∧ uri = xmlNamespace) ∨ (some p, uri) ∈ ds)) := by
  unfold writtenName at h
  split at h
  · rename_i hsplit
    cases h
    exact .inl ⟨hsplit, rfl⟩
  · rename_i uri rest hsplit
    refine .inr ⟨uri, rest, hsplit, ?_⟩
    split at h
    · rename_i hxml
      cases h
      exact .inr ⟨"xml", by simp, .inl ⟨rfl, eq_of_beq hxml⟩⟩
    · split at h
      · rename_i hdefault
        cases h
        simp only [Bool.and_eq_true, beq_iff_eq] at hdefault
        exact .inl ⟨hdefault.1, hdefault.2, rfl⟩
      · split at h
        · rename_i p hp
          cases h
          exact .inr ⟨p, by simp, .inr (Declarations.mem_of_prefixOf? hp)⟩
        · cases h

variable (hds : ds.Proper) (hlocal : isPlainName (localName name) = true)
  (h : writtenName ds isElement name = .ok key)

include hds in
/-- A prefix that a name is written with is bound to its namespace. -/
theorem prefix_of_written {p uri : String}
    (hp : (p = "xml" ∧ uri = xmlNamespace) ∨ (some p, uri) ∈ ds) :
    isPlainName p = true ∧ p ≠ "xmlns" ∧ uri ≠ "" ∧
      ds.bindings.find? (fun b => !p.toList.isEmpty && b.name == p.toList) =
        some ⟨p.toList, escapedValue uri⟩ := by
  rcases hp with ⟨rfl, rfl⟩ | hmem
  · exact ⟨by decide, by decide, by decide, Declarations.find?_xml hds⟩
  · obtain ⟨hplain, -, hxmlns⟩ := hds.prefixes hmem
    exact ⟨hplain, hxmlns, (hds.uris hmem).1, Declarations.find?_prefix hds hmem⟩

include hlocal h

theorem isKey_written (hds : ds.Proper) : IsKey key := by
  rcases writtenName_cases h with ⟨hsplit, rfl⟩ | ⟨uri, rest, hsplit, hways⟩
  · rw [localName, hsplit] at hlocal
    exact isKey_of_plain hlocal
  · rw [localName, hsplit] at hlocal
    rcases hways with ⟨-, -, rfl⟩ | ⟨p, rfl, hp⟩
    · exact isKey_of_plain hlocal
    · exact isKey_append_colon (prefix_of_written hds hp).1 hlocal

/-- The key of an attribute declares no namespace. -/
theorem boundPrefix?_written (hds : ds.Proper) (hattribute : isElement = false)
    (hne : name ≠ "xmlns") : boundPrefix? key = none := by
  rcases writtenName_cases h with ⟨hsplit, rfl⟩ | ⟨uri, rest, -, hways⟩
  · rw [localName, hsplit] at hlocal
    refine boundPrefix?_eq_none (fun he => hne (String.toList_inj.1 he)) ?_
    rw [splitPrefix_of_plain hlocal]
    exact (Option.some_ne_none _).symm
  · rcases hways with ⟨helement, -⟩ | ⟨p, rfl, hp⟩
    · rw [hattribute] at helement
      cases helement
    · obtain ⟨hplain, hxmlns, -⟩ := prefix_of_written hds hp
      refine boundPrefix?_eq_none (fun he => ?_) ?_
      · have hcolon : ':' ∈ "xmlns".toList := by
          rw [← he]
          simp
        exact absurd hcolon (by decide)
      · rw [splitPrefix_append_colon hplain]
        exact fun he => hxmlns (String.toList_inj.1 (Option.some.inj he))

/-- A written name stands for the name; without a prefix it is in the default namespace. -/
theorem resolveName_written (hds : ds.Proper) :
    resolveName ds.bindings isElement key =
      .ok (if isElement then ds.tagInside name else name) := by
  rcases writtenName_cases h with ⟨hsplit, rfl⟩ | ⟨uri, rest, hsplit, hways⟩
  · rw [localName, hsplit] at hlocal
    unfold resolveName Declarations.tagInside
    rw [splitPrefix_of_plain hlocal, namespaceOf?, hsplit, Declarations.find?_default hds]
    cases isElement with
    | false => simp
    | true =>
      cases hdefault : ds.default? with
      | none => simp
      | some uri =>
        have huri := (hds.uris (Declarations.mem_of_default? hdefault)).1
        simp [escapedValue_isEmpty huri, qualifiedBy_escapedValue]
  · rw [localName, hsplit] at hlocal
    have hname := eq_qualified_of_splitName? hsplit
    have htag : ds.tagInside name = name := by
      rw [Declarations.tagInside, namespaceOf?, hsplit]
      rfl
    rw [htag, ite_self]
    unfold resolveName
    rcases hways with ⟨rfl, hdefault, rfl⟩ | ⟨p, rfl, hp⟩
    · have huri := (hds.uris (Declarations.mem_of_default? hdefault)).1
      rw [splitPrefix_of_plain hlocal, Declarations.find?_default hds, hdefault]
      simp [escapedValue_isEmpty huri, qualifiedBy_escapedValue, ← hname]
    · obtain ⟨hplain, -, huri, hfind⟩ := prefix_of_written hds hp
      rw [splitPrefix_append_colon hplain]
      simp only [hfind, escapedValue_isEmpty huri, Bool.false_eq_true, if_false,
        qualifiedBy_escapedValue, ← hname]

end Written

/-! ## Bindings -/

/-- Attributes that declare no namespace leave the bindings as they are. -/
theorem bindNamespaces_of_unbound {pairs : List (List Char × String)} {items : List AttributeItem}
    (h : List.Forall₂ IsAttribute pairs items) (hp : ∀ p ∈ pairs, boundPrefix? p.1 = none)
    (outer : List Binding) : bindNamespaces outer items = .ok outer := by
  induction h with
  | nil => rw [bindNamespaces]; exact nofun
  | cons hitem _ ih =>
    obtain ⟨position, rfl⟩ := hitem
    rw [bindNamespaces]
    simp only [hp _ (.head _)]
    exact ih fun q hq => hp q (.tail _ hq)

/-- The key of the attribute that declares a namespace under a prefix, or as the default one. -/
def declarationKey : Option String → List Char
  | some p => ("xmlns:" ++ p).toList
  | none => "xmlns".toList

/-- The keys and values of declarations. -/
def declarationPairs (namespaces : Declarations) : List (List Char × String) :=
  namespaces.map fun d => (declarationKey d.1, d.2)

theorem flatMap_writtenDeclaration (namespaces : Declarations) :
    namespaces.flatMap writtenDeclaration = writtenAttributes (declarationPairs namespaces) := by
  rw [writtenAttributes, declarationPairs, List.flatMap_map]
  refine List.flatMap_congr fun d _ => ?_
  obtain ⟨p, uri⟩ := d
  cases p <;> rfl

theorem boundPrefix?_declarationKey (p : Option String) :
    boundPrefix? (declarationKey p) = some (p.map String.toList) := by
  cases p with
  | none => rfl
  | some p =>
    have hkey : declarationKey (some p) = "xmlns".toList ++ ':' :: p.toList := by
      simp [declarationKey]
    rw [hkey]
    rfl

theorem declarationKey_injective : Function.Injective declarationKey := fun p q h => by
  have hp := boundPrefix?_declarationKey p
  rw [h, boundPrefix?_declarationKey] at hp
  exact (Option.map_injective (fun _ _ => String.toList_inj.1) (Option.some.inj hp)).symm

theorem isKey_declarationKey {ds : Declarations} (h : ds.Proper) {d : Option String × String}
    (hd : d ∈ ds) : IsKey (declarationKey d.1) := by
  obtain ⟨p, uri⟩ := d
  cases p with
  | none =>
    have hkey : "xmlns".toList ≠ [] ∧ "xmlns".toList.all isKeyChar = true := by decide
    exact ⟨hkey.1, List.all_eq_true.1 hkey.2⟩
  | some p =>
    have hkey : declarationKey (some p) = "xmlns".toList ++ ':' :: p.toList := by
      simp [declarationKey]
    rw [hkey]
    exact isKey_append_colon (by decide) (h.prefixes hd).1

theorem checkBinding_written {p uri : String} (hxml : p ≠ "xml") (hxmlns : p ≠ "xmlns")
    (huri : uri ≠ xmlNamespace) (huri' : uri ≠ xmlnsNamespace) :
    checkBinding p.toList (escapedValue uri) = .ok () := by
  have hp : (p.toList == ['x', 'm', 'l']) = false :=
    beq_eq_false_iff_ne.2 fun he => hxml (String.toList_inj.1 he)
  have hp' : (p.toList == ['x', 'm', 'l', 'n', 's']) = false :=
    beq_eq_false_iff_ne.2 fun he => hxmlns (String.toList_inj.1 he)
  have hu : (escapedValue uri == xmlNamespace.toList) = false := beq_eq_false_iff_ne.2 fun he =>
    huri (escapedValue_injective (he.trans escapedValue_xmlNamespace.symm))
  have hu' : (escapedValue uri == xmlnsNamespace.toList) = false := beq_eq_false_iff_ne.2 fun he =>
    huri' (escapedValue_injective (he.trans escapedValue_xmlnsNamespace.symm))
  simp only [checkBinding, hp, hp', hu, hu', Bool.false_eq_true, if_false]

/-- A tag with declarations binds them in front of those around it. -/
theorem bindNamespaces_written {namespaces outer : Declarations}
    {pairs : List (List Char × String)} {items : List AttributeItem}
    (h : List.Forall₂ IsAttribute (declarationPairs namespaces ++ pairs) items)
    (hp : ∀ p ∈ pairs, boundPrefix? p.1 = none) (hds : (outer.inside namespaces).Proper) :
    bindNamespaces outer.bindings items = .ok (outer.inside namespaces).bindings := by
  induction namespaces generalizing outer items with
  | nil => exact bindNamespaces_of_unbound h hp _
  | cons d namespaces ih =>
    obtain ⟨p, uri⟩ := d
    obtain ⟨item, others, ⟨position, rfl⟩, hothers, rfl⟩ := List.forall₂_cons_left_iff.1 h
    have hmem : (p, uri) ∈ outer.inside ((p, uri) :: namespaces) :=
      Declarations.mem_inside.2 (.inl (.head _))
    rw [Declarations.inside_cons]
    refine Eq.trans ?_ (ih hothers (Declarations.inside_cons _ _ _ ▸ hds))
    rw [bindNamespaces]
    simp only [boundPrefix?_declarationKey]
    cases p with
    | none => rfl
    | some p =>
      obtain ⟨-, hxml, hxmlns⟩ := hds.prefixes hmem
      obtain ⟨-, huri, huri'⟩ := hds.uris hmem
      have hp : (p.toList == ['x', 'm', 'l']) = false :=
        beq_eq_false_iff_ne.2 fun he => hxml (String.toList_inj.1 he)
      simp only [Option.map_some, checkBinding_written hxml hxmlns huri huri', hp, bind, Except.bind,
        Bool.false_eq_true, if_false]
      rfl

end ContentSchema.Markup
