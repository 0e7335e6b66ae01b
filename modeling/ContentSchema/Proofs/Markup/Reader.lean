import ContentSchema.Markup.Reader
import ContentSchema.Proofs.Lists
import ContentSchema.Proofs.Markup.Namespace
import ContentSchema.Proofs.Markup.Token
import Mathlib.Data.List.Nodup

/-!
# Reading what is written

Reading a document takes one token after the other into a partial document. `Takes` says what some
tokens lead to: written text goes into the innermost element (`exists_takes_text`), and written tags
open an element with their attributes and close it again (`openElement_written`, `close_written`).
-/
namespace ContentSchema.Markup

/-! ## Runs -/

/-- Whether tokens at the beginning of `cs`, which is at byte `start`, turn one partial document to
another one and leave `rest`, which is at byte `stop`. -/
inductive Takes (bytes : List UInt8) :
    Nat → List Char → PartialDocument → Nat → List Char → PartialDocument → Prop
  /-- No token. -/
  | refl (start : Nat) (cs : List Char) (d : PartialDocument) : Takes bytes start cs d start cs d
  /-- A token and further ones. -/
  | step {start stop : Nat} {cs more rest : List Char} {d d' d'' : PartialDocument} {t : Token}
    (token : nextToken cs = .token t more)
    (added : d.add bytes (t, start + bytesBefore more cs) = .ok d')
    (others : Takes bytes (start + bytesBefore more cs) more d' stop rest d'') :
    Takes bytes start cs d stop rest d''

section Takes

variable {bytes : List UInt8} {start stop : Nat} {cs rest : List Char} {d d' : PartialDocument}

theorem Takes.trans {stop' : Nat} {rest' : List Char} {d'' : PartialDocument}
    (h : Takes bytes start cs d stop rest d') (h' : Takes bytes stop rest d' stop' rest' d'') :
    Takes bytes start cs d stop' rest' d'' := by
  induction h with
  | refl => exact h'
  | step token added _ ih => exact .step token added (ih h')

/-- One token that is taken wherever it stands. -/
theorem exists_takes_token {t : Token} (token : nextToken cs = .token t rest)
    (added : ∀ place, d.add bytes (t, place) = .ok d') (start : Nat) :
    ∃ stop, Takes bytes start cs d stop rest d' :=
  ⟨_, .step token (added _) (.refl _ _ _)⟩

/-- A run to the end of the characters is the reading of all tokens. -/
theorem Takes.foldlM_tokens (h : Takes bytes start cs d stop [] d') :
    (tokensFrom start cs).tokens.foldlM (PartialDocument.add bytes) d = .ok d' ∧
      (tokensFrom start cs).failure = none := by
  generalize hrest : ([] : List Char) = rest at h
  induction h with
  | refl start cs d =>
    subst hrest
    rw [tokensFrom]
    exact ⟨rfl, rfl⟩
  | @step start stop cs more rest d d' d'' t token added others ih =>
    obtain ⟨hfold, hfailure⟩ := ih hrest
    rw [tokensFrom_token token]
    refine ⟨?_, hfailure⟩
    rw [List.foldlM_cons, added]
    exact hfold

end Takes

/-! ## Text -/

namespace PartialDocument

theorem addText_append (d : PartialDocument) (as bs : List Char) :
    (d.addText as).addText bs = d.addText (as ++ bs) := by
  obtain ⟨opened, root⟩ := d
  cases opened with
  | nil => rfl
  | cons o os =>
    cases hempty : o.element.children.isEmpty with
    | false => simp [addText, hempty]
    | true => simp [addText, hempty, String.ofList_append, String.append_assoc]

/-- Text does not count behind a child. -/
theorem addText_of_children {d : PartialDocument} {o : OpenElement} {os : List OpenElement}
    (h : d.opened = o :: os) (hne : o.element.children ≠ []) (cs : List Char) :
    d.addText cs = d := by
  have hempty : o.element.children.isEmpty = false := by simpa using hne
  unfold addText
  rw [h]
  simp [hempty]

end PartialDocument

/-- The first character of what is written for text that does not stand for itself. -/
theorem not_isTextChar_of_head {cs : List Char}
    (hcs : ∀ c, cs.head? = some c → escapeTextChar c ≠ [c]) (rest : List Char) {d : Char}
    (hd : (cs.flatMap escapeTextChar ++ '<' :: rest).head? = some d) : isTextChar d = false := by
  cases cs with
  | nil =>
    cases hd
    decide
  | cons c cs =>
    rcases escapeTextChar_cases c with ⟨hc, -⟩ | ⟨body, hc, -⟩
    · exact absurd hc (hcs c rfl)
    · rw [List.flatMap_cons, hc] at hd
      cases hd
      decide

theorem flatMap_escapeTextChar_of_plain {cs : List Char} (h : ∀ c ∈ cs, escapeTextChar c = [c]) :
    cs.flatMap escapeTextChar = cs := by
  induction cs with
  | nil => rfl
  | cons c cs ih =>
    rw [List.flatMap_cons, h c (.head _), ih fun d hd => h d (.tail _ hd)]
    rfl

theorem isTextChar_of_plain {c : Char} (h : escapeTextChar c = [c]) : isTextChar c = true := by
  rcases escapeTextChar_cases c with ⟨-, hamp, hless, -⟩ | ⟨body, hc, -⟩
  · simp [isTextChar, hamp, hless]
  · rw [hc] at h
    simp at h

/-- A reference is the character that it stands for. -/
theorem exists_takes_reference {body : List Char} {c : Char}
    (hbody : ∀ d ∈ body, d ≠ ';' ∧ d ≠ '&' ∧ d ≠ '<' ∧ d ≠ '>' ∧ d ≠ '"')
    (hc : ∀ start, referencedCharacter start body = .ok c) (rest : List Char) (bytes : List UInt8)
    (d : PartialDocument) (start : Nat) :
    ∃ stop, Takes bytes start ('&' :: (body ++ ';' :: rest)) d stop rest (d.addText [c]) := by
  have hresolve : PartialDocument.resolveText ('&' :: body ++ [';']) = .ok [c] := by
    obtain ⟨next, hnext⟩ := resolveFrom_reference 0 []
      (fun a ha => ⟨(hbody a ha).1, (hbody a ha).2.1⟩) (hc 1)
    rw [PartialDocument.resolveText, resolve, List.cons_append, hnext, resolveFrom]
    rfl
  refine exists_takes_token (nextToken_reference hbody rest) (fun place => ?_) start
  rw [PartialDocument.add, hresolve]
  rfl

/-- Text that starts with a plain character is a run of plain characters and other text. -/
theorem exists_plain_run {c : Char} (hc : escapeTextChar c = [c]) (cs : List Char) :
    ∃ run others, cs = run ++ others ∧ ∀ rest,
      nextToken ((c :: cs).flatMap escapeTextChar ++ '<' :: rest) =
        .token (.text (c :: run)) (others.flatMap escapeTextChar ++ '<' :: rest) := by
  let isPlain (d : Char) : Bool := escapeTextChar d = [d]
  have hrun : ∀ d ∈ cs.takeWhile isPlain, escapeTextChar d = [d] := fun d hd => by
    have hplain : isPlain d = true := List.mem_takeWhile_imp hd
    simpa [isPlain] using hplain
  have hothers : ∀ d, (cs.dropWhile isPlain).head? = some d → escapeTextChar d ≠ [d] := by
    intro d hd
    have hnot := List.head?_dropWhile_not isPlain cs
    rw [hd] at hnot
    simpa [isPlain] using hnot
  have hsplit : cs.takeWhile isPlain ++ cs.dropWhile isPlain = cs := List.takeWhile_append_dropWhile
  refine ⟨_, _, hsplit.symm, fun rest => ?_⟩
  have htext : (c :: cs).flatMap escapeTextChar ++ '<' :: rest =
      c :: (cs.takeWhile isPlain ++
        ((cs.dropWhile isPlain).flatMap escapeTextChar ++ '<' :: rest)) := by
    conv => lhs; rw [← hsplit]
    rw [List.flatMap_cons, hc, List.flatMap_append, flatMap_escapeTextChar_of_plain hrun]
    simp
  rw [htext]
  exact nextToken_text (isTextChar_of_plain hc) (fun d hd => isTextChar_of_plain (hrun d hd))
    fun d hd => not_isTextChar_of_head hothers rest hd

/-- The text of an element is read back, in as many tokens as there are. -/
theorem exists_takes_text {cs : List Char} (hcs : cs ≠ []) (rest : List Char) (bytes : List UInt8)
    (d : PartialDocument) (start : Nat) :
    ∃ stop, Takes bytes start (cs.flatMap escapeTextChar ++ '<' :: rest) d stop ('<' :: rest)
      (d.addText cs) := by
  -- a step takes a run of plain characters or one reference, so that the rest gets shorter
  induction hn : cs.length using Nat.strongRecOn generalizing cs d start with
  | _ n ih =>
    have further (before cs' : List Char) (hlen : cs'.length < n) (start : Nat) :
        ∃ stop, Takes bytes start (cs'.flatMap escapeTextChar ++ '<' :: rest) (d.addText before) stop
          ('<' :: rest) (d.addText (before ++ cs')) := by
      by_cases hnil : cs' = []
      · subst hnil
        rw [List.append_nil]
        exact ⟨start, .refl _ _ _⟩
      · rw [← PartialDocument.addText_append]
        exact ih cs'.length hlen hnil (d.addText before) start rfl
    obtain ⟨c, cs, rfl⟩ := List.exists_cons_of_ne_nil hcs
    rw [List.length_cons] at hn
    rcases escapeTextChar_cases c with ⟨hc, -⟩ | ⟨body, hc, hbody, href⟩
    · obtain ⟨run, others, rfl, htoken⟩ := exists_plain_run hc cs
      rw [List.length_append] at hn
      have hadd (place : Nat) : d.add bytes (.text (c :: run), place) = .ok (d.addText (c :: run)) :=
        rfl
      obtain ⟨middle, hfirst⟩ := exists_takes_token (htoken rest) hadd start
      obtain ⟨stop, hmore⟩ := further (c :: run) others (by omega) middle
      exact ⟨stop, hfirst.trans hmore⟩
    · obtain ⟨middle, hfirst⟩ := exists_takes_reference hbody href
        (cs.flatMap escapeTextChar ++ '<' :: rest) bytes d start
      obtain ⟨stop, hmore⟩ := further [c] cs (by omega) middle
      refine ⟨stop, ?_⟩
      have htext : (c :: cs).flatMap escapeTextChar ++ '<' :: rest =
          '&' :: (body ++ ';' :: (cs.flatMap escapeTextChar ++ '<' :: rest)) := by
        rw [List.flatMap_cons, hc]
        simp
      rw [htext]
      exact hfirst.trans hmore

/-! ## Tags -/

/-- Whether a key and a value are those of an attribute as it is written inside declarations. -/
structure KeyOf (ds : Declarations) (a : String × String) (p : List Char × String) : Prop where
  /-- The value is that of the attribute. -/
  value : p.2 = a.2
  /-- The key can be read. -/
  key : IsKey p.1
  /-- It declares no namespace. -/
  unbound : boundPrefix? p.1 = none
  /-- It stands for the name of the attribute. -/
  name : resolveName ds.bindings false p.1 = .ok a.1

theorem resolveText_escapedValue (value : String) :
    PartialDocument.resolveText (escapedValue value) = .ok value.toList := by
  rw [PartialDocument.resolveText, escapedValue, resolve_value]
  rfl

section Attributes

variable {ds : Declarations} {attributes : List (String × String)}
  {pairs : List (List Char × String)} (h : List.Forall₂ (KeyOf ds) attributes pairs)

include h

/-- The attributes of a tag are put into its element one by one. -/
theorem foldlM_addAttribute {checked : List (Except AttributeError RawAttribute)}
    (hc : List.Forall₂ IsChecked pairs checked) (line : Nat) (e : Element) :
    checked.foldlM (PartialDocument.addAttribute ds.bindings line) e =
      .ok { e with attributes := e.attributes ++ attributes } := by
  induction h generalizing checked e with
  | nil =>
    cases hc
    cases e
    simp only [List.foldlM_nil, List.append_nil]
    rfl
  | @cons a p attributes pairs hap _ ih =>
    obtain ⟨name, value⟩ := a
    obtain ⟨hvalue, -, hunbound, hname⟩ := hap
    cases hc with
    | cons hfirst hc =>
      obtain ⟨position, rfl⟩ := hfirst
      have hadd : PartialDocument.addAttribute ds.bindings line e
          (.ok ⟨position, p.1, escapedValue p.2⟩) =
            .ok { e with attributes := e.attributes ++ [(name, value)] } := by
        simp only [PartialDocument.addAttribute, Except.mapError, bind, Except.bind,
          resolveText_escapedValue, hunbound, hname, pure, Except.pure, String.ofList_toList]
        rw [hvalue]
      rw [List.foldlM_cons, hadd]
      refine (ih hc _).trans ?_
      rw [List.append_assoc, List.singleton_append]

/-- The declarations of a tag are put into its element before the attributes. -/
theorem foldlM_addAttribute_declarations {namespaces : Declarations}
    {checked : List (Except AttributeError RawAttribute)}
    (hc : List.Forall₂ IsChecked (declarationPairs namespaces ++ pairs) checked) (line : Nat)
    (e : Element) :
    checked.foldlM (PartialDocument.addAttribute ds.bindings line) e =
      .ok { e with
        attributes := e.attributes ++ attributes, namespaces := e.namespaces ++ namespaces } := by
  induction namespaces generalizing checked e with
  | nil =>
    rw [List.append_nil]
    exact foldlM_addAttribute h hc line e
  | cons d namespaces ih =>
    obtain ⟨p, uri⟩ := d
    obtain ⟨_, others, ⟨position, rfl⟩, hothers, rfl⟩ := List.forall₂_cons_left_iff.1 hc
    have hname : (p.map String.toList).map String.ofList = p := by
      cases p with
      | none => rfl
      | some p => simp
    have hadd : PartialDocument.addAttribute ds.bindings line e
        (.ok ⟨position, declarationKey p, escapedValue uri⟩) =
          .ok { e with namespaces := e.namespaces ++ [(p, uri)] } := by
      simp only [PartialDocument.addAttribute, Except.mapError, bind, Except.bind,
        resolveText_escapedValue, boundPrefix?_declarationKey, pure, Except.pure,
        String.ofList_toList, hname]
    rw [List.foldlM_cons, hadd]
    refine (ih hothers _).trans ?_
    rw [List.append_assoc, List.singleton_append]

theorem unbound_of_pairs : ∀ p ∈ pairs, boundPrefix? p.1 = none := fun p hp => by
  obtain ⟨a, -, hap⟩ := exists_of_forall₂_right h hp
  exact hap.unbound

/-- The keys of a tag can be read. -/
theorem isKey_of_pairs {namespaces : Declarations} (hds : ds.Proper) (hsub : namespaces ⊆ ds) :
    ∀ p ∈ declarationPairs namespaces ++ pairs, IsKey p.1 := by
  intro p hp
  rcases List.mem_append.1 hp with hp | hp
  · obtain ⟨d, hd, rfl⟩ := List.mem_map.1 hp
    exact isKey_declarationKey hds (hsub hd)
  · obtain ⟨a, -, hap⟩ := exists_of_forall₂_right h hp
    exact hap.key

/-- The keys of distinct attributes are distinct. -/
theorem nodup_keys (hd : (attributes.map (·.1)).Nodup) : (pairs.map (·.1)).Nodup := by
  induction h with
  | nil => exact List.nodup_nil
  | @cons a p attributes pairs hap h ih =>
    obtain ⟨ha, hd⟩ := List.nodup_cons.1 hd
    refine List.nodup_cons.2 ⟨fun hp => ha ?_, ih hd⟩
    obtain ⟨q, hq, hkey⟩ := List.mem_map.1 hp
    obtain ⟨b, hb, hbq⟩ := exists_of_forall₂_right h hq
    have hname : (.ok b.1 : Except DocumentError String) = .ok a.1 := by
      rw [← hbq.name, hkey, hap.name]
    exact List.mem_map.2 ⟨b, hb, Except.ok.inj hname⟩

/-- The keys of a tag are distinct. -/
theorem nodup_tagKeys {namespaces : Declarations} (hd : (attributes.map (·.1)).Nodup)
    (hprefixes : (namespaces.map (·.1)).Nodup) :
    ((declarationPairs namespaces ++ pairs).map (·.1)).Nodup := by
  have hkeys : (declarationPairs namespaces).map (·.1) =
      (namespaces.map (·.1)).map declarationKey := by
    simp [declarationPairs]
  rw [List.map_append, hkeys]
  refine List.nodup_append.2 ⟨hprefixes.map declarationKey_injective, nodup_keys h hd,
    fun k hk l hl hkl => ?_⟩
  obtain ⟨p, -, rfl⟩ := List.mem_map.1 hk
  obtain ⟨q, hq, rfl⟩ := List.mem_map.1 hl
  have hbound := boundPrefix?_declarationKey p
  rw [hkl, unbound_of_pairs h q hq] at hbound
  cases hbound

end Attributes

/-- An element when it is closed: it has a text, if only an empty one, or children. -/
def closed (e : Element) : Element :=
  if e.children.isEmpty then { e with text := some (e.text.getD "") } else e

section Tag

variable {name : List Char} (hname : IsKey name)

include hname

/-- A tag opens an element with its attributes and declarations. -/
theorem openElement_written {namespaces outer : Declarations} {tag : String}
    {attributes : List (String × String)} {pairs : List (List Char × String)}
    (hds : (outer.inside namespaces).Proper) (hprefixes : (namespaces.map (·.1)).Nodup)
    (htag : resolveName (outer.inside namespaces).bindings true name = .ok tag)
    (h : List.Forall₂ (KeyOf (outer.inside namespaces)) attributes pairs)
    (hd : (attributes.map (·.1)).Nodup) {d : PartialDocument} (hb : d.bindings = outer.bindings)
    (bytes : List UInt8) (stop : Nat) :
    ∃ line, d.openElement bytes
        (name ++ writtenAttributes (declarationPairs namespaces ++ pairs)) stop =
      .ok ⟨name, (outer.inside namespaces).bindings, { tag, attributes, line, namespaces }⟩ := by
  have hkeys := isKey_of_pairs h hds fun d hd => Declarations.mem_inside.2 (.inl hd)
  have hitems := attributesOf_written hname.2 _ hkeys
  have hchecked := checkAttributes_written hitems (nodup_tagKeys h hd hprefixes)
    (show ∀ p ∈ declarationPairs namespaces ++ pairs,
      p.1 ∉ ([] : List (List Char × Nat)).map (·.1) by simp)
  have hbind := bindNamespaces_written hitems (unbound_of_pairs h) hds
  have hfold := foldlM_addAttribute_declarations h hchecked (startLine bytes stop)
    { tag := "", line := some (startLine bytes stop) }
  refine ⟨some (startLine bytes stop), ?_⟩
  unfold PartialDocument.openElement
  simp only [hb, hbind, Except.mapError, bind, Except.bind, tagName_written hname.2, htag, pure,
    Except.pure]
  rw [hfold]
  rfl

theorem endName_written : PartialDocument.endName name = name := by
  obtain ⟨hne, hkey⟩ := hname
  have hdrop : name.reverse.dropWhile isTagSpace = name.reverse := by
    cases hrev : name.reverse with
    | nil => rfl
    | cons c cs =>
      have hc : c ∈ name := List.mem_reverse.1 (hrev ▸ List.mem_cons_self)
      rw [List.dropWhile_cons_of_neg]
      rw [(ne_of_isKeyChar (hkey c hc)).1]
      exact Bool.false_ne_true
  unfold PartialDocument.endName
  rw [hdrop, List.reverse_reverse]
  split
  · rfl
  · rfl

/-- An end tag closes the element that its start tag opened. -/
theorem close_written {o : OpenElement} {os : List OpenElement} (ho : o.name = name)
    (root : Option Element) (bytes : List UInt8) (stop : Nat) :
    PartialDocument.close ⟨o :: os, root⟩ bytes name stop =
      PartialDocument.addElement ⟨os, root⟩ (closed o.element) := by
  unfold PartialDocument.close closed
  simp only [endName_written hname, ho, BEq.rfl, if_true]

end Tag

end ContentSchema.Markup
