import ContentSchema.Proofs.Document.SchemaReader
import ContentSchema.Proofs.Markup.Line

/-!
# The place of a fault

Reading keeps the lines of the elements that have been entered and not left. `Reading.StaysInside`
says what that amounts to for a step that reads an element: when it succeeds, the lines are what they
were, and after a fault those of elements stand before them that lead from the element down to the
innermost one. There is one rule for each way to build a step, and from these the statement follows
for every reader.

All elements of a document that was read have lines (`Element.lined_of_read`), so the innermost
element has one.

Result: a diagnostic has the fault as it was met, with the file and the line of the innermost element
(`place_of_parse`).
-/
namespace ContentSchema.Document

open Markup (Element)
open Markup.Element (Encloses encloses_of_mem)

namespace Reading

variable {α β : Type} {e c : Element}

/-- Whether a step of reading an element leaves the lines as they were when it succeeds, and after a
fault has put those of elements before them that lead down from the element, the innermost first. -/
def StaysInside (e : Element) (x : Reading α) : Prop :=
  ∀ p, (∃ a q, x.start p = (.ok a, q) ∧ q.lines = p.lines) ∨
    ∃ fault q chain, x.start p = (.error fault, q) ∧ (e :: chain).IsChain Encloses ∧
      q.lines = (chain.map (·.line)).reverse ++ p.lines

theorem staysInside_ofExcept (x : Except Fault α) : StaysInside e (ofExcept x) := by
  intro p
  cases x with
  | ok a => exact .inl ⟨a, p, rfl, rfl⟩
  | error fault => exact .inr ⟨fault, p, [], rfl, .singleton e, rfl⟩

theorem staysInside_pure (a : α) : StaysInside e (pure a : Reading α) :=
  staysInside_ofExcept (.ok a)

theorem staysInside_throw (fault : Fault) : StaysInside e (throw fault : Reading α) :=
  staysInside_ofExcept (.error fault)

theorem staysInside_liftM (x : Except Fault α) : StaysInside e (liftM x : Reading α) :=
  staysInside_ofExcept x

theorem staysInside_ofModel (x : Except ModelError α) : StaysInside e (ofModel x) :=
  staysInside_ofExcept _

theorem staysInside_takeNumber : StaysInside e takeNumber := fun _ => .inl ⟨_, _, rfl, rfl⟩

/-- What comes second has to stay inside for the results of what comes first. -/
theorem StaysInside.bind_of_yields {x : Reading α} {f : α → Reading β} (hx : StaysInside e x)
    (hf : ∀ m n a, x.Yields m n a → StaysInside e (f a)) : StaysInside e (x >>= f) := by
  intro p
  rw [start_bind]
  rcases hx p with ⟨a, q, hstart, hlines⟩ | ⟨fault, q, chain, hstart, hchain, hlines⟩
  · rw [hstart, ← hlines]
    exact hf _ _ a (yields_of_start hstart) q
  · rw [hstart]
    exact .inr ⟨fault, q, chain, rfl, hchain, hlines⟩

theorem StaysInside.bind {x : Reading α} {f : α → Reading β} (hx : StaysInside e x)
    (hf : ∀ a, StaysInside e (f a)) : StaysInside e (x >>= f) :=
  hx.bind_of_yields fun _ _ a _ => hf a

/-- An element that is entered is the first one on the way down. -/
theorem StaysInside.within {x : Reading α} (hx : StaysInside c x) (hc : e.Encloses c) :
    StaysInside e (Reading.within c.line x) := by
  intro p
  rw [start_within]
  rcases hx { p with lines := c.line :: p.lines } with ⟨a, q, hstart, hlines⟩ |
    ⟨fault, q, chain, hstart, hchain, hlines⟩
  · rw [hstart]
    exact .inl ⟨a, _, rfl, congrArg List.tail hlines⟩
  · rw [hstart]
    refine .inr ⟨fault, q, c :: chain, rfl, .cons_cons hc hchain, ?_⟩
    rw [hlines, List.map_cons, List.reverse_cons, List.append_assoc, List.singleton_append]

theorem staysInside_foldlM {f : β → α → Reading β} {as : List α}
    (hf : ∀ a ∈ as, ∀ b, StaysInside e (f b a)) (b : β) : StaysInside e (as.foldlM f b) := by
  induction as generalizing b with
  | nil => exact staysInside_pure b
  | cons a as ih =>
    rw [List.foldlM_cons]
    exact (hf a (.head _) b).bind fun b => ih (fun a ha => hf a (.tail _ ha)) b

theorem staysInside_mapM {f : α → Reading β} {as : List α}
    (hf : ∀ a ∈ as, StaysInside e (f a)) : StaysInside e (as.mapM f) := by
  induction as with
  | nil => exact staysInside_pure []
  | cons a as ih =>
    rw [List.mapM_cons]
    exact (hf a (.head _)).bind fun _ =>
      (ih fun a ha => hf a (.tail _ ha)).bind fun _ => staysInside_pure _

end Reading

open Reading

/-! ## Fields -/

theorem staysInside_readVocabulary (s : Scope) (e : Element) :
    StaysInside e (readVocabulary s e) :=
  (staysInside_mapM fun _ hi => (staysInside_ofExcept _).within
    (encloses_of_mem (List.mem_of_mem_filter hi))).bind fun _ => staysInside_ofModel _

theorem staysInside_readAttribute (s : Scope) (f : Field) (spec : AttributeSpec) (e : Element) :
    StaysInside e (readAttribute s f spec e) := by
  unfold readAttribute
  split
  · refine (staysInside_liftM _).bind fun symbol => ?_
    split
    · exact staysInside_ofModel _
    · exact staysInside_throw _
  · refine (staysInside_liftM _).bind fun symbol => ?_
    split
    · exact staysInside_pure _
    · exact staysInside_throw _
  · exact (staysInside_readVocabulary s e).bind fun _ => staysInside_ofModel _
  · exact (staysInside_liftM _).bind fun _ => staysInside_ofModel _
  · exact (staysInside_liftM _).bind fun _ => staysInside_ofModel _

theorem staysInside_readOwnType (s : Scope) (codec : FieldCodec) (e : Element) (f : Field)
    (name : String) : StaysInside e (readOwnType s codec e.children f name) := by
  cases h : (ownElements codec e.children).find? (·.localName == name) with
  | none =>
    rw [readOwnType_of_none h]
    exact staysInside_pure f
  | some c =>
    have hc : c ∈ e.children := List.mem_of_mem_filter (List.mem_of_find?_eq_some h)
    rw [readOwnType_of_some h]
    exact ((staysInside_liftM _).bind fun _ => staysInside_ofModel _).within (encloses_of_mem hc)

mutual

/-- The elements that are entered for a field are inside its element. -/
theorem staysInside_readField (s : Scope) (codec : FieldCodec) (e : Element) :
    StaysInside e (readField s codec e) := by
  match e with
  | ⟨tag, attributes, children, text, line, namespaces⟩ =>
    rw [readField_eq]
    exact staysInside_takeNumber.bind fun _ =>
      (staysInside_readAttributes s codec _ children fun _ hc => hc).bind fun _ =>
        (staysInside_foldlM (fun name _ f => staysInside_readOwnType s codec _ f name) _).bind
          fun _ => staysInside_ofModel _

theorem staysInside_readAttributes (s : Scope) (codec : FieldCodec) (f : Field)
    (es : List Element) {root : Element} (hes : ∀ e ∈ es, e ∈ root.children) :
    StaysInside root (readAttributes s codec f es) := by
  match es with
  | [] =>
    rw [readAttributes]
    exact staysInside_pure f
  | e :: es =>
    obtain ⟨he, hes⟩ := List.forall_mem_cons.1 hes
    rw [readAttributes]
    split
    · exact staysInside_readAttributes s codec f es hes
    · split
      · exact staysInside_readAttributes s codec f es hes
      · refine StaysInside.bind (StaysInside.within ?_ (encloses_of_mem he)) fun f =>
          staysInside_readAttributes s codec f es hes
        split
        · exact (staysInside_liftM _).bind fun codec => (staysInside_readField s codec e).bind
            fun _ => staysInside_ofModel _
        · exact staysInside_readAttribute s f _ e

end

theorem staysInside_readNamedField (s : Scope) (orders : NameMap Nat) (e : Element) :
    StaysInside e (readNamedField s orders e) := by
  unfold readNamedField
  refine (staysInside_liftM _).bind fun name => (staysInside_liftM _).bind fun type => ?_
  split
  · exact staysInside_throw _
  · exact (staysInside_readField s _ e).bind fun _ => staysInside_pure _

/-! ## Schemas -/

theorem staysInside_takeField (s : Scope) (orders : NameMap Nat)
    (grow : List Fieldset → String → List Fieldset) (parts : SchemaParts) {e c : Element}
    (hc : e.Encloses c) : StaysInside e (takeField s orders grow parts c) :=
  ((staysInside_readNamedField s orders c).bind fun _ => staysInside_pure _).within hc

theorem staysInside_readFieldset (s : Scope) (schemaName : String) (orders : NameMap Nat)
    (parts : SchemaParts) (e : Element) :
    StaysInside e (readFieldset s schemaName orders parts e) := by
  unfold readFieldset
  split
  · exact staysInside_throw _
  · rename_i set _
    have hmembers (parts : SchemaParts) : StaysInside e ((e.modelChildren "field").foldlM
        (takeField s orders fun sets name =>
          Schema.mergeFieldset { name := set, fields := [name] } sets) parts) :=
      staysInside_foldlM (fun c hc parts => staysInside_takeField s orders _ parts
        (encloses_of_mem (List.mem_of_mem_filter hc))) parts
    dsimp only
    split
    · exact (staysInside_pure parts).bind hmembers
    · exact (staysInside_liftM _).bind fun _ => (staysInside_pure _).bind hmembers

theorem staysInside_readPart (s : Scope) (schemaName : String) (orders : NameMap Nat)
    (parts : SchemaParts) {e c : Element} (hc : e.Encloses c) :
    StaysInside e (readPart s schemaName orders parts c) := by
  unfold readPart
  split
  · exact staysInside_pure parts
  · refine StaysInside.within ?_ hc
    split
    · exact (staysInside_readNamedField s orders c).bind fun _ => staysInside_pure _
    · exact staysInside_readFieldset s schemaName orders parts c
    · exact (staysInside_liftM _).bind fun _ => staysInside_pure _
    · exact staysInside_pure parts

/-- The elements that are kept for handlers are those of fields. -/
theorem PartsRead.element {s : Scope} {orders : NameMap Nat} {first : Nat} {es : List Element}
    {parts parts' : SchemaParts} (h : PartsRead s orders first parts es parts')
    (hempty : parts.elements = ∅) {name : String} {e : Element}
    (he : parts'.elements.get? name = some e) : e ∈ es := by
  induction h with
  | refl =>
    rw [hempty] at he
    cases he
  | @tail es ds before after _ hstep ih =>
    have hadd {d : Element} {n : String} (hds : ds = [d])
        (hafter : after.elements = before.elements.insert n d) : e ∈ es ++ ds := by
      rw [hafter, NameMap.get?_insert] at he
      split at he
      · rw [hds, Option.some.inj he]
        exact List.mem_append_right _ (.head _)
      · exact List.mem_append_left _ (ih he)
    cases hstep with
    | field | member => exact hadd rfl rfl
    | fieldset | invariant => exact List.mem_append_left _ (ih he)

/-- The elements that are entered for a schema are inside its element, also those that handlers
get. -/
theorem staysInside_readSchema (c : Context) (s : Scope) (policy : Policy) (root e : Element) :
    StaysInside e (readSchema c s policy root e) := by
  have handlers (label : String) (schema : Schema) : StaysInside e (do
      let schema ← c.schemaHandlers.foldlM (fun schema h => Reading.ofExcept (h.read e schema)) schema
      return (label, schema) : Reading (String × Schema)) :=
    (staysInside_foldlM (fun _ _ _ => staysInside_ofExcept _) schema).bind fun _ =>
      staysInside_pure _
  unfold readSchema
  refine (staysInside_mapM fun _ _ => staysInside_ofExcept _).bind fun bases => ?_
  refine (staysInside_foldlM (fun d hd parts => staysInside_readPart s _ _ parts
    (encloses_of_mem hd)) _).bind_of_yields fun m n parts hparts => ?_
  dsimp only
  split
  · exact (staysInside_pure _).bind (handlers _)
  · refine (staysInside_foldlM (fun name _ schema => ?_) _).bind (handlers _)
    unfold handleField
    split
    · exact staysInside_pure schema
    · rename_i d hd
      have hfields := partsRead_of_parts (Nat.le_refl m) hparts
      exact (staysInside_foldlM (fun _ _ _ => staysInside_ofExcept _) schema).within
        (encloses_of_mem_fieldElements (hfields.element rfl hd))

/-! ## Documents -/

theorem inside_of_isChain {e : Element} {chain : List Element}
    (h : (e :: chain).IsChain Encloses) : ∀ x ∈ chain, e.Inside x := by
  induction chain generalizing e with
  | nil => exact List.forall_mem_nil _
  | cons c chain ih =>
    obtain ⟨⟨d, hd, hdc⟩, hchain⟩ := List.isChain_cons_cons.1 h
    have hc : e.Inside c := (Element.Inside.child .self hd).trans hdc
    exact List.forall_mem_cons.2 ⟨hc, fun x hx => hc.trans (ih hchain x hx)⟩

/-- The elements that have been entered and not left when a document could not be read: none if the
policy is unknown or the document is not one of elements, and else the root and elements that lead
down from it. -/
inductive Entered (c : Context) (policy document : String) (fault : Fault) : List Element → Prop
  /-- The policy is unknown. -/
  | policy (unknown : c.policy policy = .error fault) : Entered c policy document fault []
  /-- The document has no tree. -/
  | markup {cause : Markup.DocumentError} (malformed : Element.read document = .error cause)
    (same : fault = .markup cause) : Entered c policy document fault []
  /-- The tree is no model. -/
  | root {root : Element} {chain : List Element} (read : Element.read document = .ok root)
    (down : (root :: chain).IsChain Encloses) : Entered c policy document fault (root :: chain)

theorem staysInside_root (c : Context) (policy : Policy) (root : Element) :
    StaysInside root (do
      if !root.isModelElement || root.localName != "model" then
        throw (.wrongRoot root.localName)
      let s := c.scope (root.get? domainAttribute)
      (root.modelChildren "schema").foldlM (fun model e => Reading.within e.line do
        let (name, schema) ← readSchema c s policy root e
        return model.insert name schema) Model.empty : Reading Model) := by
  split
  · exact staysInside_throw _
  · exact staysInside_foldlM (fun e he _ => StaysInside.within
      ((staysInside_readSchema c _ policy root e).bind fun _ => staysInside_pure _)
      (encloses_of_mem (List.mem_of_mem_filter he))) _

/-- After a fault the lines are those of the elements that have been entered and not left. -/
theorem entered_of_readModel {c : Context} {policy document : String} {fault : Fault}
    {n : Nat} {q : Progress}
    (h : (readModel c policy document).start { nextNumber := n } = (.error fault, q)) :
    ∃ stack, Entered c policy document fault stack ∧ q.lines = (stack.map (·.line)).reverse := by
  unfold readModel at h
  cases hpolicy : c.policy policy with
  | error unknown =>
    rw [hpolicy] at h
    cases h
    exact ⟨[], .policy hpolicy, rfl⟩
  | ok p =>
    cases hread : Element.read document with
    | error cause =>
      rw [hpolicy, hread] at h
      cases h
      exact ⟨[], .markup hread rfl, rfl⟩
    | ok root =>
      rw [hpolicy, hread] at h
      replace h : (readRoot c p root).start { nextNumber := n } = (.error fault, q) := h
      rw [readRoot, start_within] at h
      rcases staysInside_root c p root ⟨n, [root.line]⟩ with ⟨m, q', hstart, -⟩ |
        ⟨fault', q', chain, hstart, hchain, hlines⟩
      · rw [hstart] at h
        cases h
      · rw [hstart] at h
        cases h
        refine ⟨root :: chain, .root hread hchain, ?_⟩
        rw [hlines, List.map_cons, List.reverse_cons]

/-- The innermost line is that of the element that was entered last. -/
theorem Entered.line {c : Context} {policy document : String} {fault : Fault}
    {stack : List Element} (h : Entered c policy document fault stack) {q : Progress}
    (hlines : q.lines = (stack.map (·.line)).reverse) :
    q.line? = stack.getLast?.bind (·.line) := by
  rw [Progress.line?, hlines]
  cases h with
  | policy | markup => rfl
  | @root root chain read down =>
    have hlined : ∀ x ∈ root :: chain, x.line ≠ none := List.forall_mem_cons.2
      ⟨Element.lined_of_read read root .self, fun x hx =>
        Element.lined_of_read read x (inside_of_isChain down x hx)⟩
    have hsplit := List.dropLast_append_getLast (List.cons_ne_nil root chain)
    generalize (root :: chain).getLast _ = last at hsplit
    rw [← hsplit] at hlined ⊢
    obtain ⟨k, hk⟩ := Option.ne_none_iff_exists'.1
      (hlined last (List.mem_append_right _ (.head _)))
    simp [hk]

/-- A diagnostic that shows a line of the document ends with it. -/
theorem message_locate {d : Diagnostic} (hd : d.place = none) {file : Option String}
    {line : Option Nat} {document text : String} {k : Nat}
    (hline : (d.cause.line?.orElse fun _ => line) = some k)
    (htext : Text.line? document k = some text) :
    (d.locate file line document).message = d.cause.message ++ ("\n  File \"" ++
      file.getD "<unknown>" ++ "\", line " ++ toString k ++ "\n    " ++ Text.trim text) := by
  obtain ⟨cause, place⟩ := d
  cases hd
  simp only [Diagnostic.locate, hline, Diagnostic.message, Option.bind_some, htext,
    Option.map_some, Option.getD_some, Place.text, Option.isSome_some, Bool.or_true, if_true]

/-- Diagnostics point at the element that was being read. Each reader leaves the lines as they were, or
after a fault has put those of elements before them that lead from its element down to the innermost
one that has been entered. So the diagnostic of a document has the fault as it was met and the file,
with the line that the fault names itself or else that of the innermost element, and ends with what
stands on that line. -/
theorem place_of_parse :
    (∀ (s : Scope) (codec : FieldCodec) (e : Element), StaysInside e (readField s codec e)) ∧
    (∀ (s : Scope) (e : Element), StaysInside e (readVocabulary s e)) ∧
    (∀ (s : Scope) (orders : NameMap Nat) (e : Element),
      StaysInside e (readNamedField s orders e)) ∧
    (∀ (s : Scope) (schemaName : String) (orders : NameMap Nat) (parts : SchemaParts) (e : Element),
      StaysInside e (readFieldset s schemaName orders parts e)) ∧
    (∀ (c : Context) (s : Scope) (policy : Policy) (root e : Element),
      StaysInside e (readSchema c s policy root e)) ∧
    ∀ (c : Context) (file : Option String) (policy document : String) (first n : Nat)
      (d : Diagnostic), c.parse file policy document first = (.error d, n) →
      ∃ fault q stack place,
        (readModel c policy document).start { nextNumber := first } = (.error fault, q) ∧
        Entered c policy document fault stack ∧ q.lines = (stack.map (·.line)).reverse ∧
        d = ⟨fault, some place⟩ ∧ place.file = file ∧
        place.line = fault.line?.or (stack.getLast?.bind (·.line)) ∧
        ∀ k text, place.line = some k → Text.line? document k = some text →
          d.message = fault.message ++ ("\n  File \"" ++ file.getD "<unknown>" ++ "\", line " ++
            toString k ++ "\n    " ++ Text.trim text) := by
  refine ⟨staysInside_readField, staysInside_readVocabulary, staysInside_readNamedField,
    staysInside_readFieldset, staysInside_readSchema, ?_⟩
  intro c file policy document first n d h
  unfold Context.parse at h
  cases hrun : (readModel c policy document).start { nextNumber := first } with
  | mk result q =>
    rw [hrun] at h
    cases result with
    | ok m => cases h
    | error fault =>
      cases h
      obtain ⟨stack, hentered, hlines⟩ := entered_of_readModel hrun
      refine ⟨fault, q, stack, _, rfl, hentered, hlines, rfl, rfl, ?_, fun k text hk htext => ?_⟩
      · rw [← hentered.line hlines]
        cases fault.line? <;> rfl
      · exact message_locate rfl hk htext

/-- A document with a field that has no type, on its third line. -/
def untypedDocument : String :=
  "<model><schema>\n<fieldset name=\"g\">\n  <field name=\"f\"/>\n</fieldset></schema></model>"

/-- The diagnostic of the field without a type shows its line. -/
theorem place_of_parse_untyped :
    ∃ d n fault place, Context.parse {} (some "m.xml") "" untypedDocument 1 = (.error d, n) ∧
      d = ⟨fault, some place⟩ ∧ place.file = some "m.xml" ∧ place.line = some 3 ∧
      d.message = fault.message ++
        "\n  File \"m.xml\", line 3\n    <field name=\"f\"/>" := by
  have hline : (match (Context.parse {} (some "m.xml") "" untypedDocument 1).1 with
      | .ok _ => none
      | .error d => d.line?) = some 3 := by decide +kernel
  have htext : Text.line? untypedDocument 3 = some "  <field name=\"f\"/>" := by decide +kernel
  have hshown : "\n  File \"" ++ (some "m.xml").getD "<unknown>" ++ "\", line " ++ toString 3 ++
      "\n    " ++ Text.trim "  <field name=\"f\"/>" =
        "\n  File \"m.xml\", line 3\n    <field name=\"f\"/>" := by decide +kernel
  cases h : Context.parse {} (some "m.xml") "" untypedDocument 1 with
  | mk result n =>
    rw [h] at hline
    cases result with
    | ok m => cases hline
    | error d =>
      obtain ⟨fault, q, stack, place, -, -, -, rfl, hfile, -, hmessage⟩ :=
        place_of_parse.2.2.2.2.2 _ _ _ _ _ _ _ h
      refine ⟨_, n, fault, place, rfl, rfl, hfile, hline, ?_⟩
      rw [hmessage 3 _ hline htext, hshown]

end ContentSchema.Document
