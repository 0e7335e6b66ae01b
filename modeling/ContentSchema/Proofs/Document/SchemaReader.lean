import ContentSchema.Proofs.Document.FieldReader
import ContentSchema.Proofs.Document.Numbering
import ContentSchema.Proofs.Document.Schema

/-!
# What is read of a schema

The elements inside the element of a schema are taken up in steps of four kinds (`PartStep`): a field,
an empty fieldset, a field inside a fieldset, and an invariant. What each step keeps holds of all
parts (`PartsRead`), and a schema is made of such parts before the handlers get it
(`exists_parts_of_yields`).

Results: each field was read under its name, from one of the elements of fields inside
(`PartsRead.field`), and each of these elements has a name under which there is a field
(`PartsRead.exists_field`).
-/
namespace ContentSchema.Document

open FieldCodec (standard)
open Markup (Element)
open Reading (grows_mapM grows_ofExcept)

/-- The elements of fields that a part of a schema has: the part itself, or those of a fieldset. -/
def fieldsAt (e : Element) : List Element :=
  if !e.isModelElement then []
  else match e.localName with
    | "field" => [e]
    | "fieldset" => e.modelChildren "field"
    | _ => []

/-- The elements of fields that the element of a schema has, in document order. -/
def fieldElements (e : Element) : List Element := e.children.flatMap fieldsAt

theorem mem_fieldsAt {e d : Element} : d ∈ fieldsAt e ↔ e.isModelElement = true ∧
    (e.localName = "field" ∧ d = e ∨ e.localName = "fieldset" ∧ d ∈ e.modelChildren "field") := by
  unfold fieldsAt
  cases e.isModelElement with
  | false => simp
  | true =>
    rw [Bool.not_true, if_neg Bool.false_ne_true]
    split
    · rename_i hname
      simp [hname]
    · rename_i hname
      simp [hname]
    · rename_i hfield hset
      exact iff_of_false List.not_mem_nil fun h => h.2.elim (fun h => hfield h.1) fun h => hset h.1

theorem encloses_of_mem_fieldElements {e d : Element} (h : d ∈ fieldElements e) :
    e.Encloses d := by
  obtain ⟨c, hc, hd⟩ := List.mem_flatMap.1 h
  rcases (mem_fieldsAt.1 hd).2 with ⟨-, rfl⟩ | ⟨-, hd⟩
  · exact Element.encloses_of_mem hc
  · exact ⟨c, hc, .child .self (List.mem_of_mem_filter hd)⟩

/-- Whether the element of a field was read as the field `f` under a name, with a number from `first`
on. -/
structure NamedField (s : Scope) (orders : NameMap Nat) (first : Nat) (e : Element) (name : String)
    (f : Field) : Prop where
  /-- The element has the name. -/
  named : e.get? "name" = some name
  /-- The element is read by its type, and a base may have a place for the field. -/
  read : ∃ type codec m n g, first ≤ m ∧ e.get? "type" = some type ∧
    s.registry.get? type = some codec ∧ (readField s codec e).Yields m n g ∧
    f = { g with order := (orders.get? name).getD g.order }

/-- With the standard types the type is one of these. -/
theorem NamedField.read_standard {s : Scope} {orders : NameMap Nat} {first : Nat} {e : Element}
    {name : String} {f : Field} (hr : s.registry = Registry.standard)
    (h : NamedField s orders first e name f) :
    ∃ t m n g, first ≤ m ∧ (readField s (standard t) e).Yields m n g ∧
      f = { g with order := (orders.get? name).getD g.order } := by
  obtain ⟨type, codec, m, n, g, hm, -, hcodec, hread, heq⟩ := h.read
  rw [hr] at hcodec
  obtain ⟨t, rfl, rfl⟩ := Registry.of_get?_standard hcodec
  exact ⟨t, m, n, g, hm, hread, heq⟩

theorem requireAttribute_ok {e : Element} {name v : String}
    (h : requireAttribute e name = .ok v) : e.get? name = some v := by
  unfold requireAttribute at h
  split at h
  · rename_i found
    rw [found, Except.ok.inj h]
  · cases h

theorem namedField_of_yields {s : Scope} {orders : NameMap Nat} {e : Element} {name : String}
    {f : Field} {first m n : Nat} (hm : first ≤ m)
    (h : (readNamedField s orders e).Yields m n (name, f)) : NamedField s orders first e name f := by
  unfold readNamedField at h
  obtain ⟨_, name', hname, h⟩ := h.bind
  obtain ⟨_, type, htype, h⟩ := h.bind
  split at h
  · exact absurd h Reading.not_yields_throw
  · rename_i codec hcodec
    obtain ⟨_, g, hread, h⟩ := h.bind
    obtain ⟨-, heq⟩ := Reading.yields_pure h
    obtain ⟨rfl, rfl⟩ := Prod.mk.inj heq
    obtain ⟨rfl, hnamed⟩ := Reading.yields_liftM hname
    obtain ⟨rfl, htyped⟩ := Reading.yields_liftM htype
    exact ⟨requireAttribute_ok hnamed, type, codec, _, _, g, hm, requireAttribute_ok htyped, hcodec,
      hread, rfl⟩

theorem resolveSchema_ok {resolve : Resolver} {identifier : String} {b : Schema}
    (h : resolveSchema resolve identifier = .ok b) : resolve identifier = some (.schema b) := by
  obtain ⟨symbol, hsymbol, h⟩ := exists_of_bind h
  cases symbol <;> cases h
  exact resolveName_ok hsymbol

theorem resolveInvariant_ok {resolve : Resolver} {identifier : String} {i : Invariant}
    (h : resolveInvariant resolve identifier = .ok i) : resolve identifier = some (.invariant i) := by
  obtain ⟨symbol, hsymbol, h⟩ := exists_of_bind h
  cases symbol <;> cases h
  exact resolveName_ok hsymbol

/-! ## Steps -/

/-- What is done to the parts of a schema at a time, with numbers from `first` on, and the elements of
fields that this takes. -/
inductive PartStep (s : Scope) (orders : NameMap Nat) (first : Nat) (parts : SchemaParts) :
    List Element → SchemaParts → Prop
  /-- A field is taken up. -/
  | field {e : Element} {name : String} {f : Field} (read : NamedField s orders first e name f) :
    PartStep s orders first parts [e] (parts.addField name f e)
  /-- A fieldset is taken up that has no fields yet. -/
  | fieldset {set : Fieldset} (fresh : ∀ t ∈ parts.fieldsets, t.name ≠ set.name)
    (empty : set.fields = []) (labelled : set.label ≠ none) :
    PartStep s orders first parts [] { parts with fieldsets := parts.fieldsets ++ [set] }
  /-- A field is taken up that belongs to a fieldset. -/
  | member {e : Element} {name set : String} {f : Field}
    (read : NamedField s orders first e name f) :
    PartStep s orders first parts [e] { parts.addField name f e with
      fieldsets := Schema.mergeFieldset { name := set, fields := [name] } parts.fieldsets }
  /-- An invariant is taken up. -/
  | invariant {i : Invariant}
    (known : ∃ identifier, s.resolve identifier = some (.invariant i)) :
    PartStep s orders first parts [] { parts with invariants := parts.invariants ++ [i] }

/-- What can be made of the parts of a schema by one step after the other, which together take some
elements of fields. -/
inductive PartsRead (s : Scope) (orders : NameMap Nat) (first : Nat) (parts : SchemaParts) :
    List Element → SchemaParts → Prop
  /-- Nothing is done. -/
  | refl : PartsRead s orders first parts [] parts
  /-- A step more is done. -/
  | tail {es ds : List Element} {parts' parts'' : SchemaParts}
    (steps : PartsRead s orders first parts es parts')
    (step : PartStep s orders first parts' ds parts'') :
    PartsRead s orders first parts (es ++ ds) parts''

section Steps

variable {s : Scope} {orders : NameMap Nat} {es ds : List Element} {e : Element}
  {parts parts' parts'' : SchemaParts} {schemaName : String} {first m n : Nat}

theorem PartsRead.single (h : PartStep s orders first parts es parts') :
    PartsRead s orders first parts es parts' :=
  .tail .refl h

theorem PartsRead.trans (h : PartsRead s orders first parts es parts')
    (h' : PartsRead s orders first parts' ds parts'') :
    PartsRead s orders first parts (es ++ ds) parts'' := by
  induction h' with
  | refl => rwa [List.append_nil]
  | tail _ step ih =>
    rw [← List.append_assoc]
    exact ih.tail step

variable (hm : first ≤ m)

include hm

/-- The elements of the fields of a fieldset are taken up one by one. -/
theorem partsRead_of_members {set : String}
    (h : (es.foldlM (takeField s orders fun sets name =>
      Schema.mergeFieldset { name := set, fields := [name] } sets) parts).Yields m n parts') :
    PartsRead s orders first parts es parts' := by
  have hall := h.foldlM_before
    (P := fun before k more => first ≤ k ∧ PartsRead s orders first parts before more) ?_ [] ⟨hm, .refl⟩
  · exact hall.2
  intro before c _ more i j more' ⟨hi, hmore⟩ hstep
  refine ⟨Nat.le_trans hi (grows_takeField s orders _ more c i j more' hstep), ?_⟩
  obtain ⟨l, ⟨field, f⟩, hread, hdone⟩ := hstep.of_within.bind
  obtain ⟨-, rfl⟩ := Reading.yields_pure hdone
  exact hmore.tail (.member (namedField_of_yields hi hread))

/-- The element of a fieldset is taken up step by step. -/
theorem partsRead_of_fieldset (h : (readFieldset s schemaName orders parts e).Yields m n parts') :
    PartsRead s orders first parts (e.modelChildren "field") parts' := by
  unfold readFieldset at h
  split at h
  · exact absurd h Reading.not_yields_throw
  · rename_i set _
    dsimp only at h
    split at h
    · obtain ⟨_, start, hstart, hmembers⟩ := h.bind
      obtain ⟨rfl, rfl⟩ := Reading.yields_pure hstart
      exact partsRead_of_members hm hmembers
    · rename_i hnew
      obtain ⟨_, new, hnew', h⟩ := h.bind
      obtain ⟨_, start, hstart, hmembers⟩ := h.bind
      obtain ⟨rfl, hfresh⟩ := Reading.yields_liftM hnew'
      obtain ⟨rfl, rfl⟩ := Reading.yields_pure hstart
      have hstep : PartStep s orders first parts []
          { parts with fieldsets := parts.fieldsets ++ [new] } := by
        obtain ⟨order, -, hset⟩ := exists_of_bind hfresh
        cases hset
        refine .fieldset (fun t ht heq => hnew (List.any_eq_true.2 ⟨t, ht, ?_⟩)) rfl
          (Option.some_ne_none _)
        exact beq_iff_eq.2 heq
      exact PartsRead.trans (.single hstep) (partsRead_of_members hm hmembers)

/-- An element inside that of a schema is taken up step by step. -/
theorem partsRead_of_part (h : (readPart s schemaName orders parts e).Yields m n parts') :
    PartsRead s orders first parts (fieldsAt e) parts' := by
  unfold readPart at h
  unfold fieldsAt
  split at h
  · rename_i hmodel
    obtain ⟨-, rfl⟩ := Reading.yields_pure h
    rw [if_pos hmodel]
    exact .refl
  · rename_i hmodel
    have h := h.of_within
    rw [if_neg hmodel]
    split at h
    · rename_i hname
      obtain ⟨_, ⟨name, f⟩, hread, hdone⟩ := h.bind
      obtain ⟨-, rfl⟩ := Reading.yields_pure hdone
      rw [hname]
      exact .single (.field (namedField_of_yields hm hread))
    · rename_i hname
      rw [hname]
      exact partsRead_of_fieldset hm h
    · rename_i hname
      obtain ⟨_, i, hread, hdone⟩ := h.bind
      obtain ⟨-, rfl⟩ := Reading.yields_pure hdone
      rw [hname]
      exact .single (.invariant ⟨_, resolveInvariant_ok (Reading.yields_liftM hread).2⟩)
    · rename_i hfield hfieldset _
      obtain ⟨-, rfl⟩ := Reading.yields_pure h
      split
      · exact absurd (by assumption) hfield
      · exact absurd (by assumption) hfieldset
      · exact .refl

/-- Elements inside that of a schema are taken up one after the other. -/
theorem partsRead_of_parts (h : (es.foldlM (readPart s schemaName orders) parts).Yields m n parts') :
    PartsRead s orders first parts (es.flatMap fieldsAt) parts' := by
  have hread := h.foldlM_before
    (P := fun before k more =>
      first ≤ k ∧ PartsRead s orders first parts (before.flatMap fieldsAt) more)
    (fun before c _ more i j more' ⟨hi, hmore⟩ hstep => by
      rw [List.flatMap_append, List.flatMap_singleton]
      exact ⟨Nat.le_trans hi (grows_readPart s _ _ more c i j more' hstep),
        hmore.trans (partsRead_of_part hi hstep)⟩)
    [] ⟨hm, .refl⟩
  exact hread.2

end Steps

/-! ## Whole schemas -/

/-- What the handlers of a context can make of a schema one after the other. -/
def Handled (c : Context) : Schema → Schema → Prop :=
  Relation.ReflTransGen fun a b =>
    (∃ h ∈ c.fieldHandlers, ∃ e name, h.read e name a = .ok b) ∨
      ∃ h ∈ c.schemaHandlers, ∃ e, h.read e a = .ok b

theorem handled_of_field {c : Context} {elements : NameMap Element} {a b : Schema} {name : String}
    {m n : Nat} (h : (handleField c.fieldHandlers elements a name).Yields m n b) :
    Handled c a b := by
  unfold handleField at h
  split at h
  · obtain ⟨-, rfl⟩ := Reading.yields_pure h
    exact .refl
  · rename_i e _
    refine h.of_within.foldlM (P := fun _ b => Handled c a b) ?_ .refl
    intro handler hhandler b i j b' hb hstep
    exact hb.tail (.inl ⟨handler, hhandler, e, name, (Reading.yields_ofExcept hstep).2⟩)

/-- A schema that was read was made of parts, and then given to the handlers. -/
theorem exists_parts_of_yields {c : Context} {s : Scope} {policy : Policy} {root e : Element}
    {name : String} {schema : Schema} {m n : Nat}
    (h : (readSchema c s policy root e).Yields m n (name, schema)) :
    name = (e.get? "name").getD "" ∧ ∃ bases parts,
      List.Forall₂ (fun identifier b => s.resolve identifier = some (.schema b))
        (Text.words ((e.get? "based-on").getD "")) bases ∧
      PartsRead s (inheritedOrders bases) m {} (fieldElements e) parts ∧
      Handled c (parts.toSchema policy name root bases) schema := by
  unfold readSchema at h
  obtain ⟨_, bases, hbases, h⟩ := h.bind
  obtain ⟨_, parts, hparts, h⟩ := h.bind
  have hresolved := hbases.mapM.imp fun identifier b ⟨_, _, hb⟩ =>
    resolveSchema_ok (Reading.yields_ofExcept hb).2
  replace hparts : PartsRead s (inheritedOrders bases) m {} (fieldElements e) parts :=
    partsRead_of_parts (grows_mapM (fun _ _ => grows_ofExcept _) m _ _ hbases) hparts
  generalize hname : (e.get? "name").getD "" = label at h
  have hschemas {a : Schema} {k : Nat}
      (ha : Handled c (parts.toSchema policy label root bases) a)
      (hlast : (do
        let b ← c.schemaHandlers.foldlM (fun b h => Reading.ofExcept (h.read e b)) a
        return (label, b) : Reading (String × Schema)).Yields k n (name, schema)) :
      name = label ∧ Handled c (parts.toSchema policy label root bases) schema := by
    obtain ⟨_, b, hfold, hdone⟩ := hlast.bind
    obtain ⟨-, heq⟩ := Reading.yields_pure hdone
    obtain ⟨rfl, rfl⟩ := Prod.mk.inj heq
    refine ⟨rfl, hfold.foldlM (P := fun _ b => Handled c _ b) ?_ ha⟩
    intro handler hhandler b i j b' hb hstep
    exact hb.tail (.inr ⟨handler, hhandler, e, (Reading.yields_ofExcept hstep).2⟩)
  suffices hend : name = label ∧ Handled c (parts.toSchema policy label root bases) schema by
    obtain ⟨rfl, hhandled⟩ := hend
    exact ⟨rfl, bases, parts, hresolved, hparts, hhandled⟩
  dsimp only at h
  split at h
  · obtain ⟨_, a, hfields, hlast⟩ := h.bind
    obtain ⟨-, rfl⟩ := Reading.yields_pure hfields
    exact hschemas .refl hlast
  · obtain ⟨_, a, hfields, hlast⟩ := h.bind
    refine hschemas (hfields.foldlM (P := fun _ b => Handled c _ b) ?_ .refl) hlast
    exact fun field _ b i j b' hb hstep => hb.trans (handled_of_field hstep)

/-! ## What the steps keep -/

section Kept

variable {s : Scope} {orders : NameMap Nat} {first : Nat} {es : List Element}
  {parts parts' : SchemaParts} (h : PartsRead s orders first parts es parts')

include h

/-- A field was read under its name, from one of the elements. -/
theorem PartsRead.field (hempty : parts.fields = ∅) {name : String} {f : Field}
    (hf : parts'.fields.get? name = some f) : ∃ e ∈ es, NamedField s orders first e name f := by
  induction h generalizing name f with
  | refl =>
    rw [hempty] at hf
    cases hf
  | @tail es ds before _ _ hstep ih =>
    have hbefore {name : String} {f : Field} (hf : before.fields.get? name = some f) :
        ∃ e ∈ es ++ ds, NamedField s orders first e name f := by
      obtain ⟨e, he, hread⟩ := ih hf
      exact ⟨e, List.mem_append_left _ he, hread⟩
    have hadd {e : Element} {n : String} {g : Field} (hds : ds = [e])
        (read : NamedField s orders first e n g)
        (hf : (before.addField n g e).fields.get? name = some f) :
        ∃ e ∈ es ++ ds, NamedField s orders first e name f := by
      rw [SchemaParts.addField, NameMap.get?_insert] at hf
      split at hf
      · rename_i hn
        cases hf
        exact ⟨e, List.mem_append_right _ (hds ▸ .head _), hn ▸ read⟩
      · exact hbefore hf
    cases hstep with
    | field read => exact hadd rfl read hf
    | fieldset => exact hbefore hf
    | member read => exact hadd rfl read hf
    | invariant => exact hbefore hf

/-- Each of the elements has a name under which there is a field. -/
theorem PartsRead.exists_field {e : Element} (he : e ∈ es) :
    ∃ name f, e.get? "name" = some name ∧ parts'.fields.get? name = some f := by
  induction h with
  | refl => cases he
  | @tail es ds before after _ hstep ih =>
    have hadd {d : Element} {n : String} {g : Field} (hds : ds = [d])
        (read : NamedField s orders first d n g) (hafter : after.fields = before.fields.insert n g) :
        ∃ name f, e.get? "name" = some name ∧ after.fields.get? name = some f := by
      rw [hafter]
      rcases List.mem_append.1 he with he | he
      · obtain ⟨name, f, hname, hf⟩ := ih he
        rw [hname]
        by_cases hn : n = name
        · exact ⟨name, g, rfl, by rw [NameMap.get?_insert, if_pos hn]⟩
        · exact ⟨name, f, rfl, by rw [NameMap.get?_insert, if_neg hn, hf]⟩
      · rw [hds] at he
        cases List.mem_singleton.1 he
        exact ⟨n, g, read.named, by rw [NameMap.get?_insert, if_pos rfl]⟩
    cases hstep with
    | field read => exact hadd rfl read rfl
    | fieldset => exact ih (by rwa [List.append_nil] at he)
    | member read => exact hadd rfl read rfl
    | invariant => exact ih (by rwa [List.append_nil] at he)

end Kept

section Named

variable {s : Scope} {orders : NameMap Nat} {first : Nat} {e : Element} {name : String} {f : Field}
  (hr : s.registry = Registry.standard) (h : NamedField s orders first e name f)

include hr h

theorem NamedField.name_eq : f.name = name := by
  obtain ⟨t, m, n, g, -, hread, rfl⟩ := h.read_standard hr
  rw [(readFrom_of_yields hr hread).fixed.1, h.named]
  rfl

/-- A field is in the place that a base has for it, or else has a number from `first` on. -/
theorem NamedField.order_eq : ∃ m, first ≤ m ∧ f.order = (orders.get? name).getD m := by
  obtain ⟨t, m, n, g, hm, hread, rfl⟩ := h.read_standard hr
  obtain ⟨-, -, -, -, horder⟩ := (readFrom_of_yields hr hread).fixed
  exact ⟨m, hm, by rw [horder]⟩

end Named

/-! ## Documents -/

/-- A document that was read has a policy and a root. -/
theorem exists_root_of_parse {c : Context} {file : Option String} {policyName document : String}
    {first n : Nat} {m : Model} (h : c.parse file policyName document first = (.ok m, n)) :
    ∃ policy root, c.policy policyName = .ok policy ∧ Element.read document = .ok root ∧
      (readRoot c policy root).Yields first n m := by
  unfold Context.parse at h
  cases hrun : (readModel c policyName document).start { nextNumber := first } with
  | mk result progress =>
    rw [hrun] at h
    obtain ⟨hresult, hnext⟩ := Prod.mk.inj h
    cases result with
    | error fault => cases hresult
    | ok m' =>
      cases hresult
      cases hnext
      have hyields := Reading.yields_of_start hrun
      unfold readModel at hyields
      obtain ⟨_, policy, hfound, hyields⟩ := hyields.bind
      obtain ⟨rfl, hpolicy⟩ := Reading.yields_liftM hfound
      obtain ⟨_, root, hroot, hyields⟩ := hyields.bind
      obtain ⟨rfl, hmapped⟩ := Reading.yields_ofExcept hroot
      exact ⟨policy, root, hpolicy, of_mapError hmapped, hyields⟩

/-- The schemas of a root are read one by one, and each is inserted under its name. -/
theorem Reading.Yields.schemas {c : Context} {policy : Policy} {root : Element} {m : Model}
    {first n : Nat} (h : (readRoot c policy root).Yields first n m) :
    ((root.modelChildren "schema").foldlM (fun model e => Reading.within e.line do
      let (name, schema) ← readSchema c (c.scope (root.get? domainAttribute)) policy root e
      return model.insert name schema) Model.empty).Yields first n m := by
  unfold readRoot at h
  replace h := h.of_within
  dsimp only at h
  split at h
  · obtain ⟨_, _, hthrow, -⟩ := h.bind
    exact absurd hthrow Reading.not_yields_throw
  · exact h

theorem Model.mem_insert {m : Model} {name : String} {s : Schema} {entry : String × Schema}
    (h : entry ∈ (m.insert name s).entries) : entry = (name, s) ∨ entry ∈ m.entries := by
  have hentries {es : List (String × Schema)} (h : entry ∈ Model.insertEntry name s es) :
      entry = (name, s) ∨ entry ∈ es := by
    induction es with
    | nil => exact .inl (List.mem_singleton.1 h)
    | cons e es ih =>
      unfold Model.insertEntry at h
      split at h
      · exact (List.mem_cons.1 h).imp id (.tail _)
      · rcases List.mem_cons.1 h with rfl | h
        · exact .inr (.head _)
        · exact (ih h).imp id (.tail _)
  exact hentries h

/-- Each schema of a model that was read was read from an element of the document, with numbers from
the first one on. -/
theorem exists_readSchema_of_parse {c : Context} {file : Option String} {policyName document : String}
    {first n : Nat} {m : Model} (h : c.parse file policyName document first = (.ok m, n)) :
    ∃ policy root, c.policy policyName = .ok policy ∧ Element.read document = .ok root ∧
      ∀ entry ∈ m.entries, ∃ e, root.Inside e ∧ ∃ k l, first ≤ k ∧
        (readSchema c (c.scope (root.get? domainAttribute)) policy root e).Yields k l entry := by
  obtain ⟨policy, root, hpolicy, hread, hyields⟩ := exists_root_of_parse h
  refine ⟨policy, root, hpolicy, hread, ?_⟩
  let s := c.scope (root.get? domainAttribute)
  have hall := hyields.schemas.foldlM (P := fun i model => first ≤ i ∧ ∀ entry ∈ model.entries,
    ∃ e, root.Inside e ∧ ∃ k l, first ≤ k ∧ (readSchema c s policy root e).Yields k l entry)
    ?_ ⟨Nat.le_refl _, nofun⟩
  · exact hall.2
  intro e he model k model' l ⟨hk, hmodel⟩ hstep
  obtain ⟨_, ⟨name, schema⟩, hschema, hlast⟩ := hstep.of_within.bind
  obtain ⟨rfl, rfl⟩ := Reading.yields_pure hlast
  refine ⟨Nat.le_trans hk (grows_readSchema c s policy root e k _ _ hschema), ?_⟩
  intro entry hentry
  rcases Model.mem_insert hentry with rfl | hentry
  · exact ⟨e, .child .self (List.mem_of_mem_filter he), k, _, hk, hschema⟩
  · exact hmodel entry hentry

end ContentSchema.Document
