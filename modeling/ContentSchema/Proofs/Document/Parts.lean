import ContentSchema.Document.ModelReader
import ContentSchema.Document.ModelWriter
import ContentSchema.Proofs.Document.Domain
import ContentSchema.Proofs.Document.FieldWriter
import ContentSchema.Proofs.Schema.Places
import Mathlib.Data.List.Induction

/-!
# Fields of schema elements

The fields inside a schema element are read one after the other, each with a greater number than
those before it, unless a base has a place for it (`exists_takeFields`). Fields that were written in an
order stand in it again if the places of the bases allow it (`TakesFields.precedes`). Of several fields
with a name the last one counts (`get?_insertFields`).
-/
namespace ContentSchema.Document

open FieldCodec (standard)
open Markup (Element)

variable {resolve : Resolver} {domains : Set String}

/-- Whether a field is what reading gives for another one. -/
structure Rereads (f g : Field) : Prop where
  /-- The names are the same. -/
  name : g.name = f.name
  /-- Apart from its schema, it is what should be read. -/
  bare : g.bare = f.reread

theorem Rereads.kept {f g : Field} (h : Rereads f g) : g.kept = f.reread := by
  rw [← Field.kept_bare, h.bare, Field.kept_reread]

/-- Whether an element is that of a field in a schema. -/
structure IsFieldElement (resolve : Resolver) (domains : Set String) (f : Field) (e : Element) :
    Prop where
  /-- The tag. -/
  tag : e.tag = "field"
  /-- The element stands for the field under its name. -/
  stands : StandsFor resolve domains f (some f.name) e

/-! ## One field -/

section Field

variable {f : Field} {e e' : Element} {s : Scope} {orders : NameMap Nat}

/-- The element of a field is read with the next number, unless a base has a place for it. -/
theorem exists_readNamedField (hs : s.resolve = resolve) (hr : s.registry = Registry.standard)
    (h : IsFieldElement resolve domains f e)
    (attributes : ∀ name, name ≠ domainAttribute → e'.get? name = e.get? name)
    (content : SameContent s.domain e e') (m : Nat) :
    ∃ n g, m < n ∧ (readNamedField s orders e').Succeeds m n (f.name, g) ∧ Rereads f g ∧
      g.order = (orders.get? f.name).getD m := by
  obtain ⟨-, hname, htype, -, hread⟩ := h
  have hname' : e'.get? "name" = some f.name := (attributes _ (by decide)).trans hname
  have htype' : e'.get? "type" = some f.type.identifier := (attributes _ (by decide)).trans htype
  obtain ⟨n, g, hmn, hreads, hgname, horder, hbare⟩ :=
    hread m hs hr (attributes _ (by decide)) content
  refine ⟨n, { g with order := (orders.get? f.name).getD g.order }, hmn, ?_, ⟨hgname, ?_⟩,
    by rw [horder]⟩
  have hrequire : requireAttribute e' "name" = .ok f.name := by rw [requireAttribute, hname']
  have hrequire' : requireAttribute e' "type" = .ok f.type.identifier := by
    rw [requireAttribute, htype']
  · unfold readNamedField
    refine (Reading.succeeds_liftM hrequire m).bind ((Reading.succeeds_liftM hrequire' m).bind ?_)
    rw [hr, Registry.get?_standard]
    exact hreads.bind (Reading.succeeds_pure _ n)
  · rw [← hbare, Field.bare_eq, Field.bare_eq g]
    rfl

/-! ## Runs of fields -/

/-- Takes up the field of an element, which also does something to the fieldsets. -/
def takeField (s : Scope) (orders : NameMap Nat)
    (grow : List Fieldset → String → List Fieldset) (parts : SchemaParts) (e : Element) :
    Reading SchemaParts :=
  Reading.within e.line do
    let (name, f) ← readNamedField s orders e
    let parts := parts.addField name f e
    return { parts with fieldsets := grow parts.fieldsets name }

/-- Puts fields into a map under their names, one after the other. -/
def insertFields (fields : NameMap Field) (gs : List Field) : NameMap Field :=
  gs.foldl (fun fields g => fields.insert g.name g) fields

/-- What the parts of a schema are after fields `gs` are taken up, which were read for `fs` with the
numbers from `m` up to `n`, and with the places `orders` that bases have. -/
structure TakesFields (orders : NameMap Nat) (parts : SchemaParts) (m n : Nat) (fs : List Field)
    (parts' : SchemaParts) (gs : List Field) : Prop where
  /-- Each field is read again. -/
  rereads : List.Forall₂ Rereads fs gs
  /-- The numbers grow. -/
  sorted : gs.Pairwise fun g h =>
    orders.get? g.name = none → orders.get? h.name = none → g.order < h.order
  /-- The numbers begin with `m`, and end before `n`. -/
  numbers : ∀ g ∈ gs, orders.get? g.name = none → m ≤ g.order ∧ g.order < n
  /-- Where a base has a place, the field is in it. -/
  inherited : ∀ g ∈ gs, ∀ place, orders.get? g.name = some place → g.order = place
  /-- The fields are put into the map. -/
  fields : parts'.fields = insertFields parts.fields gs
  /-- The invariants stay. -/
  invariants : parts'.invariants = parts.invariants

section Takes

variable {orders : NameMap Nat} {parts parts' parts'' : SchemaParts} {m k n : Nat}
  {fs fs' gs gs' : List Field}

theorem takesFields_nil (orders : NameMap Nat) (parts : SchemaParts) (m : Nat) :
    TakesFields orders parts m m [] parts [] :=
  ⟨.nil, .nil, nofun, nofun, rfl, rfl⟩

/-- Further fields are taken up with greater numbers. -/
theorem TakesFields.append (hmk : m ≤ k) (hkn : k ≤ n) (h : TakesFields orders parts m k fs parts' gs)
    (h' : TakesFields orders parts' k n fs' parts'' gs') :
    TakesFields orders parts m n (fs ++ fs') parts'' (gs ++ gs') where
  rereads := List.rel_append h.rereads h'.rereads
  sorted := List.pairwise_append.2 ⟨h.sorted, h'.sorted, fun g hg g' hg' hnone hnone' =>
    Nat.lt_of_lt_of_le (h.numbers g hg hnone).2 (h'.numbers g' hg' hnone').1⟩
  numbers g hg hnone := (List.mem_append.1 hg).elim
    (fun hg => ⟨(h.numbers g hg hnone).1, Nat.lt_of_lt_of_le (h.numbers g hg hnone).2 hkn⟩)
    fun hg => ⟨Nat.le_trans hmk (h'.numbers g hg hnone).1, (h'.numbers g hg hnone).2⟩
  inherited g hg := (List.mem_append.1 hg).elim (h.inherited g) (h'.inherited g)
  fields := by rw [h'.fields, h.fields, insertFields, insertFields, insertFields, List.foldl_append]
  invariants := h'.invariants.trans h.invariants

/-- The fieldsets do not count. -/
theorem TakesFields.of_fieldsets {sets : List Fieldset}
    (h : TakesFields orders { parts with fieldsets := sets } m n fs parts' gs) :
    TakesFields orders parts m n fs parts' gs :=
  ⟨h.rereads, h.sorted, h.numbers, h.inherited, h.fields, h.invariants⟩

/-- Whether a field with one name stands before a field with another one, once they are read in that
order with numbers from `first` on, and with the places that bases have. -/
def StaysBefore (orders : NameMap Nat) (first : Nat) (name name' : String) : Prop :=
  match orders.get? name, orders.get? name' with
  | some place, some place' => place < place' ∨ place = place' ∧ name < name'
  | some place, none => place < first
  | none, some _ => False
  | none, none => True

theorem StaysBefore.mono {first later : Nat} (hle : first ≤ later) {name name' : String}
    (h : StaysBefore orders first name name') : StaysBefore orders later name name' := by
  unfold StaysBefore at h ⊢
  split
  · rename_i hname hname'
    simpa only [hname, hname'] using h
  · rename_i hname hname'
    simp only [hname, hname'] at h
    exact Nat.lt_of_lt_of_le h hle
  · rename_i hname hname'
    simp only [hname, hname'] at h
  · trivial

/-- Fields that are read stand in the order in which they were written, if the places of the bases
allow it. -/
theorem TakesFields.precedes (h : TakesFields orders parts m n fs parts' gs)
    (hstays : (fs.map (·.name)).Pairwise (StaysBefore orders m)) : gs.Pairwise Field.Precedes := by
  have hnames : fs.map (·.name) = gs.map (·.name) :=
    map_eq_of_forall₂ (h.rereads.imp fun _ _ hfg => hfg.name.symm)
  rw [hnames] at hstays
  refine ((List.pairwise_map.1 hstays).and h.sorted).imp_of_mem fun {g g'} hg hg' ⟨hbefore, hlt⟩ => ?_
  unfold StaysBefore at hbefore
  split at hbefore
  · rename_i place place' hplace hplace'
    rw [Field.Precedes, h.inherited g hg place hplace, h.inherited g' hg' place' hplace']
    exact hbefore
  · rename_i place hplace hnone
    refine .inl ?_
    rw [h.inherited g hg place hplace]
    exact Nat.lt_of_lt_of_le hbefore (h.numbers g' hg' hnone).1
  · exact hbefore.elim
  · rename_i hnone hnone'
    exact .inl (hlt hnone hnone')

end Takes

/-- The elements of fields are read one by one. -/
theorem exists_takeFields (hs : s.resolve = resolve) (hr : s.registry = Registry.standard)
    (grow : List Fieldset → String → List Fieldset) {fs : List Field} {es es' : List Element}
    (hes : List.Forall₂ (IsFieldElement resolve domains) fs es)
    (same : SameElements s.domain es es') (parts : SchemaParts) (m : Nat) :
    ∃ n parts' gs, m ≤ n ∧ (es'.foldlM (takeField s orders grow) parts).Succeeds m n parts' ∧
      TakesFields orders parts m n fs parts' gs ∧
      parts'.fieldsets = (fs.map (·.name)).foldl grow parts.fieldsets := by
  induction hes generalizing es' parts m with
  | nil =>
    cases same
    exact ⟨m, parts, [], Nat.le_refl m, Reading.succeeds_pure parts m,
      takesFields_nil orders parts m, rfl⟩
  | @cons f e fs es he _ ih =>
    cases same with
    | @cons _ e' _ es' model localName attributes content rest =>
      obtain ⟨k, g, hmk, hread, hg, horder⟩ :=
        exists_readNamedField hs hr he attributes content m
      let next : SchemaParts := { parts.addField f.name g e' with
        fieldsets := grow parts.fieldsets f.name }
      have hnext : TakesFields orders parts m k [f] next [g] := by
        refine ⟨.cons hg .nil, List.pairwise_singleton _ _, fun h hh hnone => ?_,
          fun h hh place hplace => ?_, ?_, rfl⟩
        · cases List.mem_singleton.1 hh
          rw [hg.name] at hnone
          rw [horder, hnone]
          exact ⟨Nat.le_refl m, hmk⟩
        · cases List.mem_singleton.1 hh
          rw [hg.name] at hplace
          rw [horder, hplace]
          rfl
        · rw [insertFields, List.foldl_cons, List.foldl_nil, hg.name]
          rfl
      obtain ⟨n, parts', gs, hkn, hreads, hmore, hsets⟩ :=
        ih rest next k
      refine ⟨n, parts', g :: gs, by omega, ?_, hnext.append (Nat.le_of_lt hmk) hkn hmore, hsets⟩
      rw [List.foldlM_cons]
      refine Reading.Succeeds.bind (Reading.Succeeds.within e'.line ?_) hreads
      exact hread.bind (Reading.succeeds_pure _ k)

end Field

/-! ## Fields by name -/

/-- Of several fields with a name the last one counts. -/
theorem get?_insertFields (gs : List Field) (name : String) :
    (insertFields ∅ gs).get? name = gs.reverse.find? (·.name == name) := by
  induction gs using List.reverseRecOn with
  | nil => rfl
  | append_singleton gs g ih =>
    rw [insertFields, List.foldl_append, List.foldl_cons, List.foldl_nil, NameMap.get?_insert,
      List.reverse_append]
    by_cases hg : g.name = name
    · rw [if_pos hg, List.reverse_singleton, List.singleton_append,
        List.find?_cons_of_pos (by simpa using hg)]
    · rw [if_neg hg, List.reverse_singleton, List.singleton_append,
        List.find?_cons_of_neg (by simpa using hg)]
      exact ih

/-- Whatever is found is one of the fields, and has the name. -/
theorem mem_of_get?_insertFields {gs : List Field} {name : String} {g : Field}
    (h : (insertFields ∅ gs).get? name = some g) : g ∈ gs ∧ g.name = name := by
  rw [get?_insertFields] at h
  exact ⟨List.mem_reverse.1 (List.mem_of_find?_eq_some h), by simpa using List.find?_some h⟩

/-- A field is found if there is no other one with its name. -/
theorem get?_insertFields_of_mem {gs : List Field} {g : Field} (hg : g ∈ gs)
    (hu : ∀ g' ∈ gs, g'.name = g.name → g' = g) : (insertFields ∅ gs).get? g.name = some g := by
  cases h : (insertFields ∅ gs).get? g.name with
  | none =>
    rw [get?_insertFields, List.find?_eq_none] at h
    exact absurd (beq_iff_eq.2 rfl) (h g (List.mem_reverse.2 hg))
  | some g' =>
    obtain ⟨hmem, hname⟩ := mem_of_get?_insertFields h
    rw [hu g' hmem hname]

/-- Fields that were made for those of a map are found where those are. -/
theorem rel_insertFields {R : Field → Field → Prop} {fields : NameMap Field} {fs gs : List Field}
    (hR : List.Forall₂ R fs gs) (hname : ∀ f g, R f g → g.name = f.name)
    (hown : ∀ f ∈ fs, fields.get? f.name = some f)
    (hall : ∀ name f, fields.get? name = some f → f ∈ fs ∧ f.name = name) (name : String) :
    Option.Rel R (fields.get? name) ((insertFields ∅ gs).get? name) := by
  have hfound {g : Field} (h : (insertFields ∅ gs).get? name = some g) :
      ∃ f, fields.get? name = some f ∧ R f g := by
    obtain ⟨hg, rfl⟩ := mem_of_get?_insertFields h
    obtain ⟨f, hf, hfg⟩ := exists_of_forall₂_right hR hg
    exact ⟨f, by rw [hname f g hfg]; exact hown f hf, hfg⟩
  cases hget : (insertFields ∅ gs).get? name with
  | some g =>
    obtain ⟨f, hf, hfg⟩ := hfound hget
    rw [hf]
    exact .some hfg
  | none =>
    cases hf : fields.get? name with
    | none => exact .none
    | some f =>
      obtain ⟨hmem, rfl⟩ := hall name f hf
      obtain ⟨g, hg, hfg⟩ := exists_of_forall₂_right hR.flip hmem
      rw [get?_insertFields, List.find?_eq_none] at hget
      exact absurd (beq_iff_eq.2 (hname f g hfg)) (hget g (List.mem_reverse.2 hg))

end ContentSchema.Document
