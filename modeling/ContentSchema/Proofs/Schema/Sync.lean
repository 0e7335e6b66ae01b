import ContentSchema.Proofs.Schema.Hierarchy
import ContentSchema.Proofs.Schema.Override
import ContentSchema.Proofs.Schema.Places
import ContentSchema.Schema.Sync
import Mathlib

/-!
# Bringing schemas in line

What syncing leaves under each name, for fields (`Schema.get?_syncFields_true`,
`Schema.get?_syncFields_false`) and for tagged values (`Schema.get?_syncTags_true`,
`Schema.get?_syncTags_false`). Both are copied by adding entries to a map, all of them or the new
ones; a copied field belongs to the other schema, and is stored there under its own name.

Results.
* `Schema.sync_lossless`: syncing again changes nothing, nothing of a schema is lost that the rules
  do not give up, and fieldsets keep to the schema's own fields.
* `Schema.get?_sync_overwrite`: after overwriting, with the bases of the source, the other schema
  knows the fields of the source, except where it had a field of its own under a name that the
  source only inherits. Such a field is not stale, since the source knows its name, and is not
  replaced, since the source does not own it.
-/
namespace ContentSchema

namespace Field

/-- The field as one of a schema with an identifier. -/
def boundTo (f : Field) (identifier : String) : Field := { f with interface := some identifier }

/-- The field apart from the schema that it belongs to. -/
def unowned (f : Field) : Field := { f with interface := none }

end Field

namespace Schema

variable {source dest : Schema}

/-- Whether the fields of a schema stand under their own names. One that was given another name in
its place does not. -/
def StoresByName (s : Schema) : Prop := ∀ name f, s.fields.get? name = some f → f.name = name

/-! ## Fields -/

/-- The fields that the other schema keeps: with `overwrite` only those with names that the source
knows. -/
def keptFields (source dest : Schema) (overwrite : Bool) : NameMap Field :=
  let stale := if overwrite then dest.fields.keys.filter fun n => (source.get? n).isNone else []
  stale.foldl (fun fs n => fs.erase n) dest.fields

/-- The fields that are copied, each under its name. -/
def copies (source dest : Schema) : List (String × Field) :=
  source.fieldsInOrder.map fun f => (f.name, f.boundTo dest.identifier)

/-- Syncing fields touches nothing else. -/
theorem syncFields_eq (source dest : Schema) (overwrite : Bool) :
    source.syncFields dest overwrite = { dest with
      fields := (source.keptFields dest overwrite).addEntries overwrite (source.copies dest) } := by
  have hfold (fs : List Field) (kept : NameMap Field) :
      fs.foldl (fun d f => if overwrite || !d.fields.contains f.name then d.insertField f else d)
          { dest with fields := kept } =
        { dest with fields :=
            kept.addEntries overwrite (fs.map fun f => (f.name, f.boundTo dest.identifier)) } := by
    induction fs generalizing kept with
    | nil => rfl
    | cons f fs ih =>
      rw [NameMap.addEntries, List.map_cons, List.foldl_cons, List.foldl_cons]
      split
      · exact ih _
      · exact ih _
  exact hfold _ _

theorem get?_keptFields_true (name : String) :
    (source.keptFields dest true).get? name =
      if (source.get? name).isSome then dest.fields.get? name else none := by
  rw [keptFields, if_pos rfl, NameMap.get?_foldl_erase]
  cases hdest : dest.fields.get? name with
  | none => simp
  | some f =>
    have hkey : name ∈ dest.fields.keys :=
      List.mem_map.2 ⟨(name, f), (NameMap.mem_entries_iff _).2 hdest, rfl⟩
    cases hsource : source.get? name <;> simp [hkey, hsource]

theorem find?_copies (h : source.StoresByName) {fs : List Field}
    (hfs : ∀ f, f ∈ fs ↔ f ∈ source.fields.values) (identifier name : String) :
    ((fs.map fun f => (f.name, f.boundTo identifier)).find? (·.1 == name)).map (·.2) =
      (source.fields.get? name).map (·.boundTo identifier) := by
  have hentries (e : String × Field) : e ∈ fs.map (fun f => (f.name, f)) ↔ e ∈ source.fields.entries
  := by
    rw [List.mem_map]
    constructor
    · rintro ⟨f, hf, rfl⟩
      exact (NameMap.mem_entries_iff _).2 (get?_of_mem_values h ((hfs f).1 hf))
    · intro he
      have hname := h e.1 e.2 ((NameMap.mem_entries_iff _).1 he)
      exact ⟨e.2, (hfs e.2).2 (List.mem_map_of_mem he), Prod.ext hname rfl⟩
  rw [← NameMap.find?_of_mem_iff hentries, List.find?_map, List.find?_map, Option.map_map,
    Option.map_map, Option.map_map]
  rfl

theorem mem_fieldsInOrder {s : Schema} {f : Field} : f ∈ s.fieldsInOrder ↔ f ∈ s.fields.values :=
  List.mem_mergeSort

/-- With `overwrite`, fields of the source replace others. -/
theorem get?_syncFields_true (h : source.StoresByName) (name : String) :
    (source.syncFields dest true).fields.get? name =
      ((source.fields.get? name).map (·.boundTo dest.identifier)).or
        (if (source.get? name).isSome then dest.fields.get? name else none) := by
  rw [syncFields_eq, NameMap.get?_addEntries_true, get?_keptFields_true, copies, ← List.map_reverse,
    find?_copies h fun f => List.mem_reverse.trans mem_fieldsInOrder]

/-- Without `overwrite`, fields of the source are added where there are none. -/
theorem get?_syncFields_false (h : source.StoresByName) (name : String) :
    (source.syncFields dest false).fields.get? name =
      (dest.fields.get? name).or
        ((source.fields.get? name).map (·.boundTo dest.identifier)) := by
  rw [syncFields_eq, NameMap.get?_addEntries_false, copies,
    find?_copies h fun f => mem_fieldsInOrder]
  rfl

/-- Without `overwrite`, a schema keeps the fields that it has. -/
theorem get?_syncFields_of_some {name : String} {f : Field}
    (h : dest.fields.get? name = some f) :
    (source.syncFields dest false).fields.get? name = some f := by
  rw [syncFields_eq, NameMap.get?_addEntries_false]
  exact Option.or_of_isSome (by rw [keptFields]; simpa using Option.isSome_of_eq_some h) |>.trans h

/-! ## Tagged values -/

/-- With `overwrite`, tagged values of the source replace others. -/
theorem get?_syncTags_true (name : String) :
    (source.syncTags dest true).get? name = (source.tags.get? name).or (dest.tags.get? name) := by
  have hadd := NameMap.get?_addEntries_true source.tags.entries dest.tags name
  rwa [NameMap.find?_of_mem_iff fun e => List.mem_reverse] at hadd

/-- Without `overwrite`, tagged values of the source are added where there are none. -/
theorem get?_syncTags_false (name : String) :
    (source.syncTags dest false).get? name = (dest.tags.get? name).or (source.tags.get? name) := by
  have hadd := NameMap.get?_addEntries_false source.tags.entries dest.tags name
  rwa [NameMap.find?_of_mem_iff fun e => Iff.rfl] at hadd

/-! ## Syncing again -/

/-- Copies that are there are copied again without any change. -/
theorem fields_syncFields_again (overwrite : Bool) {synced : Schema}
    (hidentifier : synced.identifier = dest.identifier)
    (hfields : synced.fields = (source.syncFields dest overwrite).fields) :
    (source.syncFields synced overwrite).fields = synced.fields := by
  have hcopies : source.copies synced = source.copies dest := by rw [copies, copies, hidentifier]
  rw [syncFields_eq] at hfields ⊢
  refine NameMap.ext_get? fun name => ?_
  cases overwrite with
  | true =>
    rw [NameMap.get?_addEntries_true, get?_keptFields_true, hcopies, hfields,
      NameMap.get?_addEntries_true, get?_keptFields_true]
    split
    · rw [← Option.or_assoc, Option.or_self]
    · rfl
  | false =>
    have hkept : source.keptFields synced false = synced.fields := rfl
    rw [NameMap.get?_addEntries_false, hkept, hcopies, hfields, NameMap.get?_addEntries_false,
      Option.or_assoc, Option.or_self]

theorem syncTags_again (overwrite : Bool) {synced : Schema}
    (htags : synced.tags = source.syncTags dest overwrite) :
    source.syncTags synced overwrite = synced.tags := by
  refine NameMap.ext_get? fun name => ?_
  cases overwrite with
  | true => rw [get?_syncTags_true, htags, get?_syncTags_true, ← Option.or_assoc, Option.or_self]
  | false => rw [get?_syncTags_false, htags, get?_syncTags_false, Option.or_assoc, Option.or_self]

/-- Without `overwrite`, the bases of the other schema are added to those of the source. -/
theorem syncedBases_false (source dest : Schema) :
    source.syncedBases dest false = Linearization.appendNew key source.bases [dest.bases] := by
  have hseen (s t : Schema) : decide (s.key = t.key) = s.sameAs t :=
    (Bool.beq_eq_decide_eq _ _).symm
  simp only [syncedBases, Linearization.appendNew, List.flatten_singleton, Bool.false_eq_true,
    if_false, hseen]

theorem syncedBases_again (overwrite : Bool) {synced : Schema}
    (hbases : synced.bases = source.syncedBases dest overwrite) :
    source.syncedBases synced overwrite = synced.bases := by
  cases overwrite with
  | true => exact hbases.symm
  | false =>
    rw [syncedBases_false, hbases, syncedBases_false, Linearization.appendNew_appendNew]

theorem sync_eq (source dest : Schema) (overwrite bases : Bool) :
    source.sync dest overwrite bases = { dest with
      bases := if bases then source.syncedBases dest overwrite else dest.bases
      fields := (source.syncFields dest overwrite).fields
      tags := source.syncTags dest overwrite
      fieldsets := if overwrite || dest.fieldsets.isEmpty then source.fieldsets else dest.fieldsets
      invariants :=
        if overwrite || dest.invariants.isEmpty then source.invariants else dest.invariants } := by
  rw [sync, syncFields_eq]

/-- Syncing with the same source again changes nothing. -/
theorem sync_sync (source dest : Schema) (overwrite bases : Bool) :
    source.sync (source.sync dest overwrite bases) overwrite bases =
      source.sync dest overwrite bases := by
  have hsync := sync_eq source dest overwrite bases
  generalize hsynced : source.sync dest overwrite bases = synced at hsync
  have hidentifier : synced.identifier = dest.identifier := by rw [hsync]; rfl
  have hfields := fields_syncFields_again overwrite hidentifier (by rw [hsync])
  have htags : source.syncTags synced overwrite = synced.tags :=
    syncTags_again overwrite (by rw [hsync])
  have hbases : (if bases then source.syncedBases synced overwrite else synced.bases) =
      synced.bases := by
    cases bases with
    | true => exact syncedBases_again overwrite (by rw [hsync]; rfl)
    | false => rfl
  have hfieldsets : (if overwrite || synced.fieldsets.isEmpty then source.fieldsets
      else synced.fieldsets) = synced.fieldsets := by
    rw [hsync]
    cases overwrite <;> cases hempty : dest.fieldsets.isEmpty <;> simp [hempty]
  have hinvariants : (if overwrite || synced.invariants.isEmpty then source.invariants
      else synced.invariants) = synced.invariants := by
    rw [hsync]
    cases overwrite <;> cases hempty : dest.invariants.isEmpty <;> simp [hempty]
  rw [sync_eq, hfields, htags, hbases, hfieldsets, hinvariants]
  cases synced
  rfl

/-! ## What syncing loses -/

/-- Whether the fieldsets of a schema group only fields of its own. -/
def GroupsOwnFields (s : Schema) : Prop :=
  ∀ set ∈ s.fieldsets, ∀ name ∈ set.fields, s.fields.get? name ≠ none

/-- Fieldsets group own fields after syncing if they did so before. -/
theorem groupsOwnFields_sync (h : source.StoresByName) (hsource : source.GroupsOwnFields)
    (hdest : dest.GroupsOwnFields) (overwrite bases : Bool) :
    (source.sync dest overwrite bases).GroupsOwnFields := by
  intro set (hset : set ∈ if overwrite || dest.fieldsets.isEmpty then source.fieldsets
    else dest.fieldsets) name hname hnone
  cases overwrite with
  | true =>
    rw [sync_eq, get?_syncFields_true h, Option.or_eq_none_iff] at hnone
    exact hsource set hset name hname (by simpa using hnone.1)
  | false =>
    rw [sync_eq, get?_syncFields_false h, Option.or_eq_none_iff] at hnone
    rw [Bool.false_or] at hset
    split at hset
    · exact hsource set hset name hname (by simpa using hnone.2)
    · exact hdest set hset name hname hnone.1

/-- Syncing again changes nothing. Tagged values of the source are added where there are none, or
with `overwrite` replace others, and so are its fields, which belong to the other schema then.
Without `overwrite` that one keeps all its fields; with it only those with names that the source
does not own but inherits. Fieldsets of the own fields of the two schemas group own fields after it
as well. -/
theorem sync_lossless (source dest : Schema) (overwrite bases : Bool) :
    (source.sync (source.sync dest overwrite bases) overwrite bases =
      source.sync dest overwrite bases) ∧
    (∀ name, (source.sync dest overwrite bases).tags.get? name =
      if overwrite then (source.tags.get? name).or (dest.tags.get? name)
      else (dest.tags.get? name).or (source.tags.get? name)) ∧
    (overwrite = false → ∀ name f, dest.fields.get? name = some f →
      (source.sync dest overwrite bases).fields.get? name = some f) ∧
    (source.StoresByName →
      (∀ name, (source.sync dest overwrite bases).fields.get? name =
        let copied := (source.fields.get? name).map (·.boundTo dest.identifier)
        if overwrite then
          copied.or (if (source.get? name).isSome then dest.fields.get? name else none)
        else (dest.fields.get? name).or copied) ∧
      (source.GroupsOwnFields → dest.GroupsOwnFields →
        (source.sync dest overwrite bases).GroupsOwnFields)) := by
  refine ⟨sync_sync source dest overwrite bases, fun name => ?_, ?_, fun h => ⟨fun name => ?_, ?_⟩⟩
  · cases overwrite with
    | true => exact get?_syncTags_true name
    | false => exact get?_syncTags_false name
  · rintro rfl name f hf
    exact get?_syncFields_of_some hf
  · cases overwrite with
    | true => exact get?_syncFields_true h name
    | false => exact get?_syncFields_false h name
  · intro hsource hdest
    exact groupsOwnFields_sync h hsource hdest overwrite bases

/-! ## Schemas with fields -/

theorem StoresByName.insertField {s : Schema} (h : s.StoresByName) (f : Field) :
    (s.insertField f).StoresByName := by
  intro name g hg
  rw [Schema.insertField, NameMap.get?_insert] at hg
  split at hg
  · rename_i hname
    cases hg
    exact hname
  · exact h name g hg

/-- The schema with some fields added. -/
def withFields (s : Schema) (fs : List Field) : Schema := fs.foldl Schema.insertField s

theorem StoresByName.withFields {s : Schema} (h : s.StoresByName) (fs : List Field) :
    (s.withFields fs).StoresByName := by
  induction fs generalizing s with
  | nil => exact h
  | cons f fs ih => exact ih (h.insertField f)

theorem storesByName_hollow (name : String) (bases : List Schema) :
    (hollow name bases).StoresByName := fun _ _ h => (by cases h)

/-- A field for one line of text. -/
def lineField (name title : String) : Field := { name, type := .textLine, title := .text title }

/-- A schema with a field. -/
def parent : Schema := (hollow "Parent").withFields [lineField "summary" "Summary"]

/-- A schema that inherits one field and has another one, which it groups. -/
def child : Schema :=
  { (hollow "Child" [parent]).withFields [lineField "body" "Body"] with
    fieldsets := [{ name := "main", fields := ["body"] }] }

/-- A schema with a field under the name that the other one inherits, and a further one. -/
def sibling : Schema :=
  (hollow "Sibling").withFields [lineField "summary" "Abstract", lineField "notes" "Notes"]

theorem storesByName_child : child.StoresByName :=
  (storesByName_hollow "Child" [parent]).withFields [lineField "body" "Body"]

theorem groupsOwnFields_child : child.GroupsOwnFields := by
  intro set hset name hname
  obtain rfl := List.mem_singleton.1 hset
  obtain rfl := List.mem_singleton.1 hname
  have hown : (child.fields.get? "body").isSome = true := by cbv
  exact Option.isSome_iff_ne_none.1 hown

theorem groupsOwnFields_sibling : sibling.GroupsOwnFields := fun _ h => (by cases h)

theorem sync_lossless_child :
    child.StoresByName ∧ child.GroupsOwnFields ∧ sibling.GroupsOwnFields ∧
      child.sync (child.sync sibling true true) true true = child.sync sibling true true ∧
      (child.sync sibling true true).fields.get? "body" =
        some ((lineField "body" "Body").boundTo "tests.Sibling") ∧
      (child.sync sibling true true).fields.get? "summary" = sibling.fields.get? "summary" ∧
      (child.sync sibling true true).fields.get? "notes" = none ∧
      (child.sync sibling true true).GroupsOwnFields ∧
      (child.sync sibling false true).fields.get? "notes" =
        some ((lineField "notes" "Notes").boundTo "tests.Sibling") := by
  obtain ⟨hagain, -, -, hnamed⟩ := sync_lossless child sibling true true
  obtain ⟨hfields, hgroups⟩ := hnamed storesByName_child
  obtain ⟨-, -, hkept, -⟩ := sync_lossless child sibling false true
  refine ⟨storesByName_child, groupsOwnFields_child, groupsOwnFields_sibling, hagain,
    (hfields "body").trans (by cbv), (hfields "summary").trans (by cbv),
    (hfields "notes").trans (by cbv), hgroups groupsOwnFields_child groupsOwnFields_sibling,
    hkept rfl "notes" _ (by cbv)⟩

/-- A schema with a field that was given another name in its place. -/
def renamed : Schema :=
  { hollow "Renamed" with
    fields := NameMap.empty.insert "draft" (lineField "final" "Text")
    fieldsets := [{ name := "main", fields := ["draft"] }] }

/-- A copy stands under its own name, so that a fieldset that is copied with it can group a name
without a field. -/
theorem not_groupsOwnFields_sync_renamed :
    renamed.GroupsOwnFields ∧ (hollow "Other").GroupsOwnFields ∧
      (renamed.fields.get? "draft").isSome ∧ 
      ((renamed.sync (hollow "Other") false false).fields.get? "draft").isNone ∧
      ¬ (renamed.sync (hollow "Other") false false).GroupsOwnFields := by
  have hown : (renamed.fields.get? "draft").isSome := by cbv
  have hnone : ((renamed.sync (hollow "Other") false false).fields.get? "draft").isNone := by cbv
  refine ⟨fun set hset name hname => ?_, fun _ h => (by cases h), hown, hnone, fun h => ?_⟩
  · obtain rfl := List.mem_singleton.1 hset
    obtain rfl := List.mem_singleton.1 hname
    exact Option.isSome_iff_ne_none.1 hown
  · exact h _ (.head _) "draft" (.head _) (Option.isNone_iff_eq_none.1 hnone)

/-! ## What overwriting leaves -/

/-- Whether a schema has a field of its own under a name that the source does not own but
inherits. -/
def HidesInherited (source dest : Schema) (name : String) : Prop :=
  source.fields.get? name = none ∧ source.get? name ≠ none ∧ dest.fields.get? name ≠ none

/-- With the bases of the source, the other schema inherits what the source inherits. -/
theorem inheritanceOrder_sync
    (hkeys : ∀ t, IsAncestor t source → t.key ≠ source.key ∧ t.key ≠ dest.key) :
    (source.sync dest true true).inheritanceOrder = source.inheritanceOrder := by
  have hkey : (source.sync dest true true).key = dest.key := by rw [sync_eq]; rfl
  rw [inheritanceOrder, inheritanceOrder, resolutionOrder_eq, resolutionOrder_eq source]
  refine Linearization.tail_linearize (fun t ht => ?_) source.bases
  rw [← List.flatMap_def, List.mem_flatMap] at ht
  obtain ⟨b, hb, ht⟩ := ht
  obtain ⟨hsource, hdest⟩ :=
    hkeys t (isAncestor_iff.2 ⟨b, hb, isIn_of_mem_resolutionOrder ht⟩)
  rw [hkey]
  exact ⟨fun h => absurd h.symm hdest, fun h => absurd h.symm hsource⟩

theorem get?_sync_true (h : source.StoresByName)
    (hkeys : ∀ t, IsAncestor t source → t.key ≠ source.key ∧ t.key ≠ dest.key) (name : String) :
    (source.sync dest true true).get? name =
      ((source.fields.get? name).map (·.boundTo dest.identifier)).or
        ((if (source.get? name).isSome then dest.fields.get? name else none).or
          (source.inheritanceOrder.findSome? (·.fields.get? name))) := by
  rw [get?_eq_or, inheritanceOrder_sync hkeys, sync_eq, get?_syncFields_true h, Option.or_assoc]

/-- After overwriting, with the bases of the source, what the other schema knows is what the source
knows, apart from the schema that a field belongs to, but under the names of fields with which it
hid what the source inherits: these fields stay. So it knows the same under all names just if each
of them is the field that it hides. -/
theorem get?_sync_overwrite (h : source.StoresByName)
    (hkeys : ∀ t, IsAncestor t source → t.key ≠ source.key ∧ t.key ≠ dest.key) :
    (∀ name, ¬ source.HidesInherited dest name →
      ((source.sync dest true true).get? name).map Field.unowned =
        (source.get? name).map Field.unowned) ∧
    (∀ name, source.HidesInherited dest name →
      (source.sync dest true true).get? name = dest.fields.get? name) ∧
    ((∀ name, ((source.sync dest true true).get? name).map Field.unowned =
        (source.get? name).map Field.unowned) ↔
      ∀ name, source.HidesInherited dest name →
        (dest.fields.get? name).map Field.unowned = (source.get? name).map Field.unowned) := by
  have hsame (name : String) (hname : ¬ source.HidesInherited dest name) :
      ((source.sync dest true true).get? name).map Field.unowned =
        (source.get? name).map Field.unowned := by
    rw [get?_sync_true h hkeys]
    cases hown : source.fields.get? name with
    | some f => rw [get?_own hown]; rfl
    | none =>
      rw [get?_eq_or source, hown, Option.map_none, Option.none_or, Option.none_or]
      cases hinherited : source.inheritanceOrder.findSome? (·.fields.get? name) with
      | none => rfl
      | some g =>
        have hget : source.get? name = some g := by rw [get?_eq_or, hown, hinherited]; rfl
        have hdest : dest.fields.get? name = none := by
          by_contra hsome
          exact hname ⟨hown, by simp [hget], hsome⟩
        rw [hdest]
        rfl
  have hhidden (name : String) (hname : source.HidesInherited dest name) :
      (source.sync dest true true).get? name = dest.fields.get? name := by
    obtain ⟨hown, hget, hdest⟩ := hname
    rw [get?_sync_true h hkeys, hown, if_pos (Option.isSome_iff_ne_none.2 hget), Option.map_none,
      Option.none_or, Option.or_of_isSome (Option.isSome_iff_ne_none.2 hdest)]
  refine ⟨hsame, hhidden, fun hall name hname => ?_, fun hall name => ?_⟩
  · rw [← hhidden name hname]
    exact hall name
  · by_cases hname : source.HidesInherited dest name
    · rw [hhidden name hname]
      exact hall name hname
    · exact hsame name hname

theorem isAncestor_child {t : Schema} : IsAncestor t child ↔ t = parent := by
  have hparent (u : Schema) : ¬ IsAncestor u parent := by
    intro hu
    obtain ⟨b, hb, -⟩ := isAncestor_iff.1 hu
    cases hb
  have hbases : child.bases = [parent] := rfl
  rw [isAncestor_iff, hbases]
  simp [hparent]

theorem get?_sync_overwrite_child :
    child.StoresByName ∧ (∀ t, IsAncestor t child → t.key ≠ child.key ∧ t.key ≠ sibling.key) ∧
      child.HidesInherited sibling "summary" ∧
      (child.sync sibling true true).get? "summary" = sibling.fields.get? "summary" ∧
      ((child.sync sibling true true).get? "body").map Field.unowned =
        some (lineField "body" "Body") ∧
      ((child.sync sibling true true).get? "notes").map Field.unowned = none := by
  have hkeys (t : Schema) (ht : IsAncestor t child) : t.key ≠ child.key ∧ t.key ≠ sibling.key := by
    obtain rfl := isAncestor_child.1 ht
    exact ⟨by decide, by decide⟩
  have hhides : child.HidesInherited sibling "summary" := by
    have hknown : (child.get? "summary").isSome = true := by cbv
    have hown : (sibling.fields.get? "summary").isSome = true := by cbv
    exact ⟨by cbv, Option.isSome_iff_ne_none.1 hknown, Option.isSome_iff_ne_none.1 hown⟩
  have hbody : ¬ child.HidesInherited sibling "body" := fun h => h.2.2 (by cbv)
  have hnotes : ¬ child.HidesInherited sibling "notes" := fun h => h.2.1 (by cbv)
  obtain ⟨hsame, hhidden, -⟩ := get?_sync_overwrite storesByName_child hkeys
  exact ⟨storesByName_child, hkeys, hhides, hhidden "summary" hhides,
    (hsame "body" hbody).trans (by cbv), (hsame "notes" hnotes).trans (by cbv)⟩

/-- A field that hides one which the source inherits outlasts the source. -/
theorem sync_keeps_hiding :
    child.StoresByName ∧ sibling.StoresByName ∧ [child.key, sibling.key, parent.key].Nodup ∧
      ((child.sync sibling true true).get? "summary").map (·.title) = some (.text "Abstract") ∧
      (child.get? "summary").map (·.title) = some (.text "Summary") ∧
      ¬ ∀ name, ((child.sync sibling true true).get? name).map Field.unowned =
        (child.get? name).map Field.unowned := by
  have hleft : ((child.sync sibling true true).get? "summary").map (·.title) =
      some (.text "Abstract") := by cbv
  have hright : (child.get? "summary").map (·.title) = some (.text "Summary") := by cbv
  refine ⟨storesByName_child, (storesByName_hollow "Sibling" []).withFields _, by decide, hleft,
    hright, fun hall => ?_⟩
  have htitle := congrArg (Option.map (·.title)) (hall "summary")
  rw [Option.map_map, Option.map_map] at htitle
  have heq : (some (.text "Abstract") : Option Value) = some (.text "Summary") :=
    hleft.symm.trans (htitle.trans hright)
  simp at heq

end Schema

end ContentSchema
