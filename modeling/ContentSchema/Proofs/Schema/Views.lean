import ContentSchema.Proofs.Schema.Merge
import ContentSchema.Proofs.Schema.Places
import ContentSchema.Proofs.Value.Order

/-!
# What a schema inherits

A field, a tagged value and an entry of a merged dict each come from the first schema of the
resolution order that has one (`Schema.Nearest`). Two of the views search the order from its front,
the others build their answer up from its end, where what comes later replaces what is there
(`Value.valueAt?_foldl_insertEntry`). A list is joined from the end, too, and nothing is replaced.

Merging walks over the order once and either takes up what each schema has under the key or stops at
the first value of another shape (`Schema.mergeTags_eq_ok_iff`, `Schema.of_mergeTags_eq_error`).

Result: all views of one schema agree with its resolution order (`Schema.views_of_resolutionOrder`).
-/
namespace ContentSchema

open Std (OrientedCmp TransCmp)

namespace Value

/-- The items of a list or tuple. -/
def items? : Value → Option (List Value)
  | .list items | .tuple items => some items
  | _ => none

/-- The entries of a dict. -/
def entries? : Value → Option (List (Value × Value))
  | .dict entries => some entries
  | _ => none

/-- The value that entries have under a key. -/
def valueAt? (entries : List (Value × Value)) (key : Value) : Option Value :=
  (entries.find? fun e => compare e.1 key == .eq).map (·.2)

theorem valueAt?_cons (e : Value × Value) (es : List (Value × Value)) (key : Value) :
    valueAt? (e :: es) key = if compare e.1 key = .eq then some e.2 else valueAt? es key := by
  unfold valueAt?
  by_cases h : compare e.1 key = .eq
  · rw [List.find?_cons_of_pos (by simpa using h), if_pos h]
    rfl
  · rw [List.find?_cons_of_neg (by simpa using h), if_neg h]

/-- Under a key before all others there is nothing. -/
theorem valueAt?_eq_none {es : List (Value × Value)} {key : Value}
    (h : ∀ e ∈ es, compare key e.1 = .lt) : valueAt? es key = none := by
  rw [valueAt?, List.find?_eq_none.2, Option.map_none]
  intro e he
  rw [OrientedCmp.gt_of_lt (h e he)]
  decide

theorem OrderedKeys.forall_lt {e : Value × Value} {es : List (Value × Value)}
    (h : OrderedKeys (e :: es)) {key : Value} (hkey : compare key e.1 = .lt) :
    ∀ d ∈ e :: es, compare key d.1 = .lt := by
  obtain ⟨he, -⟩ := List.pairwise_cons.1 h
  exact List.forall_mem_cons.2 ⟨hkey, fun d hd => TransCmp.lt_trans hkey (he d hd)⟩

theorem orderedKeys_insertEntry (k v : Value) {es : List (Value × Value)} (h : OrderedKeys es) :
    OrderedKeys (insertEntry k v es) := by
  induction es with
  | nil => exact List.pairwise_singleton _ _
  | cons e es ih =>
    obtain ⟨he, hes⟩ := List.pairwise_cons.1 h
    simp only [insertEntry]
    split
    · rename_i hk
      exact List.pairwise_cons.2 ⟨h.forall_lt hk, h⟩
    · exact List.pairwise_cons.2 ⟨he, hes⟩
    · rename_i hk
      refine List.pairwise_cons.2 ⟨fun d hd => ?_, ih hes⟩
      rcases (of_mem_insertEntry hd).1 with heq | ⟨c, hc, heq⟩
      · rw [heq]
        exact OrientedCmp.lt_of_gt hk
      · rw [heq]
        exact he c hc

/-- Every dict that is built has its keys in strict order. -/
theorem orderedKeys_dictOf (entries : List (Value × Value)) :
    ∃ members, dictOf entries = .dict members ∧ OrderedKeys members :=
  ⟨_, rfl, List.foldlRecOn entries _ .nil fun _ h e _ => orderedKeys_insertEntry e.1 e.2 h⟩

/-- Inserting sets the value under its key and leaves the others alone. -/
theorem valueAt?_insertEntry (k v key : Value) {es : List (Value × Value)} (h : OrderedKeys es) :
    valueAt? (insertEntry k v es) key =
      if compare k key = .eq then some v else valueAt? es key := by
  induction es with
  | nil => rw [insertEntry, valueAt?_cons]
  | cons e es ih =>
    obtain ⟨-, hes⟩ := List.pairwise_cons.1 h
    simp only [insertEntry]
    split
    · rw [valueAt?_cons]
    · rename_i hk
      rw [valueAt?_cons, valueAt?_cons, ← TransCmp.congr_left hk]
      split <;> rfl
    · rename_i hk
      rw [valueAt?_cons, valueAt?_cons, ih hes]
      by_cases he : compare e.1 key = .eq
      · -- the keys differ, so that only one of them can be the one looked up
        have hne : compare k key ≠ .eq := by
          rw [← TransCmp.congr_right he, hk]
          decide
        rw [if_pos he, if_neg hne, if_pos he]
      · rw [if_neg he, if_neg he]

/-- The entries of a dict replace those that are there under equal keys. -/
theorem valueAt?_foldl_insertEntry {entries es : List (Value × Value)} (h : OrderedKeys entries)
    (hes : OrderedKeys es) (key : Value) :
    OrderedKeys (entries.foldl (fun m e => insertEntry e.1 e.2 m) es) ∧
      valueAt? (entries.foldl (fun m e => insertEntry e.1 e.2 m) es) key =
        (valueAt? entries key).or (valueAt? es key) := by
  induction entries generalizing es with
  | nil => exact ⟨hes, rfl⟩
  | cons e entries ih =>
    obtain ⟨he, hentries⟩ := List.pairwise_cons.1 h
    obtain ⟨hordered, hentry⟩ := ih hentries (orderedKeys_insertEntry e.1 e.2 hes)
    refine ⟨hordered, ?_⟩
    rw [List.foldl_cons, hentry, valueAt?_insertEntry _ _ _ hes, valueAt?_cons]
    by_cases hk : compare e.1 key = .eq
    · have hnone : valueAt? entries key = none := by
        refine valueAt?_eq_none fun d hd => ?_
        rw [← TransCmp.congr_left hk]
        exact he d hd
      rw [hnone, if_pos hk, if_pos hk]
      rfl
    · rw [if_neg hk, if_neg hk]

end Value

namespace Schema

/-! ## Searching the order -/

/-- Whether a value is what the first schema of the resolution order has that has one. -/
def Nearest {α : Type} (s : Schema) (own : Schema → Option α) (v : α) : Prop :=
  ∃ before t after, s.resolutionOrder = before ++ t :: after ∧ own t = some v ∧
    ∀ u ∈ before, own u = none

theorem nearest_iff {α : Type} {s : Schema} {own : Schema → Option α} {v : α} :
    s.Nearest own v ↔ s.resolutionOrder.findSome? own = some v := by
  rw [List.findSome?_eq_some_iff]
  rfl

/-! ## Names -/

/-- The names are those of all fields, each once. -/
theorem perm_namesInOrder (s : Schema) : s.namesInOrder.Perm s.allFields.keys :=
  (List.mergeSort_perm s.allFields.entries _).map Prod.fst

/-- The names stand in the order of the places of their fields, and those with one place in the
order of names. -/
theorem pairwise_namesInOrder (s : Schema) :
    s.namesInOrder.Pairwise fun m n => ∃ f g, s.get? m = some f ∧ s.get? n = some g ∧
      (f.order < g.order ∨ f.order = g.order ∧ m < n) := by
  have hget : ∀ e ∈ Field.sortByOrder (fun e : String × Field => e.2.order) s.allFields.entries,
      s.get? e.1 = some e.2 := by
    intro e he
    rw [← get?_allFields, ← NameMap.mem_entries_iff]
    exact List.mem_mergeSort.1 he
  have hsorted := Field.pairwise_sortByOrder_of_pairwise (fun e : String × Field => e.2.order)
    s.allFields.entries s.allFields.sorted
  refine List.pairwise_map.2 (hsorted.imp_of_mem fun {d e} hd he hprecedes => ?_)
  exact ⟨d.2, e.2, hget d hd, hget e he, hprecedes⟩

/-! ## Merging -/

section Merging

variable {α β : Type} (part : Value → Option α) (add : β → α → β) (shape : MergeShape)
  (key : String)

/-- What some schemas have under a key, if it is of the right shape. -/
def parts (order : List Schema) : List α :=
  order.filterMap fun t => (t.tags.get? key).bind part

/-- Whether nothing under a key is of another shape. -/
def AreShaped (order : List Schema) : Prop :=
  ∀ t ∈ order, ∀ v, t.tags.get? key = some v → (part v).isSome

/-- Takes up what schemas have under a key, one after the other. -/
def mergeTags (order : List Schema) (merged : β) : Except ModelError β :=
  order.foldlM (fun merged t =>
    match t.tags.get? key with
    | none => .ok merged
    | some v =>
      match part v with
      | some a => .ok (add merged a)
      | none => .error (.taggedValueShape key t.identifier shape)) merged

theorem mergeTags_cons (t : Schema) (order : List Schema) (merged : β) :
    mergeTags part add shape key (t :: order) merged =
      match t.tags.get? key with
      | none => mergeTags part add shape key order merged
      | some v =>
        match part v with
        | some a => mergeTags part add shape key order (add merged a)
        | none => .error (.taggedValueShape key t.identifier shape) := by
  unfold mergeTags
  rw [List.foldlM_cons]
  cases t.tags.get? key with
  | none => rfl
  | some v => cases hpart : part v <;> simp only [hpart] <;> rfl

variable {part add shape key}

/-- Merging succeeds where every schema has something of the right shape, or nothing. -/
theorem mergeTags_eq_ok_iff {order : List Schema} {merged result : β} :
    mergeTags part add shape key order merged = .ok result ↔
      AreShaped part key order ∧ (parts part key order).foldl add merged = result := by
  induction order generalizing merged with
  | nil => simp [mergeTags, AreShaped, parts, pure, Except.pure]
  | cons t order ih =>
    rw [mergeTags_cons]
    cases htag : t.tags.get? key with
    | none => simp [ih, AreShaped, parts, htag]
    | some v =>
      cases hpart : part v with
      | none => simp [AreShaped, htag, hpart]
      | some a => simp [hpart, ih, AreShaped, parts, htag]

/-- Where it fails, a schema has a value of another shape, and this one is named. -/
theorem of_mergeTags_eq_error {order : List Schema} {merged : β} {fault : ModelError}
    (h : mergeTags part add shape key order merged = .error fault) :
    ∃ t ∈ order, ∃ v, t.tags.get? key = some v ∧ part v = none ∧
      fault = .taggedValueShape key t.identifier shape := by
  induction order generalizing merged with
  | nil => cases h
  | cons t order ih =>
    rw [mergeTags_cons] at h
    split at h
    · obtain ⟨u, hu, hrest⟩ := ih h
      exact ⟨u, .tail _ hu, hrest⟩
    · rename_i v htag
      split at h
      · obtain ⟨u, hu, hrest⟩ := ih h
        exact ⟨u, .tail _ hu, hrest⟩
      · rename_i hpart
        cases h
        exact ⟨t, .head _, v, htag, hpart, rfl⟩

end Merging

theorem mergedList_eq (s : Schema) (key : String) :
    s.mergedList key =
      mergeTags Value.items? (· ++ ·) .list key s.resolutionOrder.reverse [] := by
  unfold mergedList mergeTags
  congr 1
  funext merged t
  rcases t.tags.get? key with - | v
  · rfl
  · cases v <;> rfl

theorem mergedDict_eq (s : Schema) (key : String) :
    s.mergedDict key =
      mergeTags Value.entries?
        (fun merged entries => entries.foldl (fun m e => Value.insertEntry e.1 e.2 m) merged) .dict
        key s.resolutionOrder.reverse [] := by
  unfold mergedDict mergeTags
  congr 1
  funext merged t
  rcases t.tags.get? key with - | v
  · rfl
  · cases v <;> rfl

/-! ## Dicts in order -/

/-- Dicts that are merged from the last one to the first: under each key the first one counts. -/
theorem valueAt?_foldl_reverse {dicts : List (List (Value × Value))}
    (h : ∀ entries ∈ dicts, Value.OrderedKeys entries) (k : Value) :
    let merged := dicts.reverse.foldl
      (fun merged entries => entries.foldl (fun m e => Value.insertEntry e.1 e.2 m) merged) []
    Value.OrderedKeys merged ∧ Value.valueAt? merged k = dicts.findSome? (Value.valueAt? · k) := by
  rw [List.foldl_reverse]
  induction dicts with
  | nil => exact ⟨.nil, rfl⟩
  | cons entries dicts ih =>
    obtain ⟨hordered, hentry⟩ := ih fun d hd => h d (.tail _ hd)
    obtain ⟨hmerged, heq⟩ := Value.valueAt?_foldl_insertEntry (h entries (.head _)) hordered k
    refine ⟨hmerged, heq.trans ?_⟩
    rw [hentry, List.findSome?_cons]
    cases Value.valueAt? entries k <;> rfl

/-- Whether the dicts under a key are such as can be built: their keys are in strict order. -/
def HasOrderedDicts (s : Schema) (key : String) : Prop :=
  ∀ t ∈ s.resolutionOrder, ∀ entries, t.tags.get? key = some (.dict entries) →
    Value.OrderedKeys entries

/-- A merged dict has ordered keys, and each has the value of the nearest schema with that key. -/
theorem valueAt?_mergedDict {s : Schema} {key : String} (h : s.HasOrderedDicts key)
    {merged : List (Value × Value)} (hmerged : s.mergedDict key = .ok merged) :
    Value.OrderedKeys merged ∧ ∀ k v, Value.valueAt? merged k = some v ↔
      s.Nearest (fun t => ((t.tags.get? key).bind Value.entries?).bind (Value.valueAt? · k)) v := by
  have hdicts : ∀ entries ∈ parts Value.entries? key s.resolutionOrder,
      Value.OrderedKeys entries := by
    intro entries hentries
    obtain ⟨t, ht, hpart⟩ := List.mem_filterMap.1 hentries
    obtain ⟨v, htag, hv⟩ := Option.bind_eq_some_iff.1 hpart
    cases v <;> cases hv
    exact h t ht _ htag
  rw [mergedDict_eq, mergeTags_eq_ok_iff, parts, List.filterMap_reverse, ← parts] at hmerged
  obtain ⟨-, rfl⟩ := hmerged
  refine ⟨(valueAt?_foldl_reverse hdicts (.bool false)).1, fun k v => ?_⟩
  rw [(valueAt?_foldl_reverse hdicts k).2, nearest_iff, parts, ← List.head?_filterMap,
    List.filterMap_filterMap, List.head?_filterMap]

/-- A merged list joins what the schemas hold, from the last one of the order to the first. -/
theorem eq_of_mergedList {s : Schema} {key : String} {items : List Value}
    (h : s.mergedList key = .ok items) :
    items = (parts Value.items? key s.resolutionOrder.reverse).flatten := by
  rw [mergedList_eq, mergeTags_eq_ok_iff] at h
  obtain ⟨-, rfl⟩ := h
  exact (List.foldl_append_eq_append (f := id)).trans (by rw [List.map_id, List.nil_append])

/-- Merging fails where a schema of the order has a value of another shape, and nowhere else. -/
theorem mergeTags_fails_iff {α β : Type} {part : Value → Option α} {add : β → α → β}
    {shape : MergeShape} {key : String} {order : List Schema} {merged : β} :
    (∃ fault, mergeTags part add shape key order.reverse merged = .error fault) ↔
      ∃ t ∈ order, ∃ v, t.tags.get? key = some v ∧ part v = none := by
  constructor
  · rintro ⟨fault, hfault⟩
    obtain ⟨t, ht, v, htag, hpart, -⟩ := of_mergeTags_eq_error hfault
    exact ⟨t, List.mem_reverse.1 ht, v, htag, hpart⟩
  · rintro ⟨t, ht, v, htag, hpart⟩
    cases hresult : mergeTags part add shape key order.reverse merged with
    | error fault => exact ⟨fault, rfl⟩
    | ok result =>
      have hshaped := (mergeTags_eq_ok_iff.1 hresult).1 t (List.mem_reverse.2 ht) v htag
      rw [hpart] at hshaped
      cases hshaped

/-- What a schema inherits is what its resolution order says. A field is there if it is among all
fields, and then it is the one of the first schema that owns one of that name; the names are those of
all fields, each once, by place and then by name; and a tagged value is the one of the first schema
that has one. A merged dict has under each key what the first schema has whose dict holds the key, a
merged list joins the lists from the last schema to the first, and the two fail where some schema of
the order has a value of another shape. -/
theorem views_of_resolutionOrder {s : Schema} {key : String} (h : s.HasOrderedDicts key) :
    (∀ name, (s.get? name).isSome = s.allFields.contains name ∧
      s.allFields.get? name = s.get? name ∧
      ∀ f, s.get? name = some f ↔ s.Nearest (·.fields.get? name) f) ∧
    (s.namesInOrder.Perm s.allFields.keys ∧ s.namesInOrder.Nodup ∧
      s.namesInOrder.Pairwise fun m n => ∃ f g, s.get? m = some f ∧ s.get? n = some g ∧
        (f.order < g.order ∨ f.order = g.order ∧ m < n)) ∧
    (∀ v, s.tag? key = some v ↔ s.Nearest (·.tags.get? key) v) ∧
    (∀ merged, s.mergedDict key = .ok merged → Value.OrderedKeys merged ∧
      ∀ k v, Value.valueAt? merged k = some v ↔
        s.Nearest (fun t => ((t.tags.get? key).bind Value.entries?).bind (Value.valueAt? · k)) v) ∧
    (∀ items, s.mergedList key = .ok items →
      items = (parts Value.items? key s.resolutionOrder.reverse).flatten) ∧
    ((∃ fault, s.mergedDict key = .error fault) ↔
      ∃ t ∈ s.resolutionOrder, ∃ v, t.tags.get? key = some v ∧ v.entries? = none) ∧
    ((∃ fault, s.mergedList key = .error fault) ↔
      ∃ t ∈ s.resolutionOrder, ∃ v, t.tags.get? key = some v ∧ v.items? = none) := by
  have hperm := s.perm_namesInOrder
  refine ⟨fun name => ⟨?_, s.get?_allFields name, fun f => nearest_iff.symm⟩,
    ⟨hperm, hperm.nodup_iff.2 s.allFields.nodup_keys, s.pairwise_namesInOrder⟩,
    fun v => nearest_iff.symm, fun merged => valueAt?_mergedDict h, fun items => eq_of_mergedList,
    ?_, ?_⟩
  · rw [NameMap.contains, s.get?_allFields]
  · rw [mergedDict_eq]
    exact mergeTags_fails_iff
  · rw [mergedList_eq]
    exact mergeTags_fails_iff

/-- A schema with colours of its own. -/
def coloured (name : String) (colours : List (Value × Value)) (bases : List Schema := []) :
    Schema :=
  (hollow name bases).setTag "colours" (.dict colours)

/-- A schema in which the field is green. -/
def meadow : Schema := coloured "Meadow" [(.text "field", .text "green")]

/-- A schema in which the field is golden and the sky blue. -/
def harvest : Schema :=
  coloured "Harvest" [(.text "field", .text "gold"), (.text "sky", .text "blue")]

/-- A schema that builds on both and has a grey sky. -/
def painting : Schema := coloured "Painting" [(.text "sky", .text "grey")] [meadow, harvest]

theorem resolutionOrder_painting : painting.resolutionOrder = [painting, meadow, harvest] := by cbv

theorem hasOrderedDicts_painting : painting.HasOrderedDicts "colours" := by
  intro t ht entries htag
  rw [resolutionOrder_painting] at ht
  rcases ht with _ | ⟨_, _ | ⟨_, _ | ⟨_, h⟩⟩⟩
  · cases htag
    exact List.pairwise_singleton _ _
  · cases htag
    exact List.pairwise_singleton _ _
  · cases htag
    exact List.pairwise_pair.2 rfl
  · cases h

theorem views_of_resolutionOrder_painting :
    painting.HasOrderedDicts "colours" ∧
      painting.mergedDict "colours" =
        .ok [(.text "field", .text "green"), (.text "sky", .text "grey")] ∧
      painting.Nearest (fun t => ((t.tags.get? "colours").bind Value.entries?).bind
        (Value.valueAt? · (.text "field"))) (.text "green") ∧
      painting.namesInOrder.Nodup ∧ ∃ fault, painting.mergedList "colours" = .error fault := by
  have hmerged : painting.mergedDict "colours" =
      .ok [(.text "field", .text "green"), (.text "sky", .text "grey")] := by
    rw [mergedDict, resolutionOrder_painting]
    rfl
  obtain ⟨-, ⟨-, hnodup, -⟩, -, hdict, -, -, hfails⟩ :=
    views_of_resolutionOrder hasOrderedDicts_painting
  refine ⟨hasOrderedDicts_painting, hmerged, ?_, hnodup, hfails.2 ⟨painting, ?_, _, rfl, rfl⟩⟩
  · exact ((hdict _ hmerged).2 (.text "field") (.text "green")).1 rfl
  · exact List.mem_of_mem_head? painting.head?_resolutionOrder

end Schema
end ContentSchema
