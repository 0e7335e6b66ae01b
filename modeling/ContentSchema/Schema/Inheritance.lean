import ContentSchema.Schema.Basic
import ContentSchema.Schema.Linearization

/-!
# Inheritance

A schema inherits from its bases and theirs. `Schema.resolutionOrder` lists it and its ancestors so
that each comes before its own bases and the bases keep their order; where no such order exists it
is depth first. What a schema does not define is looked up along this order.
-/
namespace ContentSchema.Schema

mutual

/-- The schema, followed by its ancestors. -/
def resolutionOrder : Schema → List Schema
  | ⟨name, module, bases, fields, tags, fieldsets, invariants⟩ =>
    Linearization.linearize key ⟨name, module, bases, fields, tags, fieldsets, invariants⟩ bases
      (resolutionOrders bases)

/-- The order of each schema of a list. -/
def resolutionOrders : List Schema → List (List Schema)
  | [] => []
  | s :: ss => resolutionOrder s :: resolutionOrders ss

end

/-- Whether the other is this schema or one of its ancestors. -/
def extends? (s other : Schema) : Bool := s.resolutionOrder.any (·.sameAs other)

/-- The field with a name, the schema's own or the nearest inherited one. -/
def get? (s : Schema) (name : String) : Option Field :=
  s.resolutionOrder.findSome? (·.fields.get? name)

/-- The field with a name, which has to exist. -/
def require (s : Schema) (name : String) : Except ModelError Field :=
  match s.get? name with
  | some f => .ok f
  | none => .error (.fieldNotFound s.identifier name)

/-- The own and inherited fields by name; nearer ones hide others. -/
def allFields (s : Schema) : NameMap Field :=
  s.resolutionOrder.reverse.foldl
    (fun all t => t.fields.entries.foldl (fun m e => m.insert e.1 e.2) all) ∅

/-- The names of all fields in the order of their places. -/
def namesInOrder (s : Schema) : List String :=
  (Field.sortByOrder (fun e : String × Field => e.2.order) s.allFields.entries).map (·.1)

/-- The tagged value under a key, the schema's own or the nearest inherited one. -/
def tag? (s : Schema) (key : String) : Option Value :=
  s.resolutionOrder.findSome? (·.tags.get? key)

/-- What is wrong with values by the invariants of the schema and its ancestors. -/
def failures (s : Schema) (data : NameMap Value) : List String :=
  (s.resolutionOrder.flatMap (·.invariants)).filterMap (·.failure? data)

/-! ## Merged tagged values -/

/-- The items of the sequences under a key, those of the farthest ancestor first. -/
def mergedList (s : Schema) (key : String) : Except ModelError (List Value) :=
  s.resolutionOrder.reverse.foldlM (fun merged t =>
    match t.tags.get? key with
    | none => .ok merged
    | some (.list items) | some (.tuple items) => .ok (merged ++ items)
    | some _ => .error (.taggedValueShape key t.identifier .list)) []

/-- The entries of the dicts under a key; those of nearer schemas replace others. -/
def mergedDict (s : Schema) (key : String) : Except ModelError (List (Value × Value)) :=
  s.resolutionOrder.reverse.foldlM (fun merged t =>
    match t.tags.get? key with
    | none => .ok merged
    | some (.dict entries) =>
      .ok (entries.foldl (fun m e => Value.insertEntry e.1 e.2 m) merged)
    | some _ => .error (.taggedValueShape key t.identifier .dict)) []

end ContentSchema.Schema
