import ContentSchema.Schema.Inheritance

/-!
# Bringing one schema in line with another

`Schema.sync` copies what a source schema has of its own into another one. Without `overwrite` what
the other schema has of its own stays. With it the source wins, and fields that the source does not
know are removed.
-/
namespace ContentSchema.Schema

/-- The bases after syncing: those of the source, and without `overwrite` the others behind them. -/
def syncedBases (source dest : Schema) (overwrite : Bool) : List Schema :=
  if overwrite then source.bases
  else dest.bases.foldl
    (fun bases b => if bases.any (·.sameAs b) then bases else bases ++ [b]) source.bases

/-- The fields after syncing. Fields of the source are copied in their order. -/
def syncFields (source dest : Schema) (overwrite : Bool) : Schema :=
  let stale := if overwrite then dest.fields.keys.filter fun n => (source.get? n).isNone else []
  let kept := { dest with fields := stale.foldl (fun fs n => fs.erase n) dest.fields }
  source.fieldsInOrder.foldl
    (fun d f => if overwrite || !d.fields.contains f.name then d.insertField f else d) kept

/-- The tagged values after syncing. -/
def syncTags (source dest : Schema) (overwrite : Bool) : NameMap Value :=
  source.tags.entries.foldl
    (fun tags e => if overwrite || !tags.contains e.1 then tags.insert e.1 e.2 else tags) dest.tags

/-- The other schema after syncing. -/
def sync (source dest : Schema) (overwrite bases : Bool) : Schema :=
  { syncFields source dest overwrite with
    tags := syncTags source dest overwrite
    fieldsets := if overwrite || dest.fieldsets.isEmpty then source.fieldsets else dest.fieldsets
    invariants :=
      if overwrite || dest.invariants.isEmpty then source.invariants else dest.invariants
    bases := if bases then syncedBases source dest overwrite else dest.bases }

end ContentSchema.Schema
