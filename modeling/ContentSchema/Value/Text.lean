import ContentSchema.Calendar.Text
import ContentSchema.Number.Binary64.Shortest
import ContentSchema.Text.Utf8
import ContentSchema.Value.Basic

/-!
# The text of a scalar value

Every value that holds no other values has a text, which is what is written between the tags of an
element. Bytes are shown as UTF-8, with a replacement character for what is not.
-/
namespace ContentSchema.Value

/-- The text of a scalar; containers have none. -/
def text? : Value → Option String
  | .bool b => some (if b then "True" else "False")
  | .int n => some (int64Text n)
  | .float x => some x.text
  | .decimal d => some d.text
  | .text s | .dotted s => some s
  | .message m => some m.id
  | .bytes b => some (String.ofList (Text.utf8Lossy b.data.toList))
  | .date d => some (Calendar.dateText d)
  | .datetime t => some (Calendar.datetimeText t)
  | .list _ | .tuple _ | .set _ | .dict _ => none

/-- The text of a value in messages: empty for containers. -/
def shown (v : Value) : String := v.text?.getD ""

end ContentSchema.Value
