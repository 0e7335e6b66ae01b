import ContentSchema.Text.Pieces

/-!
# Lines

A text is cut at each line feed. The part after the last line feed is a line only when it is not
empty.
-/
namespace ContentSchema.Text

/-- The line with the given number, counted from one. -/
def line? (s : String) (number : Nat) : Option String :=
  let parts := pieces '\n' s.toList
  let lines := if parts.getLast? == some [] then parts.dropLast else parts
  if number = 0 then none else lines[number - 1]?.map String.ofList

end ContentSchema.Text
