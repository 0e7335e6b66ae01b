import ContentSchema.Fault

/-!
# Reading in progress

What reading keeps track of: the number of the next field, and the lines of the elements that are
being read. An element is left only when it has been read, so after a fault the innermost line is
that of the element where it was met.
-/
namespace ContentSchema.Document

/-- The state of reading. -/
structure Progress where
  /-- The number of the next field. -/
  nextNumber : Nat := 1
  /-- The lines of the elements that are being read, innermost first. -/
  lines : List (Option Nat) := []
deriving DecidableEq, Repr

/-- The line of the innermost element whose line is known. -/
def Progress.line? (p : Progress) : Option Nat := p.lines.findSome? id

/-- A step of reading. The progress is there after a fault too. -/
abbrev Reading := ExceptT Fault (StateM Progress)

namespace Reading

/-- Runs a step from a progress. -/
def start {α : Type} (x : Reading α) (p : Progress) : Except Fault α × Progress := x.run.run p

/-- The number of a new field. -/
def takeNumber : Reading Nat :=
  modifyGet fun p => (p.nextNumber, { p with nextNumber := p.nextNumber + 1 })

/-- Enters the element on a line, takes a step, and leaves the element unless the step failed. -/
def within {α : Type} (line : Option Nat) (x : Reading α) : Reading α := do
  modify fun p => { p with lines := line :: p.lines }
  let a ← x
  modify fun p => { p with lines := p.lines.tail }
  return a

/-- What does not depend on the progress. -/
def ofExcept {α : Type} (x : Except Fault α) : Reading α := liftM x

/-- A step of building a model. -/
def ofModel {α : Type} (x : Except ModelError α) : Reading α := ofExcept (x.mapError .model)

end Reading
end ContentSchema.Document
