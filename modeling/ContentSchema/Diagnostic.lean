import ContentSchema.Fault
import ContentSchema.Text.Lines
import ContentSchema.Text.Space

/-!
# Diagnostics

A diagnostic is a fault, and the place in a document where it was met if that is known.
-/
namespace ContentSchema

/-- A place in a document. -/
structure Place where
  /-- The file, if the document came from one. -/
  file : Option String
  /-- The line. -/
  line : Option Nat
  /-- What stands on the line, without blanks around it. -/
  excerpt : Option String
deriving DecidableEq, Repr

/-- The text behind a message that shows the place. -/
def Place.text (p : Place) : String :=
  let shown :=
    if p.file.isSome || p.line.isSome then
      let number := match p.line with
        | some n => toString n
        | none => "unknown"
      "\n  File \"" ++ p.file.getD "<unknown>" ++ "\", line " ++ number
    else ""
  match p.excerpt with
  | some text => shown ++ "\n    " ++ text
  | none => shown

/-- A fault and its place. -/
structure Diagnostic where
  /-- The fault. -/
  cause : Fault
  /-- The place, if it has been looked up. -/
  place : Option Place := none

namespace Diagnostic

/-- The text of the diagnostic. -/
def message (d : Diagnostic) : String := d.cause.message ++ (d.place.map Place.text).getD ""

/-- The line of the diagnostic: that of its place, or else of the fault itself. -/
def line? (d : Diagnostic) : Option Nat :=
  match d.place with
  | some p => p.line
  | none => d.cause.line?

/-- Adds the place, given the file, the line that was being read and the document. A line that the
fault itself names goes before that, and a place that is there already stays. -/
def locate (d : Diagnostic) (file : Option String) (line : Option Nat) (document : String) :
    Diagnostic :=
  match d.place with
  | some _ => d
  | none =>
    let line := d.cause.line?.orElse fun _ => line
    { d with place := some ⟨file, line, (line.bind (Text.line? document)).map Text.trim⟩ }

end Diagnostic
end ContentSchema
