/-
  Reports for the author of a source text: a headline, the places it is about,
  and notes below it.
-/
import DataMarks.Span

namespace DataMarks

/-- A place that a report points at. The primary label marks the fault itself. -/
structure Label where
  primary : Bool
  span : Span
  message : String := ""
deriving DecidableEq, Repr

/-- Whether the author or this program is at fault. -/
inductive Severity
  | error
  | bug
deriving DecidableEq, Repr

def Severity.title : Severity → String
  | .error => "error"
  | .bug => "bug"

structure Diagnostic where
  severity : Severity := .error
  message : String
  labels : List Label := []
  notes : List String := []
deriving DecidableEq, Repr

/-- The headline and the notes, one a line, without the excerpt of the source. -/
def Diagnostic.lines (d : Diagnostic) : List String :=
  s!"{d.severity.title}: {d.message}" :: d.notes.map ("= " ++ ·)

end DataMarks
