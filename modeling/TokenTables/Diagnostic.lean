import TokenTables.Diagnostic.Code
import TokenTables.Location

/-!
Diagnostics: a code, a message and the places it is about.
-/

namespace TokenTables

inductive Severity where
  | error
  | warning
  | note
deriving DecidableEq, Repr

def Severity.text : Severity → String
  | error => "error"
  | warning => "warning"
  | note => "note"

/-- A place with a remark. The primary places are where the fault is, the others give context. -/
structure Label where
  location : Location
  text : String
  isPrimary : Bool
deriving DecidableEq, Repr

structure Diagnostic where
  code : Code
  severity : Severity
  message : String := ""
  labels : List Label := []
  notes : List String := []
  suggestions : List String := []
deriving DecidableEq, Repr

namespace Diagnostic

def error (code : Code) (message : String) : Diagnostic :=
  { code, severity := .error, message }

def warning (code : Code) (message : String) : Diagnostic :=
  { code, severity := .warning, message }

def pointingAt (d : Diagnostic) (location : Location) (text : String) : Diagnostic :=
  { d with labels := d.labels ++ [⟨location, text, true⟩] }

def mentioning (d : Diagnostic) (location : Location) (text : String) : Diagnostic :=
  { d with labels := d.labels ++ [⟨location, text, false⟩] }

def noting (d : Diagnostic) (note : String) : Diagnostic := { d with notes := d.notes ++ [note] }

def isError (d : Diagnostic) : Bool := d.severity == .error

/-- Where the fault is: the first primary place. -/
def location? (d : Diagnostic) : Option Location := (d.labels.find? (·.isPrimary)).map (·.location)

/-- Where the diagnostic stands in a sorted report: those without a place come first. -/
def sortLocation (d : Diagnostic) : Location := d.location?.getD .unknown

/-- The text of a report: a headline, then one line for each place, note and suggestion. -/
def render (d : Diagnostic) : String :=
  let place := fun (l : Label) =>
    "\n  " ++ (if l.isPrimary then "-->" else "   ") ++ s!" {l.location.describe}: {l.text}"
  s!"{d.severity.text} [{d.code.text}]: {d.message}" ++ String.join (d.labels.map place) ++
    String.join (d.notes.map ("\n  = note: " ++ ·)) ++ String.join (d.suggestions.map ("\n  = help: " ++ ·))

end Diagnostic

end TokenTables
