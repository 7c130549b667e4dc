import TokenTables.Diagnostic

/-!
The log that diagnostics are collected in. It drops errors past a limit, repeated diagnostics, and
one-time warnings whose code was already reported; what it keeps comes out sorted by location.
-/

namespace TokenTables

/-- What a log drops. -/
structure LogPolicy where
  /-- The number of errors after which further ones are dropped, 0 for none. -/
  maxErrors : Nat := 25
  /-- Drop a diagnostic equal to a pending one. -/
  dropRepeats : Bool := true
deriving DecidableEq, Repr

/-- Drops nothing. -/
def LogPolicy.unlimited : LogPolicy := ⟨0, false⟩

structure DiagnosticLog where
  /-- In order of arrival. -/
  pending : List Diagnostic := []
  errors : Nat := 0
  /-- The codes reported by `addOnce`. -/
  reportedOnce : List Code := []
  policy : LogPolicy := {}
deriving DecidableEq, Repr

namespace DiagnosticLog

def isFull (log : DiagnosticLog) : Bool :=
  0 < log.policy.maxErrors && log.policy.maxErrors ≤ log.errors

def accepts (log : DiagnosticLog) (d : Diagnostic) : Bool :=
  !(d.isError && log.isFull) && !(log.policy.dropRepeats && log.pending.contains d)

/-- Takes in `d` if the policy lets it, and tells whether it did. -/
def add (log : DiagnosticLog) (d : Diagnostic) : DiagnosticLog × Bool :=
  if log.accepts d then
    ({ log with
       pending := log.pending ++ [d]
       errors := if d.isError then log.errors + 1 else log.errors }, true)
  else (log, false)

/-- Adds `d` unless a diagnostic of the same code came this way before. -/
def addOnce (log : DiagnosticLog) (d : Diagnostic) : DiagnosticLog × Bool :=
  if log.reportedOnce.contains d.code then (log, false)
  else add { log with reportedOnce := d.code :: log.reportedOnce } d

def warnings (log : DiagnosticLog) : Nat := (log.pending.filter (!·.isError)).length

/-- Whether a number of errors forbids a result. -/
def refuses (errors : Nat) : Bool := 0 < errors

def forbidsResult (log : DiagnosticLog) : Bool := refuses log.errors

/-- What is said when errors forbid a result. -/
def refusal : String := "error(s) emitted"

/-- Adds the error `d`. Even if it is not taken in no result can follow, and that is said at once. -/
def emit (log : DiagnosticLog) (d : Diagnostic) : DiagnosticLog × String := ((log.add d).1, refusal)

/-- The pending diagnostics by location, equal locations in order of arrival. -/
def sorted (log : DiagnosticLog) : List Diagnostic :=
  log.pending.mergeSort fun a b => a.sortLocation.before b.sortLocation

/-- The log as new, with its policy kept. -/
def cleared (log : DiagnosticLog) : DiagnosticLog := { policy := log.policy }

/-- Hands out what is pending, by location. -/
def flush (log : DiagnosticLog) : DiagnosticLog × List Diagnostic := (log.cleared, log.sorted)

end DiagnosticLog

/-- A diagnostic on its way to a log. -/
inductive Report where
  | always (d : Diagnostic)
  /-- Only the first of its code counts. -/
  | once (d : Diagnostic)
deriving DecidableEq, Repr

namespace DiagnosticLog

def report (log : DiagnosticLog) : Report → DiagnosticLog
  | .always d => (log.add d).1
  | .once d => (log.addOnce d).1

def reportAll (log : DiagnosticLog) (reports : List Report) : DiagnosticLog := reports.foldl report log

end DiagnosticLog

end TokenTables
