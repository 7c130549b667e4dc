import TokenTables.Text.Case

/-!
The codes of diagnostics. The letter of a code's text gives its class and the digits the phase that
reports it.
-/

namespace TokenTables

/-- Why a diagnostic is reported, warnings first. -/
inductive Code where
  /-- A character above U+00FF without unicode input. -/
  | wideChar
  /-- A choice alternative that can never be matched. -/
  | unmatchableChoice
  /-- A regex that matches the empty string. -/
  | emptyMatch
  /-- A string literal that is matched as another kind. -/
  | shadowedLiteral
  /-- A string that ignores case, superseded in part by an earlier string. -/
  | partlySuperseded
  | unknownLabel
  /-- A string hidden by one that ignores case. -/
  | hiddenString
  | duplicateString
  /-- An end-of-input action outside an all-states production. -/
  | partialEndOfInput
  /-- An end-of-input action outside a token production. -/
  | endOfInputDisposition
  | duplicateEndOfInput
  | unknownState
  | duplicateLabel
  /-- A label that is also the name of a lexical state. -/
  | labelNamesState
  | referenceLoop
  | beyondLastCode
  /-- Repetition bounds or a character range the wrong way round. -/
  | malformedBounds
  | internalFault
deriving DecidableEq, Repr

namespace Code

/-- Every code, in order. -/
def all : List Code :=
  [wideChar, unmatchableChoice, emptyMatch, shadowedLiteral, partlySuperseded, unknownLabel, hiddenString,
   duplicateString, partialEndOfInput, endOfInputDisposition, duplicateEndOfInput, unknownState,
   duplicateLabel, labelNamesState, referenceLoop, beyondLastCode, malformedBounds, internalFault]

def text : Code → String
  | wideChar => "W0001"
  | unmatchableChoice => "W0002"
  | emptyMatch => "W0003"
  | shadowedLiteral => "W0004"
  | partlySuperseded => "W0005"
  | unknownLabel => "E0101"
  | hiddenString => "E0102"
  | duplicateString => "E0103"
  | partialEndOfInput => "E0104"
  | endOfInputDisposition => "E0105"
  | duplicateEndOfInput => "E0106"
  | unknownState => "E0107"
  | duplicateLabel => "E0108"
  | labelNamesState => "E0109"
  | referenceLoop => "E0110"
  | beyondLastCode => "E0111"
  | malformedBounds => "E0112"
  | internalFault => "E9001"

/-- The code with this text, in either case. -/
def ofText? (s : String) : Option Code := all.find? fun code => code.text == s.map Text.toUpper

def isWarning : Code → Bool
  | wideChar | unmatchableChoice | emptyMatch | shadowedLiteral | partlySuperseded => true
  | _ => false

def isInternal : Code → Bool
  | internalFault => true
  | _ => false

/-- A fault of the grammar itself, which stops generation. -/
def isSemantic (code : Code) : Bool := !code.isWarning && !code.isInternal

/-- The number of codes before this one. -/
def rank (code : Code) : Nat := all.idxOf code

end Code

end TokenTables
