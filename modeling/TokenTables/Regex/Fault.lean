import TokenTables.Diagnostic
import TokenTables.Text.Quoted

/-!
What can be wrong with a regular expression, and how it is reported.
-/

namespace TokenTables

inductive RegexFault where
  | unknownReference (label : String) (loc : Location)
  | circularReference (label : String) (loc : Location)
  | beyondLastCode (code : Nat) (loc : Location)
  | wrongBounds (least most : Nat) (loc : Location)
  | wrongRange (first last : Char) (loc : Location)
  /-- Expanding references in place never comes to an end. -/
  | endlessExpansion (loc : Location)
deriving DecidableEq, Repr

namespace RegexFault

def code : RegexFault → Code
  | unknownReference .. => .unknownLabel
  | circularReference .. => .referenceLoop
  | beyondLastCode .. => .beyondLastCode
  | wrongBounds .. | wrongRange .. => .malformedBounds
  | endlessExpansion .. => .internalFault

def location : RegexFault → Location
  | unknownReference _ loc | circularReference _ loc | beyondLastCode _ loc | wrongBounds _ _ loc
  | wrongRange _ _ loc | endlessExpansion loc => loc

def message : RegexFault → String
  | unknownReference label _ => s!"undefined lexical token name \"{label}\""
  | circularReference label _ => s!"loop in regular expression references through \"{label}\""
  | beyondLastCode code _ => s!"character U+{Text.hexUpper code} is outside the Basic Multilingual Plane"
  | wrongBounds least most _ => s!"invalid repetition bounds \x7b{least},{most}\x7d"
  | wrongRange first last _ => s!"invalid character range {Text.quoted first}-{Text.quoted last}"
  | endlessExpansion _ => "expansion of regular expression references does not end"

def diagnostic (fault : RegexFault) : Diagnostic :=
  (Diagnostic.error fault.code fault.message).pointingAt fault.location "in this regular expression"

end RegexFault

end TokenTables
