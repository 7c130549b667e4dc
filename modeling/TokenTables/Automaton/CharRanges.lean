import TokenTables.Regex
import TokenTables.Text.Case
import TokenTables.Text.CodeRange

/-!
The characters of a class as ranges. Case folding widens the written items before negation, so a negated
class that ignores case leaves out every variant of what it names.
-/

namespace TokenTables.Automaton

open Text (CodeRange)

/-- Adds the case variants of every character in the ranges. -/
def withCaseForms (ranges : List CodeRange) : List CodeRange :=
  ranges ++ ranges.flatMap fun r =>
    r.chars.flatMap fun c => (Text.caseForms c).tail.map fun v => CodeRange.single v.toNat

/-- The code points a class accepts, as normalized ranges. -/
def acceptedRanges (ignoreCase : Bool) (cls : CharClass) : List CodeRange :=
  let written := cls.items.map fun item => CodeRange.mk item.first.toNat item.last.toNat
  let ranges := CodeRange.normalize (if ignoreCase then withCaseForms written else written)
  if cls.negated then CodeRange.complement ranges else ranges

/-- The class of an expression that reads exactly one character. -/
def singleChars? : Regex → Option CharClass
  | .charClass _ cls => some cls
  | .literal _ text =>
    match text.toList with
    | [c] => some ⟨false, [.single c]⟩
    | _ => none
  | _ => none

end TokenTables.Automaton
