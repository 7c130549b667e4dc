import TokenTables.Grammar
import TokenTables.Regex.Fault
import TokenTables.Text.CodeRange

/-!
Checks on each regular expression by itself: references to nothing, characters out of range, and bounds or
ranges the wrong way round.
-/

namespace TokenTables

/-- The first of the characters that is out of range. -/
def outOfRange? (loc : Location) (chars : List Char) : Option RegexFault :=
  (chars.find? fun c => Text.lastCode < c.toNat).map fun c => .beyondLastCode c.toNat loc

def ClassPart.fault? (loc : Location) (item : ClassPart) : Option RegexFault :=
  if item.last < item.first then some (.wrongRange item.first item.last loc)
  else outOfRange? loc [item.last]

namespace Regex

/-- What is wrong with the topmost node. -/
def nodeFaults (defs : Definitions) : Regex → List RegexFault
  | reference loc label => if (defs.lookup label).isNone then [.unknownReference label loc] else []
  | literal loc text => (outOfRange? loc text.toList).toList
  | charClass loc cls => cls.items.filterMap (·.fault? loc)
  | repetition loc _ least (some most) => if most < least then [.wrongBounds least most loc] else []
  | repetition _ _ _ none | sequence _ _ | choice _ _ => []

/-- What is wrong with the nodes of an expression, a node before its parts. -/
def faults (defs : Definitions) (r : Regex) : List RegexFault := r.subterms.flatMap (·.nodeFaults defs)

end Regex

namespace Grammar

/-- The faults of all regexes. -/
def regexReports (g : Grammar) : List Diagnostic :=
  (g.regexes.flatMap fun t => t.regex.faults g.definitions).map RegexFault.diagnostic

end Grammar

end TokenTables
