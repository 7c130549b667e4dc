import TokenTables.Regex.Definitions
import TokenTables.Text.Case
import TokenTables.Text.CodeRange

/-!
The texts that an expression matches, given what its references stand for and whether case is ignored.
Ignoring case widens what is written, so a negated class leaves out every variant of what it names.
-/

namespace TokenTables

namespace CharClass

/-- `c` is in an item of the class or, if case is ignored, a variant of a character in one. -/
def Names (ignoreCase : Bool) (cls : CharClass) (c : Char) : Prop :=
  ∃ item ∈ cls.items, item.contains c ∨ ignoreCase ∧ ∃ x, item.contains x ∧ c ∈ Text.caseForms x

/-- A plain class accepts what it names and a negated one what it does not, up to the last code point. -/
def Accepts (ignoreCase : Bool) (cls : CharClass) (c : Char) : Prop :=
  c.toNat ≤ Text.lastCode ∧ (cls.Names ignoreCase c ↔ cls.negated = false)

end CharClass

namespace Regex

/-- The text is spelled as written, up to case if case is ignored. -/
def SpelledAs (ignoreCase : Bool) : (text written : List Char) → Prop
  | [], [] => True
  | c :: text, w :: written =>
    (if ignoreCase then c ∈ Text.caseForms w else c = w) ∧ SpelledAs ignoreCase text written
  | _, _ => False

/-- The whole text is a match of the expression. -/
inductive Matches (defs : Definitions) (ignoreCase : Bool) : Regex → List Char → Prop where
  | literal {loc written text} (spelled : SpelledAs ignoreCase text written.toList) :
    Matches defs ignoreCase (.literal loc written) text
  | charClass {loc cls c} (accepts : CharClass.Accepts ignoreCase cls c) :
    Matches defs ignoreCase (.charClass loc cls) [c]
  | nothing {loc} : Matches defs ignoreCase (.sequence loc []) []
  | sequence {loc first rest text more} (here : Matches defs ignoreCase first text)
      (after : Matches defs ignoreCase (.sequence loc rest) more) :
    Matches defs ignoreCase (.sequence loc (first :: rest)) (text ++ more)
  | choice {loc alternatives r text} (mem : r ∈ alternatives) (here : Matches defs ignoreCase r text) :
    Matches defs ignoreCase (.choice loc alternatives) text
  | noMore {loc body most} : Matches defs ignoreCase (.repetition loc body 0 most) []
  | oneMore {loc body least most text more} (allowed : most ≠ some 0)
      (here : Matches defs ignoreCase body text)
      (after : Matches defs ignoreCase (.repetition loc body (least - 1) (most.map (· - 1))) more) :
    Matches defs ignoreCase (.repetition loc body least most) (text ++ more)
  | reference {loc label r text} (found : defs.lookup label = some r)
      (here : Matches defs ignoreCase r text) :
    Matches defs ignoreCase (.reference loc label) text

end Regex

end TokenTables
