import TokenTables.Diagnostic
import TokenTables.Grammar
import TokenTables.Text.Case

/-!
String literals of one lexical state that are the same, or the same but for case.
-/

namespace TokenTables

/-- A string literal declared in a lexical state. -/
structure SeenString where
  state : Nat
  image : String
  ignoreCase : Bool
  location : Location
deriving DecidableEq, Repr

namespace SeenString

/-- Strings of one fold differ in case at most. -/
def folded (s : SeenString) : String := s.image.map Text.toUpper

/-- Two strings of one state that differ in case at most. -/
def rivals (s other : SeenString) : Bool := s.state == other.state && s.folded == other.folded

def hiddenReport (s general : SeenString) : Diagnostic :=
  ((Diagnostic.error .hiddenString
    (s!"String \"{s.image}\" can never be matched due to presence of more " ++
      s!"general (IGNORE_CASE) regular expression at {general.location.describe}.")).pointingAt
    s.location "never matched").mentioning general.location "IGNORE_CASE string declared here"

def supersededReport (s : SeenString) (rivals : List SeenString) : Diagnostic :=
  let noun := if rivals.length = 1 then "string" else "strings"
  let lines := ",".intercalate (rivals.map fun r => s!" line {r.location.line}")
  (Diagnostic.warning .partlySuperseded
    s!"String with IGNORE_CASE is partially superseded by {noun} at{lines}.").pointingAt
    s.location "IGNORE_CASE string"

def duplicateReport (s first : SeenString) (stateName : Option String) : Diagnostic :=
  let place := match stateName with
    | some name => s!" in lexical state \"{name}\""
    | none => ""
  ((Diagnostic.error .duplicateString
    s!"Duplicate definition of string token \"{s.image}\"{place}.").pointingAt
    s.location "duplicate").mentioning first.location "first definition"

/-- The first of the rivals that hides `s`. One that is spelled alike and minds case hides nothing. -/
def hiding? (s : SeenString) (rivals : List SeenString) : Option SeenString :=
  match rivals.find? (·.image == s.image) with
  | some exact => if exact.ignoreCase then rivals.find? (·.ignoreCase) else none
  | none => rivals.find? (·.ignoreCase)

/-- Compares `s` with the strings before it: what is reported, and the strings to compare with from then
on. `stateName` is given for all states but the first. -/
def enter (s : SeenString) (seen : List SeenString) (stateName : Option String) :
    List SeenString × List Diagnostic :=
  let rivals := seen.filter s.rivals
  let exact := rivals.find? (·.image == s.image)
  match s.hiding? rivals with
  | some general => (seen, [s.hiddenReport general])
  | none =>
    if s.ignoreCase && !rivals.isEmpty then
      let others := match exact with
        | some e => seen.erase e
        | none => seen
      (others ++ [s], [s.supersededReport rivals])
    else match exact with
      | some first => (seen, [s.duplicateReport first stateName])
      | none => (seen ++ [s], [])

end SeenString

namespace Grammar

/-- The string literals of the grammar, each once for every state it is declared in. -/
def strings (g : Grammar) (ignoreCase : Bool) : List SeenString :=
  g.productions.flatMap fun p => p.regexes.flatMap fun t =>
    match t.regex.literalText? with
    | none => []
    | some image => (g.stateIndices p).map fun state => ⟨state, image, p.ignoreCase || ignoreCase, t.location⟩

/-- Strings declared twice in a state, and strings that one ignoring case hides. -/
def stringReports (g : Grammar) (ignoreCase : Bool) : List Diagnostic :=
  ((g.strings ignoreCase).foldl (fun (seen, found) s =>
    let stateName := if s.state = 0 then none else g.states[s.state]?
    let (seen, more) := s.enter seen stateName
    (seen, found ++ more)) ([], [])).2

end Grammar

end TokenTables
