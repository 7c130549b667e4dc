import TokenTables.Kind
import TokenTables.Regex.Definitions

/-!
Lexical grammars: named lexical states, and token productions that declare regexes in some of them.
-/

namespace TokenTables

/-- What becomes of a matched token. -/
inductive Disposition where
  /-- Handed to the parser. -/
  | token
  /-- Dropped. -/
  | skip
  /-- Kept as the beginning of the next token. -/
  | more
  /-- Dropped by the parser but attached to the next token. -/
  | special
deriving DecidableEq, Repr

/-- The word that opens a production. -/
def Disposition.keyword : Disposition → String
  | token => "TOKEN"
  | skip => "SKIP"
  | more => "MORE"
  | special => "SPECIAL_TOKEN"

/-- A regex with the kind it declares. -/
structure TokenDef where
  kind : Kind
  label : Option String
  /-- Only usable through references. -/
  isPrivate : Bool
  regex : Regex
deriving Repr, Inhabited

namespace TokenDef

def location (t : TokenDef) : Location := t.regex.location

/-- The label, or else the literal in quotes, or else the kind. -/
def shownName (t : TokenDef) : String :=
  match t.label, t.regex.literalText? with
  | some label, _ => label
  | none, some text => s!"\"{text}\""
  | none, none => s!"token of kind {t.kind}"

end TokenDef

inductive Trigger where
  | regex (t : TokenDef)
  | endOfInput
deriving Repr

/-- User code, as opaque tokens. -/
abbrev Action := List String

/-- One entry of a production: a pattern, the state to go to after a match and the action to run. -/
structure TokenRule where
  trigger : Trigger
  nextState : Option String
  action : Option Action
  location : Location
deriving Repr

namespace TokenRule

def regex? (r : TokenRule) : Option TokenDef :=
  match r.trigger with
  | .regex t => some t
  | .endOfInput => none

def isEndOfInput (r : TokenRule) : Bool := r.regex?.isNone

/-- The action, if it has any tokens. -/
def liveAction (r : TokenRule) : Option Action := r.action.filter (!·.isEmpty)

end TokenRule

structure Production where
  disposition : Disposition
  /-- The names of the lexical states it applies to, `none` for all states. -/
  states : Option (List String)
  ignoreCase : Bool
  rules : List TokenRule
  location : Location
deriving Repr

def Production.isGlobal (p : Production) : Bool := p.states.isNone

def Production.regexes (p : Production) : List TokenDef := p.rules.filterMap (·.regex?)

structure Grammar where
  /-- The first state is where tokenizing starts. -/
  states : List String
  productions : List Production
deriving Repr

namespace Grammar

/-- The place of the first lexical state of this name. -/
def stateIndex? (g : Grammar) (name : String) : Option Nat := g.states.idxOf? name

/-- The places of the lexical states that `p` applies to; undefined names count for nothing. -/
def stateIndices (g : Grammar) (p : Production) : List Nat :=
  match p.states with
  | none => List.range g.states.length
  | some names => names.filterMap g.stateIndex?

/-- The productions that apply to lexical state `i`. -/
def productionsOf (g : Grammar) (i : Nat) : List Production :=
  g.productions.filter fun p => (g.stateIndices p).contains i

/-- The rules of all productions. -/
def rules (g : Grammar) : List TokenRule := g.productions.flatMap (·.rules)

/-- The regexes of all productions. -/
def regexes (g : Grammar) : List TokenDef := g.rules.filterMap (·.regex?)

/-- Each regex with the disposition of its production. -/
def declarations (g : Grammar) : List (Disposition × TokenDef) :=
  g.productions.flatMap fun p => p.regexes.map (p.disposition, ·)

/-- Adds a labelled regex unless its label is taken. -/
def addNamed (named : List (String × TokenDef)) (t : TokenDef) : List (String × TokenDef) :=
  match t.label with
  | none => named
  | some label => if (named.lookup label).isSome then named else named ++ [(label, t)]

/-- The labelled regexes, the first of each label. -/
def labelled (g : Grammar) : List (String × TokenDef) := g.regexes.foldl addNamed []

/-- What a reference to a label stands for. -/
def definitions (g : Grammar) : Definitions := g.labelled.map fun (label, t) => (label, t.regex)

/-- The last kind in use. -/
def lastKind (g : Grammar) : Kind := (g.regexes.map (·.kind)).foldl max Kind.endOfInput

end Grammar

end TokenTables
