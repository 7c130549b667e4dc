import TokenTables.Grammar

/-!
Grammars under construction. A draft hands out kinds in declaration order, so the kinds of a grammar made
this way ascend from 1 without gaps.
-/

namespace TokenTables

/-- The lexical state of a grammar that declares none. -/
def defaultState : String := "DEFAULT"

structure GrammarDraft where
  states : List String := [defaultState]
  productions : List Production := []
  nextKind : Kind := 1
deriving Repr

/-- A production being written, with the kinds it has declared. -/
structure ProductionDraft where
  production : Production
  nextKind : Kind
  kinds : List Kind := []
deriving Repr

namespace ProductionDraft

def limitedTo (p : ProductionDraft) (names : List String) : ProductionDraft :=
  { p with production := { p.production with states := some names } }

def inAllStates (p : ProductionDraft) : ProductionDraft :=
  { p with production := { p.production with states := none } }

def withCaseIgnored (p : ProductionDraft) : ProductionDraft :=
  { p with production := { p.production with ignoreCase := true } }

def atLocation (p : ProductionDraft) (loc : Location) : ProductionDraft :=
  { p with production := { p.production with location := loc } }

def addRule (p : ProductionDraft) (rule : TokenRule) : ProductionDraft :=
  { p with production := { p.production with rules := p.production.rules ++ [rule] } }

/-- Declares the next kind. -/
def declare (p : ProductionDraft) (label : Option String) (isPrivate : Bool) (regex : Regex) :
    ProductionDraft :=
  { p.addRule ⟨.regex ⟨p.nextKind, label, isPrivate, regex⟩, none, none, regex.location⟩ with
    nextKind := p.nextKind + 1
    kinds := p.kinds ++ [p.nextKind] }

def addRegex (p : ProductionDraft) (regex : Regex) : ProductionDraft := p.declare none false regex

def addLabeled (p : ProductionDraft) (label : String) (regex : Regex) : ProductionDraft :=
  p.declare (some label) false regex

def addPrivate (p : ProductionDraft) (label : String) (regex : Regex) : ProductionDraft :=
  p.declare (some label) true regex

def addEndOfInput (p : ProductionDraft) : ProductionDraft :=
  p.addRule ⟨.endOfInput, none, none, p.production.location⟩

/-- Changes the last rule written, if there is one. -/
def amendLast (p : ProductionDraft) (change : TokenRule → TokenRule) : ProductionDraft :=
  let rules := p.production.rules.modify (p.production.rules.length - 1) change
  { p with production := { p.production with rules } }

def goingTo (p : ProductionDraft) (name : String) : ProductionDraft :=
  p.amendLast ({ · with nextState := some name })

def running (p : ProductionDraft) (action : Action) : ProductionDraft :=
  p.amendLast ({ · with action := some action })

end ProductionDraft

namespace GrammarDraft

/-- Declares a lexical state, once. -/
def declareState (g : GrammarDraft) (name : String) : GrammarDraft :=
  if g.states.contains name then g else { g with states := g.states ++ [name] }

/-- A production in the first lexical state. -/
def openProduction (g : GrammarDraft) (disposition : Disposition) : ProductionDraft where
  production := ⟨disposition, some (g.states.take 1), false, [], .unknown⟩
  nextKind := g.nextKind

def close (g : GrammarDraft) (p : ProductionDraft) : GrammarDraft :=
  { g with productions := g.productions ++ [p.production], nextKind := p.nextKind }

def grammar (g : GrammarDraft) : Grammar := ⟨g.states, g.productions⟩

end GrammarDraft

end TokenTables
