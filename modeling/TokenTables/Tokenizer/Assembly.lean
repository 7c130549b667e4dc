import TokenTables.Automaton.Fragment
import TokenTables.Automaton.Merging
import TokenTables.Tokenizer.EmptyLoops
import TokenTables.Tokenizer.KindTables
import TokenTables.Tokenizer.Options

/-!
Assembling a tokenizer, one lexical state after the other. Literals go to the index of their state, an
expression for any character becomes its wildcard, and all others are built into one automaton. The entries
of each state's automaton follow those of the states before it.
-/

namespace TokenTables

open Automaton (BuildSettings DispatchTable Entry Graph StateId)

/-- What the states assembled so far have left. -/
structure Assembly where
  kinds : KindTables
  dispatch : DispatchTable := {}
  literals : CandidateTables := {}
  entries : Array Entry := #[]
  states : List LexicalState := []
  /-- Choices, with the lexical state each was built in. -/
  choices : List (Nat × TokenDef) := []
  reports : List Report := []

/-- One lexical state while its rules are taken in. -/
structure StateDraft where
  graph : Graph
  index : LiteralIndex
  wildcard : Option Kind := none
  mixesCase : Bool := false

/-- A rule for a regex, with what its production says. -/
structure DeclaredRule where
  disposition : Disposition
  ignoreCase : Bool
  rule : TokenRule
  regex : TokenDef

namespace Grammar

/-- The regex rules of a lexical state, in order. -/
def rulesIn (g : Grammar) (state : Nat) : List DeclaredRule :=
  (g.productionsOf state).flatMap fun p =>
    p.rules.filterMap fun r => r.regex?.map fun t => ⟨p.disposition, p.ignoreCase, r, t⟩

/-- Whether the first production of a lexical state ignores case. -/
def firstIgnoresCase (g : Grammar) (state : Nat) : Bool :=
  match g.productionsOf state with
  | p :: _ => p.ignoreCase
  | [] => false

end Grammar

namespace Assembly

variable (g : Grammar) (options : GenerationOptions)

/-- The literal of a rule that goes to the index. -/
def literalOf? (r : DeclaredRule) : Option Literal := do
  let text ← r.regex.regex.literalText?
  if text.toList.isEmpty || options.literalsInAutomaton then none
  else some ⟨text.toList, r.regex.kind, r.ignoreCase, r.regex.location⟩

def addLiteral (state : Nat) (a : Assembly) (d : StateDraft) (r : DeclaredRule) (l : Literal) :
    Assembly × StateDraft :=
  ({ a with reports := a.reports ++ d.index.insertReports l },
   { d with
     index := d.index.insert l
     mixesCase := d.mixesCase || g.firstIgnoresCase state != r.ignoreCase })

def addRegex (initial : StateId) (a : Assembly) (d : StateDraft) (r : DeclaredRule) : Assembly × StateDraft :=
  let settings : BuildSettings :=
    ⟨g.definitions, r.ignoreCase || options.ignoreCase, options.unicodeInput⟩
  let built := d.graph.addRule settings initial r.regex.kind r.regex.regex
  let faults : List Report := match built.outcome with
    | .ok _ => []
    | .error fault => [.always fault.diagnostic]
  ({ a with reports := a.reports ++ built.wideChars.map wideCharInRegex ++ faults },
   { d with graph := built.graph })

/-- Takes in a rule that is not private. -/
def addPublic (state : Nat) (initial : StateId) (a : Assembly) (d : StateDraft) (r : DeclaredRule) :
    Assembly × StateDraft :=
  match literalOf? options r with
  | some l => addLiteral g state a d r l
  | none =>
    if r.regex.regex.isAnyChar then
      (a, { d with wildcard := Kind.better d.wildcard (some r.regex.kind) })
    else
      let choices := if r.regex.regex.isChoice then a.choices ++ [(state, r.regex)] else a.choices
      addRegex g options initial { a with choices } d r

/-- Takes in a rule of a lexical state. -/
def addRule (state : Nat) (initial : StateId) : Assembly × StateDraft → DeclaredRule → Assembly × StateDraft
  | (a, d), r =>
    let a := { a with kinds := a.kinds.declare state r.ignoreCase r.regex }
    if r.regex.isPrivate then (a, d)
    else
      let (a, d) := addPublic g options state initial a d r
      ({ a with kinds := a.kinds.takeRule g state r.disposition r.rule r.regex.kind }, d)

/-- Closes, names and exports what a lexical state's rules have drafted. -/
def finishState (state : Nat) (name : String) (a : Assembly) (d : StateDraft) : Assembly :=
  let (graph, initialName) := (d.graph.completeAll options.closing).nameAll
  let hasAutomaton := graph.nameCount != 0
  let emptyMatch := graph.openingKind.filter (· != Kind.endOfInput)
  let kinds := match emptyMatch with
    | some kind => a.kinds.noteEmptyMatch kind
    | none => a.kinds
  let index := { d.index with mixesCase := d.mixesCase }.markExtended
  let index := if hasAutomaton && !d.mixesCase then index.findResumptions graph d.wildcard else index
  let (graph, dispatch) := graph.dispatchAll a.dispatch
  let firstEntry := a.entries.size
  let update := index.register state firstEntry graph a.literals
  let entries := update.graph.entries firstEntry
  { a with
    kinds, dispatch
    literals := update.tables
    entries := a.entries ++ entries.toArray
    reports := a.reports ++ update.reports
    states := a.states ++ [{
      name
      initial := initialName.map (· + firstEntry)
      wildcard := d.wildcard
      mixesCase := d.mixesCase
      hasAutomaton, emptyMatch, firstEntry
      entryCount := entries.length
      literals := index.shiftStates firstEntry }] }

/-- Assembles the lexical state at a place. -/
def addState (a : Assembly) (name : String) (state : Nat) : Assembly :=
  let (graph, initial) := Graph.withInitial {}
  let draft : StateDraft := { graph, index := { options := options.literalSettings } }
  let (a, d) := (g.rulesIn state).foldl (addRule g options state initial) (a, draft)
  finishState options state name a d

/-- Assembles every lexical state. -/
def ofGrammar : Assembly :=
  g.states.zipIdx.foldl (fun a (name, state) => addState g options a name state)
    { kinds := (KindTables.forGrammar g).endOfInput g }

/-! ### Checks over all states -/

/-- The token that always wins over a choice it is an alternative of: it is declared in the same lexical
state, and earlier. -/
def winner? (a : Assembly) (state : Nat) (choice : TokenDef) (alternative : Regex) : Option TokenDef := do
  let other ← g.labelled.lookup (← alternative.label?)
  if other.isPrivate || other.kind == Kind.endOfInput || choice.kind ≤ other.kind ||
      !(a.kinds.slot other.kind).homes.contains state then none
  else some other

def unmatchableReport (choice : TokenDef) (alternative : Regex) (other : TokenDef) : Report :=
  let matchedAs := match choice.label with
    | some label => s!": {label}"
    | none => s!"token of kind : {choice.kind}"
  .always <| ((Diagnostic.warning .unmatchableChoice
    s!"Regular Expression choice : {other.shownName} can never be matched as {matchedAs}").pointingAt
    alternative.location "alternative never matched here").mentioning
    other.location "matched by this earlier token"

/-- Alternatives that are never matched as part of their choice. -/
def unmatchableReports (a : Assembly) : List Report :=
  a.choices.flatMap fun (state, choice) =>
    choice.regex.directAlternatives.filterMap fun alternative =>
      (winner? g a state choice alternative).map (unmatchableReport choice alternative)

def emptyMatching (a : Assembly) : EmptyMatching where
  states := a.states
  nextStates := a.kinds.slots.toList.map (·.nextState)
  regexes := a.kinds.slots.toList.map (·.regex)

/-- Everything reported while assembling, in order. -/
def allReports (a : Assembly) : List Report :=
  a.reports ++ unmatchableReports g a ++ a.emptyMatching.search.reports

/-- The finished tables. -/
def tokenizer (a : Assembly) : Tokenizer :=
  let looping := a.emptyMatching.search.looping
  { states := a.states.zipIdx.map fun (s, i) =>
      { s with
        mayLoop := looping.contains i
        reachedByMore := a.kinds.reachedByMore.contains i }
    entries := a.entries
    dispatch := a.dispatch
    literals := a.literals
    skipped := a.kinds.skipped
    unfinished := a.kinds.unfinished
    specials := a.kinds.specials
    tokens := a.kinds.tokens
    nextStates := a.kinds.slots.toList.map (·.nextState)
    meanings := (List.range a.kinds.slots.size).map (a.kinds.meaning options.ignoreCase)
    features := { a.kinds.features with mayLoop := !looping.isEmpty }
    lastKind := g.lastKind }

end Assembly

end TokenTables
