import TokenTables.Diagnostic.Log
import TokenTables.Tokenizer
import TokenTables.Unvisited

/-!
Loops of empty matches. A lexical state that matches the empty text may lead to another one that does, and
so on; a chain that comes back to a state of its own can keep a tokenizer from moving on.
-/

namespace TokenTables

/-- What empty matches depend on. -/
structure EmptyMatching where
  states : List LexicalState
  /-- For each kind the lexical state to go to. -/
  nextStates : List (Option Nat)
  /-- For each kind the regex that declares it. -/
  regexes : List (Option TokenDef)

/-- A walk along empty matches. -/
structure EmptyChain where
  /-- The states walked through, the last first. -/
  visited : List Nat
  /-- Where the chain comes back to; `none` if it leaves the states that match the empty text. -/
  closing : Option Nat
deriving DecidableEq, Repr

namespace EmptyMatching

/-- The kind by which a state can stay at its place. A state with a wildcard always reads a character. -/
def emptyMatch (m : EmptyMatching) (state : Nat) : Option Kind := do
  let s ← m.states[state]?
  let k ← s.emptyMatch
  if s.wildcard.isNone && k != Kind.endOfInput then some k else none

def target (m : EmptyMatching) (k : Kind) : Option Nat := (m.nextStates[k]?).join

def regex? (m : EmptyMatching) (k : Kind) : Option TokenDef := (m.regexes[k]?).join

theorem lt_of_emptyMatch {m : EmptyMatching} {state : Nat} {k : Kind}
    (found : m.emptyMatch state = some k) : state < m.states.length := by
  cases present : m.states[state]? with
  | none => simp [emptyMatch, present] at found
  | some s => exact (List.getElem?_eq_some_iff.mp present).1

set_option linter.unusedVariables false in
/-- Follows empty matches from `state`, which matches the empty text as `k`. -/
def follow (m : EmptyMatching) (visited : List Nat) (state : Nat) (k : Kind) : EmptyChain :=
  match m.target k with
  | none => ⟨visited, some state⟩
  | some next =>
    if fresh : visited.contains next = false then
      match found : m.emptyMatch next with
      | none => ⟨next :: visited, none⟩
      | some k => m.follow (next :: visited) next k
    else ⟨visited, some next⟩
termination_by unvisited m.states.length visited
decreasing_by exact unvisited_cons_lt (lt_of_emptyMatch found) fresh

def chainFrom (m : EmptyMatching) (start : Nat) (k : Kind) : EmptyChain := m.follow [start] start k

def nameOf (m : EmptyMatching) (state : Nat) : String := ((m.states[state]?).map (·.name)).getD ""

def placeOf (m : EmptyMatching) (k : Kind) : Location := ((m.regex? k).map (·.location)).getD .unknown

/-- What is reported about a closed chain from `start`. -/
def chainReport (m : EmptyMatching) (start : Nat) (k : Kind) (chain : EmptyChain) (closing : Nat) :
    Diagnostic :=
  let path := chain.visited.reverse
  let label := match (m.regex? k).bind (·.label) with
    | some label => s!" for {label}"
    | none => ""
  let opening := s!"Regular expression{label} can be matched by the empty string (\"\") in lexical " ++
    s!"state {m.nameOf start}. "
  let ending := "This can result in an endless loop of empty string matches."
  let others := path.tail.filterMap fun state => (m.emptyMatch state).map fun k => (m.placeOf k).describe
  let middle :=
    if others.isEmpty then ""
    else
      let cycle := "-->".intercalate ((path ++ [closing]).map m.nameOf)
      "This regular expression along with the regular expressions at " ++ "; ".intercalate others ++
        s!" forms the cycle \n   {cycle}\ncontaining regular expressions with empty matches. "
  (Diagnostic.warning .emptyMatch (opening ++ middle ++ ending)).pointingAt
    (m.placeOf k) "matches the empty string"

end EmptyMatching

/-- What a search for chains has found. -/
structure EmptyLoops where
  /-- States that some walk has been through. -/
  done : List Nat := []
  /-- States of closed chains. -/
  looping : List Nat := []
  reports : List Report := []

namespace EmptyMatching

/-- Walks from `start`, unless an earlier walk has been there. -/
def searchFrom (m : EmptyMatching) (found : EmptyLoops) (start : Nat) : EmptyLoops :=
  match m.emptyMatch start with
  | none => found
  | some k =>
    if found.done.contains start then found
    else
      let chain := m.chainFrom start k
      let found := { found with done := chain.visited ++ found.done }
      match chain.closing with
      | none => found
      | some closing =>
        { found with
          looping := chain.visited ++ found.looping
          reports := found.reports ++ [.always (m.chainReport start k chain closing)] }

/-- Walks from every state in turn. -/
def search (m : EmptyMatching) : EmptyLoops := (List.range m.states.length).foldl m.searchFrom {}

end EmptyMatching

end TokenTables
