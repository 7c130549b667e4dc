import TokenTables.Automaton.CharRanges
import TokenTables.Automaton.Choice
import TokenTables.Automaton.Graph
import TokenTables.Diagnostic.WideChar

/-!
From regular expressions to graph fragments. Each combinator adds states for one construct; the stop state
of a fragment has neither moves nor edges, so joining fragments by epsilon moves never gives a state both.
-/

namespace TokenTables.Automaton

open Text (CodeRange)

/-- The entry and the exit of what was built for an expression. -/
structure Fragment where
  start : StateId
  stop : StateId
deriving DecidableEq, Repr

/-- What building depends on besides the expression. -/
structure BuildSettings where
  definitions : Definitions
  ignoreCase : Bool
  unicodeInput : Bool

/-- A graph under construction, and where characters above U+00FF were written that need unicode input. -/
structure Construction where
  graph : Graph
  wideChars : List Location := []
deriving DecidableEq, Repr

/-- Building stops at the first fault; what was built before it stays. -/
abbrev Build := EStateM RegexFault Construction

namespace Build

def alterGraph (change : Graph → Graph) : Build Unit :=
  modify fun c => { c with graph := change c.graph }

def addState : Build StateId :=
  modifyGet fun c => (c.graph.size, { c with graph := c.graph.addState {} })

def linkEpsilon (source target : StateId) : Build Unit := alterGraph (·.linkEpsilon source target)

/-- Lets `source` move to `target` on more characters. -/
def addMoves (source target : StateId) (more : Moves → Moves) : Build Unit :=
  alterGraph (·.alter source fun s => { s with moves := more s.moves, next := some target })

/-- Checks a character written in a grammar. -/
def admitChar (settings : BuildSettings) (loc : Location) (c : Char) : Build Unit :=
  if Text.lastCode < c.toNat then throw (.beyondLastCode c.toNat loc)
  else if wideStart ≤ c.toNat && !settings.unicodeInput then
    modify fun built => { built with wideChars := built.wideChars ++ [loc] }
  else pure ()

def admitItem (settings : BuildSettings) (loc : Location) (item : ClassPart) : Build Unit := do
  if item.last < item.first then throw (.wrongRange item.first item.last loc)
  admitChar settings loc item.last

/-- The characters of a class whose items are in order. -/
def admittedRanges (settings : BuildSettings) (loc : Location) (cls : CharClass) :
    Build (List CodeRange) := do
  cls.items.forM (admitItem settings loc)
  return acceptedRanges settings.ignoreCase cls

/-! ### Fragments -/

/-- One state: the empty text. -/
def nothing : Build Fragment := do
  let only ← addState
  return ⟨only, only⟩

/-- A chain with one move per character. -/
def text (settings : BuildSettings) (loc : Location) (chars : List Char) : Build Fragment := do
  chars.forM (admitChar settings loc)
  let start ← addState
  let stop ← chars.foldlM (fun current c => do
    let next ← addState
    let variants := if settings.ignoreCase then Text.caseForms c else [c]
    addMoves current next fun m => variants.foldl (fun m v => m.addCode v.toNat) m
    return next) start
  return ⟨start, stop⟩

/-- One move on any character of the ranges. -/
def oneChar (ranges : List CodeRange) : Build Fragment := do
  let start ← addState
  let stop ← addState
  addMoves start stop (·.addRanges (ranges.flatMap CodeRange.outsideSurrogates))
  return ⟨start, stop⟩

/-- Joins `next` to the end of what came before. -/
def join (before : Option Fragment) (next : Fragment) : Build (Option Fragment) :=
  match before with
  | none => return some next
  | some f => do
    linkEpsilon f.stop next.start
    return some ⟨f.start, next.stop⟩

/-- What has been joined, or the empty text if nothing has. -/
def orNothing : Option Fragment → Build Fragment
  | some f => pure f
  | none => nothing

/-- One fragment after the other. -/
def inTurn (parts : List (Build Fragment)) : Build Fragment := do
  orNothing (← parts.foldlM (fun before part => do join before (← part)) none)

/-- Joins a number of copies to the end of what came before. -/
def copies (part : Build Fragment) : (count : Nat) → (before : Option Fragment) → Build (Option Fragment)
  | 0, before => pure before
  | count + 1, before => do copies part count (← join before (← part))

/-- One of several fragments, side by side; a single one stands for itself. -/
def oneOf : List (Build Fragment) → Build Fragment
  | [only] => only
  | parts => do
    let start ← addState
    let stop ← addState
    parts.forM fun part => do
      let f ← part
      linkEpsilon start f.start
      linkEpsilon f.stop stop
    return ⟨start, stop⟩

/-- Two new states around a fragment: past it if `skippable`, back to its start if `repeatable`. -/
def around (skippable repeatable : Bool) (body : Build Fragment) : Build Fragment := do
  let start ← addState
  let stop ← addState
  let f ← body
  linkEpsilon start f.start
  if skippable then linkEpsilon start stop
  linkEpsilon f.stop stop
  if repeatable then linkEpsilon f.stop f.start
  return ⟨start, stop⟩

def zeroOrMore (body : Build Fragment) : Build Fragment := around true true body

def oneOrMore (body : Build Fragment) : Build Fragment := around false true body

def zeroOrOne (body : Build Fragment) : Build Fragment := around true false body

/-- At least `least` copies, then optional ones up to `most`, or any number of them. -/
def repeated (body : Build Fragment) : (least : Nat) → (most : Option Nat) → Build Fragment
  | 0, none => zeroOrMore body
  | 1, none => oneOrMore body
  | 0, some 1 => zeroOrOne body
  | least, none => do orNothing (← join (← copies body least none) (← zeroOrMore body))
  | least, some most => do orNothing (← copies (zeroOrOne body) (most - least) (← copies body least none))

/-! ### Choices -/

/-- What a choice is made of once its one-character alternatives are put together. -/
inductive ChoicePart where
  /-- All one-character alternatives. -/
  | chars
  | other (r : Regex)

/-- Gathers the one-character alternatives, in the place of the first, and their characters. -/
def gatherChars (settings : BuildSettings) (alternatives : List Regex) :
    Build (List ChoicePart × List CodeRange) := do
  let (parts, chars) ← alternatives.foldlM (fun (parts, chars) r => do
    match singleChars? r with
    | none => return (parts ++ [ChoicePart.other r], chars)
    | some cls =>
      let more ← admittedRanges settings r.location cls
      match chars with
      | some ranges => return (parts, some (ranges ++ more))
      | none => return (parts ++ [ChoicePart.chars], some more)) ([], (none : Option (List CodeRange)))
  return (parts, CodeRange.normalize (chars.getD []))

/-! ### Expressions -/

/-- Builds `r` inside the expansion of the `active` labels. `depth` bounds the nesting of expressions. -/
def expression (settings : BuildSettings) : (depth : Nat) → (active : List String) → Regex → Build Fragment
  | 0, _, r => throw (.endlessExpansion r.location)
  | _ + 1, _, .literal loc chars => text settings loc chars.toList
  | _ + 1, _, .charClass loc cls => do oneChar (← admittedRanges settings loc cls)
  | depth + 1, active, .sequence _ parts => inTurn (parts.map (expression settings depth active))
  | depth + 1, active, .choice _ alternatives => do
    let alternatives ← match spliceChoices settings.definitions active [] alternatives with
      | .ok all => pure all
      | .error fault => throw fault
    let (parts, ranges) ← gatherChars settings alternatives
    oneOf (parts.map fun
      | .chars => oneChar ranges
      | .other r => expression settings depth active r)
  | depth + 1, active, .repetition loc body least most => do
    if most.any (· < least) then throw (.wrongBounds least (most.getD 0) loc)
    repeated (expression settings depth active body) least most
  | depth + 1, active, .reference loc label =>
    match settings.definitions.lookup label with
    | none => throw (.unknownReference label loc)
    | some r =>
      if active.contains label then throw (.circularReference label loc)
      else expression settings depth (label :: active) r

end Build

/-- A nesting of expressions that can end goes no deeper: within one list of active labels no expression
lies inside itself. -/
def depthBound (definitions : Definitions) (r : Regex) : Nat :=
  (definitions.length + 1) *
    definitions.foldl (fun total d => total + d.2.subterms.length) r.subterms.length

/-- The graph after building an expression, and the fragment if nothing was wrong with it. -/
structure Built where
  graph : Graph
  wideChars : List Location
  outcome : Except RegexFault Fragment

namespace Graph

/-- Adds a fragment for `r`, or as much of it as can be built. -/
def build (g : Graph) (settings : BuildSettings) (r : Regex) : Built :=
  match (Build.expression settings (depthBound settings.definitions r) [] r).run { graph := g } with
  | .ok fragment c => ⟨c.graph, c.wideChars, .ok fragment⟩
  | .error fault c => ⟨c.graph, c.wideChars, .error fault⟩

/-- Adds a fragment for `r` that begins at `initial` and matches `kind`. -/
def addRule (g : Graph) (settings : BuildSettings) (initial : StateId) (kind : Kind) (r : Regex) : Built :=
  let built := g.build settings r
  match built.outcome with
  | .ok f => { built with graph := (built.graph.acceptAt f.stop kind).linkEpsilon initial f.start }
  | .error _ => built

end Graph

end TokenTables.Automaton
