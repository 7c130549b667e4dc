import TokenTables.Automaton.EntryNames
import TokenTables.Literal.Index

/-!
Resuming in the automaton. When the input turns out not to be the literal being read, the tokenizer goes on
from the states the automaton would be in, with the best kind matched on the way.
-/

namespace TokenTables.LiteralIndex

open Automaton (Graph StateId EntryName)

/-- The kind at the first position is no worse than the wildcard's. -/
def capAtWildcard (wildcard : Option Kind) (step : Progress) : Progress :=
  match step.kind, wildcard with
  | some k, some any => if any < k then { step with kind := some any } else step
  | _, _ => step

/-- What is matched after one more character, at position `pos`. A literal spelled like the text so far
hides a kind that is later than its own. -/
def progressAt (t : LiteralIndex) (wildcard : Option Kind) (text : List Char) (pos : Nat)
    (kind : Option Kind) (before : Progress) : Progress :=
  let step : Progress :=
    match t.kindOf text, kind with
    | some literal, some k => if literal < k then {} else ⟨some k, pos⟩
    | some _, none => {}
    | none, some k => ⟨some k, pos⟩
    | none, none => before
  if pos = 0 then capAtWildcard wildcard step else step

/-- Follows the automaton along `rest`, after `read`: what is matched and which states are active after
each character. -/
def follow (t : LiteralIndex) (g : Graph) (wildcard : Option Kind) :
    (read : List Char) → (before : Progress) → (active : List StateId) → (rest : List Char) →
    List (Progress × List StateId)
  | _, _, _, [] => []
  | read, before, active, c :: rest =>
    let text := read ++ [c]
    if active.isEmpty then (before, []) :: t.follow g wildcard text before [] rest
    else
      let (kind, after) := g.step c active
      let step := t.progressAt wildcard text read.length kind before
      (step, after) :: t.follow g wildcard text step after rest

/-- Enters a literal under the resumption after a position, unless there is nothing to resume with. -/
def addResumption (g : Graph) (l : Literal) (resumptions : Array Resumptions) (pos : Nat) (step : Progress)
    (active : List StateId) : Array Resumptions :=
  if step.kind.isNone && active.isEmpty then resumptions
  else
    let key : Resumption := ⟨step.kind, step.matchedAt, g.entryNames active⟩
    resumptions.modify pos fun entries => entries.alter key fun kinds => some ((kinds.getD {}).insert l.kind)

/-- Enters the progress and the resumptions of one literal. -/
def addResumptions (g : Graph) (wildcard : Option Kind) (t : LiteralIndex) (l : Literal) : LiteralIndex :=
  let steps := t.follow g wildcard [] {} g.openingStates l.chars
  { t with
    progress := t.progress.insert l.kind (steps.map (·.1))
    resumptions := steps.zipIdx.foldl (fun all ((step, active), pos) => addResumption g l all pos step active)
      t.resumptions }

/-- Follows the closed and named automaton along every literal. -/
def findResumptions (t : LiteralIndex) (g : Graph) (wildcard : Option Kind) : LiteralIndex :=
  let cleared := { t with progress := {}, resumptions := Array.replicate t.maxLength {} }
  if g.openingStates.isEmpty then cleared
  else t.byKind.foldl (addResumptions g wildcard) cleared

/-- Moves the state names of all resumptions up by `offset`. -/
def shiftStates (t : LiteralIndex) (offset : Nat) : LiteralIndex :=
  { t with
    resumptions := t.resumptions.map fun entries =>
      entries.foldl (fun moved key kinds =>
        moved.insert { key with states := key.states.map (· + offset) } kinds) {} }

/-- The states to go on from after `pos + 1` characters of literal `k`, of the first resumption that has
any. -/
def resumptionStates (t : LiteralIndex) (pos : Nat) (k : Kind) : Option (List EntryName) :=
  ((t.resumptionsAt pos).toList.find? fun (key, kinds) =>
    kinds.contains k && !key.states.isEmpty).map (·.1.states)

/-- The name to go on from after `pos + 1` characters of literal `k`. A mixed state has none. -/
def startState (t : LiteralIndex) (pos : Nat) (k : Kind) (g : Graph) : Graph × Option EntryName :=
  if t.mixesCase || g.nameCount == 0 then (g, none)
  else match t.resumptionStates pos k with
    | none => (g, none)
    | some states => g.nameOfGroup states

end TokenTables.LiteralIndex
