import TokenTables.Tokenizer

/-!
The tables by kind, filled rule by rule while the lexical states are assembled.
-/

namespace TokenTables

/-- What is known about one kind. -/
structure KindSlot where
  regex : Option TokenDef := none
  disposition : Option Disposition := none
  ignoreCase : Bool := false
  action : Option Action := none
  nextState : Option Nat := none
  /-- The lexical states it is declared in. -/
  homes : List Nat := []

structure KindTables where
  slots : Array KindSlot
  skipped : KindSet := {}
  unfinished : KindSet := {}
  specials : KindSet := {}
  tokens : KindSet := {}
  features : Features := {}
  /-- Lexical states that unfinished tokens lead to. -/
  reachedByMore : List Nat := []

namespace KindTables

/-- Room for the kinds of a grammar. -/
def forGrammar (g : Grammar) : KindTables := { slots := Array.replicate (g.lastKind + 1) {} }

def slot (k : KindTables) (kind : Kind) : KindSlot := k.slots.getD kind {}

def alter (k : KindTables) (kind : Kind) (change : KindSlot → KindSlot) : KindTables :=
  { k with slots := k.slots.modify kind change }

/-- Where a rule leads, by the grammar's list of states. -/
def destination (g : Grammar) (r : TokenRule) : Option Nat := r.nextState.bind g.stateIndex?

/-- The end of the input is a token; the last rule for it that does anything tells what it does. -/
def endOfInput (k : KindTables) (g : Grammar) : KindTables :=
  let rules := g.rules.filter (·.isEndOfInput)
  rules.foldl (fun k r =>
    let target := destination g r
    let action := r.liveAction
    if target.isSome || action.isSome then
      k.alter Kind.endOfInput fun s => { s with nextState := target, action }
    else k) { k with tokens := k.tokens.insert Kind.endOfInput }

/-- Notes that a lexical state declares `t`. -/
def declare (k : KindTables) (state : Nat) (ignoreCase : Bool) (t : TokenDef) : KindTables :=
  k.alter t.kind fun s => { s with regex := some t, ignoreCase, homes := s.homes ++ [state] }

/-- Notes where a rule leads and what it runs. A rule that leads to the state it is declared in leads
nowhere. -/
def noteRule (k : KindTables) (g : Grammar) (state : Nat) (d : Disposition) (r : TokenRule) (kind : Kind) :
    KindTables :=
  k.alter kind fun s => { s with
    disposition := some d
    nextState := ((destination g r).filter (· != state)).or s.nextState
    action := r.liveAction.or s.action }

/-- Sorts a kind that has been noted by what becomes of it. -/
def sortKind (k : KindTables) (state : Nat) (d : Disposition) (kind : Kind) : KindTables :=
  let acts := (k.slot kind).action.isSome
  let next := (k.slot kind).nextState
  let f := k.features
  match d with
  | .special =>
    { k with
      features := { f with
        actsOnSkip := f.actsOnSkip || acts || next.isSome
        actsOnSpecial := f.actsOnSpecial || acts
        hasSpecial := true }
      specials := k.specials.insert kind
      skipped := k.skipped.insert kind }
  | .skip =>
    { k with
      features := { f with actsOnSkip := f.actsOnSkip || acts, hasSkip := true }
      skipped := k.skipped.insert kind }
  | .more =>
    { k with
      features := { f with actsOnMore := f.actsOnMore || acts, hasMore := true }
      unfinished := k.unfinished.insert kind
      reachedByMore := next.getD state :: k.reachedByMore }
  | .token =>
    { k with
      features := { f with actsOnToken := f.actsOnToken || acts }
      tokens := k.tokens.insert kind }

/-- Takes in a rule of a lexical state. -/
def takeRule (k : KindTables) (g : Grammar) (state : Nat) (d : Disposition) (r : TokenRule) (kind : Kind) :
    KindTables :=
  (k.noteRule g state d r kind).sortKind state d kind

/-- An empty match runs the action of its kind without reading anything. -/
def noteEmptyMatch (k : KindTables) (kind : Kind) : KindTables :=
  let f := { k.features with matchesEmpty := true }
  { k with
    features :=
      if k.skipped.contains kind || k.specials.contains kind then { f with actsOnSkip := true }
      else if k.unfinished.contains kind then { f with actsOnMore := true }
      else { f with actsOnToken := true } }

/-- What a match of each kind means. -/
def meaning (k : KindTables) (ignoreCase : Bool) (kind : Kind) : Option KindMeaning :=
  let s := k.slot kind
  if kind = Kind.endOfInput then some ⟨Kind.endOfInput, none, .token, s.nextState, s.action⟩
  else do
    let t ← s.regex
    let d ← s.disposition
    if t.isPrivate then none
    else
      let image := if s.ignoreCase || ignoreCase then none else t.regex.literalText?
      some ⟨t.kind, image, d, s.nextState, s.action⟩

end KindTables

end TokenTables
