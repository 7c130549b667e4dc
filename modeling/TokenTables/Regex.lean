import TokenTables.Location

/-!
Regular expressions as grammars write them: literals, character classes, sequences, choices, bounded and
unbounded repetition, and references to other expressions by label.
-/

namespace TokenTables

/-- One item of a character class. -/
inductive ClassPart where
  | single (c : Char)
  | range (first last : Char)
deriving DecidableEq, Repr

namespace ClassPart

def first : ClassPart → Char
  | single c => c
  | range first _ => first

def last : ClassPart → Char
  | single c => c
  | range _ last => last

def contains (item : ClassPart) (c : Char) : Bool := item.first ≤ c && c ≤ item.last

end ClassPart

/-- The characters of the items, or all others if `negated`. -/
structure CharClass where
  negated : Bool
  items : List ClassPart
deriving DecidableEq, Repr

namespace CharClass

/-- The class that leaves nothing out: any one character. -/
def isAnyChar (cls : CharClass) : Bool := cls.negated && cls.items.isEmpty

/-- Membership as written, with no regard to case folding. -/
def matchesChar (cls : CharClass) (c : Char) : Bool := cls.items.any (·.contains c) != cls.negated

end CharClass

/-- A regular expression; every node knows where it was written. -/
inductive Regex where
  | literal (loc : Location) (text : String)
  | charClass (loc : Location) (cls : CharClass)
  | sequence (loc : Location) (parts : List Regex)
  | choice (loc : Location) (alternatives : List Regex)
  /-- `body` at least `least` times, and at most `most` times if there is a bound. -/
  | repetition (loc : Location) (body : Regex) (least : Nat) (most : Option Nat)
  | reference (loc : Location) (label : String)
deriving Repr, Inhabited

namespace Regex

def location : Regex → Location
  | literal loc _ | charClass loc _ | sequence loc _ | choice loc _ | repetition loc _ _ _
  | reference loc _ => loc

/-- The same expression, written at `loc`. -/
def atLocation (loc : Location) : Regex → Regex
  | literal _ text => literal loc text
  | charClass _ cls => charClass loc cls
  | sequence _ parts => sequence loc parts
  | choice _ alternatives => choice loc alternatives
  | repetition _ body least most => repetition loc body least most
  | reference _ label => reference loc label

def literalText? : Regex → Option String
  | literal _ text => some text
  | _ => none

def isAnyChar : Regex → Bool
  | charClass _ cls => cls.isAnyChar
  | _ => false

def isChoice : Regex → Bool
  | choice _ _ => true
  | _ => false

def label? : Regex → Option String
  | reference _ label => some label
  | _ => none

mutual

/-- The expression and all below it, a node before its parts. -/
def subterms : Regex → List Regex
  | sequence loc parts => sequence loc parts :: subtermsOfAll parts
  | choice loc alternatives => choice loc alternatives :: subtermsOfAll alternatives
  | repetition loc body least most => repetition loc body least most :: body.subterms
  | literal loc text => [literal loc text]
  | charClass loc cls => [charClass loc cls]
  | reference loc label => [reference loc label]

/-- The subterms of each expression in turn. -/
def subtermsOfAll : List Regex → List Regex
  | [] => []
  | r :: rest => r.subterms ++ subtermsOfAll rest

end

/-- The labels that the expression refers to, in the order of writing. -/
def references (r : Regex) : List String := r.subterms.filterMap label?

mutual

/-- The alternatives of a choice, with choices among them spliced in. -/
def directAlternatives : Regex → List Regex
  | choice _ alternatives => directAlternativesOfAll alternatives
  | r => [r]

/-- The direct alternatives of each expression in turn. -/
def directAlternativesOfAll : List Regex → List Regex
  | [] => []
  | r :: rest => r.directAlternatives ++ directAlternativesOfAll rest

end

end Regex

end TokenTables
